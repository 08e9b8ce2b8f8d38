import Trellis.Document.Getters

/-!
# Element types by name

* `Constructor` — makes the plan of an element from its node.
* `Registry` — constructors by the names that documents use.
-/

namespace Trellis

/-- Makes the plan of an element from its node, or tells why that fails. -/
abbrev Constructor (κ ρ : Type) := Lookup κ → Node → Except String (Blueprint κ ρ)

/-- Constructors by type name. Each name occurs once. -/
structure Registry (κ ρ : Type) where
  entries : List (String × Constructor κ ρ) := []

namespace Registry

variable {κ ρ : Type}

/-- Registers a constructor, in place of one of the same name. -/
def register (registry : Registry κ ρ) (name : String) (constructor : Constructor κ ρ) :
    Registry κ ρ :=
  ⟨registry.entries.filter (·.1 ≠ name) ++ [(name, constructor)]⟩

def find? (registry : Registry κ ρ) (name : String) : Option (Constructor κ ρ) :=
  registry.entries.lookup name

def contains (registry : Registry κ ρ) (name : String) : Bool := (registry.find? name).isSome

/-- The names, sorted. -/
def names (registry : Registry κ ρ) : List String :=
  (registry.entries.map (·.1)).mergeSort fun a b => !decide (b < a)

end Registry

end Trellis
