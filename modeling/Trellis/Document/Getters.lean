import Trellis.Color
import Trellis.Document.Datum
import Trellis.Style.Constants
import Trellis.World.Basic

/-!
# Reading settings from nodes

Each reader answers none if the key is missing or holds something of another shape, so whoever reads
picks the default. Names of functions and bindings are looked up; one that is not found is none.

* `Lookup` — what names in a document stand for.
* `Node.int?`, `Node.real?`, `Node.constant?`, … — the readers.
-/

namespace Trellis

/-- What the names of functions and bindings in a document stand for. -/
structure Lookup (κ : Type) where
  function? : String → Option (Function κ)
  /-- The binding of a name, with its shape. -/
  binding? : String → Option (BindingId × Shape)

/-- A lookup that knows no names. -/
def Lookup.none {κ : Type} : Lookup κ := ⟨fun _ => .none, fun _ => .none⟩

namespace Node

variable {κ : Type}

def text? (node : Node) (key : String) : Option String := (node.get? key).bind Datum.toText?

def flag? (node : Node) (key : String) : Option Bool := (node.get? key).bind Datum.toFlag?

/-- A number as an integer between two limits. -/
def int? (node : Node) (low high : Int) (key : String) : Option Int :=
  ((node.get? key).bind Datum.toInt?).filter fun n => low ≤ n && n ≤ high

/-- A number as a natural number. -/
def natural? (node : Node) (key : String) : Option Nat :=
  (node.int? 0 Text.Integer.greatest key).map Int.toNat

def real? (node : Node) (key : String) : Option Float := (node.get? key).bind Datum.toReal?

/-- A number in single precision. -/
def single? (node : Node) (key : String) : Option Float := (node.real? key).map Number.single

def color? (node : Node) (key : String) : Option (Color Float) := (node.text? key).bind Color.parse?

/-- A style constant by its name. -/
def constant? {σ : Type} [Named σ] (node : Node) (key : String) : Option σ :=
  (node.text? key).bind Named.ofName?

/-- A style constant by its name, or the default of its domain. -/
def constantD {σ : Type} [Named σ] [Inhabited σ] (node : Node) (key : String) : σ :=
  (node.constant? key).getD default

/-- A typeface, with style and weight under keys of their own. -/
def font? (node : Node) (face style weight : String) : Option Font :=
  (node.text? face).map fun typeface => ⟨typeface, node.constantD style, node.constantD weight⟩

def node? (node : Node) (key : String) : Option Node := (node.get? key).bind Datum.toNode?

/-- The mappings of a sequence; other entries are passed over. -/
def nodes? (node : Node) (key : String) : Option (List Node) :=
  ((node.get? key).bind Datum.toList?).map (·.filterMap Datum.toNode?)

def function? (node : Node) (lookup : Lookup κ) (key : String) : Option (Function κ) :=
  (node.text? key).bind lookup.function?

def handler? (node : Node) (lookup : Lookup κ) (key : String) : Option κ :=
  (node.function? lookup key).bind Function.handler?

def filter? (node : Node) (lookup : Lookup κ) (key : String) : Option κ :=
  (node.function? lookup key).bind Function.filter?

def painter? (node : Node) (lookup : Lookup κ) (key : String) : Option κ :=
  (node.function? lookup key).bind Function.painter?

def itemRenderer? (node : Node) (lookup : Lookup κ) (key : String) : Option κ :=
  (node.function? lookup key).bind Function.itemRenderer?

def itemHandler? (node : Node) (lookup : Lookup κ) (key : String) : Option κ :=
  (node.function? lookup key).bind Function.itemHandler?

/-- A binding by name whose shape is accepted. -/
def bindingWhere? (node : Node) (lookup : Lookup κ) (accepts : Shape → Bool) (key : String) :
    Option BindingId :=
  (((node.text? key).bind lookup.binding?).filter fun found => accepts found.2).map (·.1)

/-- A binding by name that holds one value of a kind. -/
def binding? (node : Node) (lookup : Lookup κ) (kind : Scalar.Kind) (key : String) :
    Option BindingId :=
  node.bindingWhere? lookup (· = .one kind) key

/-- A binding by name that holds a sequence. -/
def listBinding? (node : Node) (lookup : Lookup κ) (key : String) : Option BindingId :=
  node.bindingWhere? lookup Shape.isList key

end Node

end Trellis
