import Trellis.Text.Numeral

/-!
# Document data

What a document holds once it is parsed, whatever format it was written in. Mappings keep their
entries in order of first appearance.

* `Datum` — a value of a document.
* `Node` — a mapping; a key occurs once.
* `Node.insert` — a later entry of the same key takes the place of the earlier one.
-/

namespace Trellis

/-- A value of a document. -/
inductive Datum
  | null
  | flag (b : Bool)
  | int (n : Int)
  | real (x : Float)
  | text (s : String)
  | list (items : List Datum)
  | mapping (entries : List (String × Datum))
  deriving Inhabited

/-- The entries of a mapping, in order. -/
abbrev Node := List (String × Datum)

namespace Node

/-- The value of a key. -/
def get? (node : Node) (key : String) : Option Datum := node.lookup key

/-- Sets the value of a key, which keeps its place if it is there already. -/
def insert (key : String) (value : Datum) : Node → Node
  | [] => [(key, value)]
  | entry :: rest =>
    if entry.1 = key then (key, value) :: rest else entry :: insert key value rest

def keys (node : Node) : List String := node.map (·.1)

@[simp] theorem get?_insert_self (key : String) (value : Datum) (node : Node) :
    get? (insert key value node) key = some value := by
  induction node with
  | nil => simp [get?, insert]
  | cons entry rest ih =>
    obtain ⟨own, old⟩ := entry
    by_cases h : own = key
    · simp [get?, insert, h]
    · have h' : (key == own) = false := by simpa using Ne.symm h
      simpa [get?, insert, h, List.lookup_cons, h'] using ih

end Node

namespace Datum

/-- The value as a number; texts that spell one count. -/
def toReal? : Datum → Option Float
  | .int n => some (Float.ofInt n)
  | .real x => some x
  | .text s => Text.Real.read? (Text.trim s.toList)
  | _ => none

/-- The value as an integer of 64 bits: fractions are cut off, and what lies outside is moved to the
nearest end. Texts that spell a number count. -/
def toInt? : Datum → Option Int
  | .int n => some (if Text.Integer.fits n then n else Text.Real.truncate (Float.ofInt n))
  | .real x => some (Text.Real.truncate x)
  | .text s =>
    let s := Text.trim s.toList
    match Text.Integer.read s with
    | .ok n => some n
    | .error _ => (Text.Real.read? s).map Text.Real.truncate
  | _ => none

def toText? : Datum → Option String
  | .text s => some s
  | _ => none

def toFlag? : Datum → Option Bool
  | .flag b => some b
  | _ => none

def toNode? : Datum → Option Node
  | .mapping entries => some entries
  | _ => none

def toList? : Datum → Option (List Datum)
  | .list items => some items
  | _ => none

mutual

/-- The value with `null` in place of numbers that are not finite. -/
def finite : Datum → Datum
  | .real x => if x.isFinite then .real x else .null
  | .list items => .list (finiteItems items)
  | .mapping entries => .mapping (finiteEntries entries)
  | d => d

def finiteItems : List Datum → List Datum
  | [] => []
  | item :: rest => item.finite :: finiteItems rest

def finiteEntries : List (String × Datum) → List (String × Datum)
  | [] => []
  | (key, value) :: rest => (key, value.finite) :: finiteEntries rest

end

end Datum

end Trellis
