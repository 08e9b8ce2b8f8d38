import Trellis.Document.Datum
import Trellis.Document.Yaml.Parser
import Trellis.Document.Yaml.Scanner

/-!
# Reading YAML

A text without quotes is what it looks like: nothing, a truth value, a number or a text; a tag may
ask for one of them. Keys are texts. Aliases are replaced by what they repeat, within limits on the
depth and on the number of repetitions.

* `Yaml.plainDatum?` — the value of a text without quotes.
* `Yaml.Resolving` — replaces aliases.
* `Yaml.read?` — the value that a text spells.
-/

namespace Trellis.Yaml

open Text

/-! ## Plain values -/

/-- Whether the text spells nothing. -/
def isNull (s : String) : Bool := s ∈ ["null", "Null", "NULL", "~"]

def flag? (s : String) : Option Bool :=
  if s ∈ ["true", "True", "TRUE"] then some true
  else if s ∈ ["false", "False", "FALSE"] then some false
  else none

/-- The text without a sign at its start. -/
def dropSign : List Char → List Char
  | '+' :: rest | '-' :: rest => rest
  | s => s

/-- Whether the text is a run of digits that starts with a needless zero, which is no number. -/
def isPadded (s : List Char) : Bool :=
  match dropSign s with
  | '0' :: rest => !rest.isEmpty && rest.all isDigit
  | _ => false

/-- The number that digits of a base spell, at least one. -/
def digits? (base : Nat) (s : List Char) : Option Nat :=
  if !s.isEmpty && s.all fun c => (digit? base c).isSome then some (ofDigits base s) else none

/-- The number of the digits after a prefix that names their base. -/
def prefixed? : List Char → Option Nat
  | '0' :: 'x' :: rest => digits? 16 rest
  | '0' :: 'o' :: rest => digits? 8 rest
  | '0' :: 'b' :: rest => digits? 2 rest
  | _ => none

/-- The absolute value of a whole number without its sign. -/
def magnitude? (s : List Char) : Option Nat :=
  match prefixed? s with
  | some n => some n
  | none => if isPadded s then none else digits? 10 s

/-- The whole number that a text spells, if it has at most 128 bits. -/
def int? (s : List Char) : Option Int :=
  match s with
  | '-' :: rest =>
    ((magnitude? rest).filter (· ≤ 1 <<< 127)).map fun n => -(n : Int)
  | '+' :: rest => ((magnitude? rest).filter (· < 1 <<< 128)).map Int.ofNat
  | s => ((magnitude? s).filter (· < 1 <<< 128)).map Int.ofNat

/-- A whole number as a value: it must have 64 bits, signed or unsigned. -/
def intDatum? (n : Int) : Option Datum :=
  if Integer.least ≤ n ∧ n < 1 <<< 64 then some (.int n) else none

/-- The floating-point number that a text spells. Infinities and what is no number start with a
point. -/
def real? (s : List Char) : Option Float :=
  let unsigned := match s with
    | '+' :: rest => rest
    | s => s
  let twoSigns := s.head? = some '+' ∧ (unsigned.head? = some '+' ∨ unsigned.head? = some '-')
  if twoSigns then none
  else if String.ofList unsigned ∈ [".inf", ".Inf", ".INF"] then some (1.0 / 0.0)
  else if String.ofList s ∈ ["-.inf", "-.Inf", "-.INF"] then some (-1.0 / 0.0)
  else if String.ofList s ∈ [".nan", ".NaN", ".NAN"] then some (0.0 / 0.0)
  else (Real.read? unsigned).filter Float.isFinite

/-- The value of a text without quotes. None if it is a number that is too large. -/
def plainDatum? (text : String) : Option Datum :=
  let s := text.toList
  if s.isEmpty ∨ isNull text then some .null
  else match flag? text, int? s with
    | some b, _ => some (.flag b)
    | none, some n => intDatum? n
    | none, none =>
      if isPadded s then some (.text text)
      else match real? s with
        | some x => some (.real x)
        | none => some (.text text)

/-- Whether a tag is one of the application, which have no meaning here: it starts with an
exclamation mark and spells a text. -/
def isForeign (tag : Tag) : Bool :=
  Tag.mark.isPrefixOf tag && (String.fromUTF8? ⟨tag.toArray⟩).isSome

/-- The tags that ask for a kind of value. -/
inductive KindTag
  | flag | int | real | null
  deriving DecidableEq

/-- The kind of value that a tag asks for. -/
def kindOf? (tag : Tag) : Option KindTag :=
  let named (name : String) : Tag := .ofChars ("tag:yaml.org,2002:" ++ name).toList
  if tag = named "bool" then some .flag
  else if tag = named "int" then some .int
  else if tag = named "float" then some .real
  else if tag = named "null" then some .null
  else none

/-- The value of a text with its tag. None if it is not what the tag says, or if the tag is one of
the application. -/
def textDatum? (tag : Option Tag) (plain : Bool) (text : String) : Option Datum :=
  match tag with
  | none => if plain then plainDatum? text else some (.text text)
  | some tag =>
    match kindOf? tag with
    | some .flag => (flag? text).map .flag
    | some .int => (int? text.toList).bind intDatum?
    | some .real => (real? text.toList).map .real
    | some .null => if isNull text then some .null else none
    | none =>
      if isForeign tag then none
      else if Tag.mark.isPrefixOf tag && plain then plainDatum? text
      else some (.text text)

/-! ## Aliases -/

/-- Replaces aliases, with the number of repetitions that are still allowed. -/
abbrev Resolving := StateT Nat Option

namespace Resolving

/-- Counts one repetition. -/
def count : Resolving Unit := fun left => if left = 0 then none else some ((), left - 1)

/-- The tree itself, or the one that it repeats. -/
def follow (marks : Marks) : Tree → Resolving Tree
  | .alias place => do
    count
    match (marks.places.lookup place).bind fun node => marks.trees.lookup node with
    | some tree => pure tree
    | none => fun _ => none
  | tree => pure tree

/-- The text of a key, whatever its tag. -/
def key (marks : Marks) (tree : Tree) : Resolving String := do
  match ← follow marks tree with
  | .text _ _ s => pure s
  | _ => fun _ => none

/-- The value of a tree, with lists and mappings nested to the given depth. -/
def datum (marks : Marks) : Nat → Tree → Resolving Datum
  | depth, tree => do
    match ← follow marks tree with
    | .text tag plain s => fun left => (textDatum? tag plain s).map fun d => (d, left)
    | .list tag items =>
      match depth with
      | 0 => fun _ => none
      | depth + 1 =>
        if tag.any isForeign then fun _ => none
        else .list <$> items.mapM (datum marks depth)
    | .mapping tag entries =>
      match depth with
      | 0 => fun _ => none
      | depth + 1 =>
        if tag.any isForeign then fun _ => none
        else do
          let node ← entries.foldlM (fun node entry => do
            let key ← key marks entry.1
            pure (Node.insert key (← datum marks depth entry.2) node)) []
          pure (.mapping node)
    | .alias _ => fun _ => none

end Resolving

mutual

/-- The number of steps in which a tree is gone through: one for a text or an alias, and two more
than its parts for all others. -/
def Tree.steps : Tree → Nat
  | .text .. | .alias _ => 1
  | .list _ items => stepsOf items + 2
  | .mapping _ entries => entrySteps entries + 2

def stepsOf : List Tree → Nat
  | [] => 0
  | tree :: rest => tree.steps + stepsOf rest

def entrySteps : List (Tree × Tree) → Nat
  | [] => 0
  | (key, value) :: rest => key.steps + value.steps + entrySteps rest

end

/-- How deep lists and mappings may nest. -/
def depthLimit : Nat := 128

/-- Reads a text that spells one value. Numbers that are not finite stay as they are. -/
def read? (text : List Char) : Option Datum := do
  let tokens ← tokens? text
  let (tree, marks) ← stream? tokens.toList
  let (datum, _) ← (Resolving.datum marks depthLimit tree).run (100 * tree.steps)
  pure datum

end Trellis.Yaml
