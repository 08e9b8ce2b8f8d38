/-!
# Places in a document

The place of a node by the steps that lead to it from the root.
-/

namespace Trellis

/-- A step from a node to what it holds. -/
inductive Step
  /-- The single child. -/
  | child
  /-- The sequence of children. -/
  | children
  /-- One entry of the sequence of children. -/
  | item (index : Nat)
  deriving DecidableEq

/-- The steps from the root. -/
abbrev Path := List Step

def Step.text : Step → String
  | .child => ".child"
  | .children => ".children"
  | .item index => s!".children[{index}]"

/-- The path in words, as in `root.children[1].child`. -/
def Path.text (path : Path) : String := path.foldl (fun s step => s ++ step.text) "root"

end Trellis
