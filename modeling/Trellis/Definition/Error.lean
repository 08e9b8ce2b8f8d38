import Trellis.Definition.Path

/-!
# Why a document cannot be built

* `BuildError` — the faults a document can have, each with the place it is at.
* `BuildError.message` — the fault in words.
-/

namespace Trellis

/-- A fault in the form of a document. -/
inductive Malformation
  | document
  | child
  | children
  /-- The text follows no rules of its format. -/
  | unreadable
  deriving DecidableEq

def Malformation.message : Malformation → String
  | .document => "document is not a mapping"
  | .child => "child is not a mapping"
  | .children => "children is not a sequence"
  | .unreadable => "<parser>"

/-- Why a document cannot be built. -/
inductive BuildError
  | sourceNotFound (name : String)
  | unreadable (name : String)
  | malformed (path : Path) (fault : Malformation)
  | missingType (path : Path)
  | unknownType (type : String) (path : Path)
  /-- The constructor of the type failed for the given reason. -/
  | constructor (type : String) (path : Path) (reason : String)
  | childRejected (parent : String) (path : Path) (reason : String)
  deriving DecidableEq

namespace BuildError

def message : BuildError → String
  | .sourceNotFound name => "no definition found: " ++ name
  | .unreadable name => "unable to read definition " ++ name
  | .malformed path fault =>
    "definition has syntax error at " ++ path.text ++ ": " ++ fault.message
  | .missingType path => "element at " ++ path.text ++ " has no type"
  | .unknownType type path => "no such element type: " ++ type ++ " (at " ++ path.text ++ ")"
  | .constructor type path _ => "failed to construct " ++ type ++ " at " ++ path.text
  | .childRejected parent path reason =>
    parent ++ " rejected child at " ++ path.text ++ ": " ++ reason

/-- The place of the fault, if it is in the document. -/
def path? : BuildError → Option Path
  | .sourceNotFound _ | .unreadable _ => none
  | .malformed path _ | .missingType path | .unknownType _ path | .constructor _ path _
  | .childRejected _ path _ => some path

end BuildError

end Trellis
