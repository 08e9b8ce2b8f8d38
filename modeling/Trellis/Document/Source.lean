/-!
# Where documents come from

* `Source` — reads a document by name.
* `Source.ofTexts`, `Source.ofFiles` — documents kept in memory, and files below a directory.
-/

namespace Trellis

/-- Why a document cannot be read. -/
inductive ReadFault
  | notFound
  | other
  deriving DecidableEq

/-- Reads the bytes of a document by its name. -/
structure Source where
  read : String → Except ReadFault ByteArray

namespace Source

/-! ## Documents in memory -/

/-- Documents by their names. -/
def ofBytes (documents : List (String × Option ByteArray)) : Source where
  read name :=
    match documents.lookup name with
    | some (some bytes) => .ok bytes
    | some none => .error .other
    | none => .error .notFound

/-- Texts by their names. -/
def ofTexts (documents : List (String × String)) : Source :=
  ofBytes (documents.map fun d => (d.1, some d.2.toUTF8))

/-! ## Files -/

/-- The parts of a path. -/
def parts (path : String) : List String := path.splitOn "/"

/-- Files by the parts of their paths; none stands for a directory. -/
abbrev Files := List (List String × Option ByteArray)

/-- What stands at a path. -/
inductive Entry
  | file (bytes : ByteArray)
  | directory
  | missing

/-- Where a path leads to. -/
inductive Place
  /-- The place of the given parts below the directory of the files. -/
  | inside (parts : List String)
  /-- A directory around that one. -/
  | around

namespace Place

/-- The directory that holds a place. -/
def parent : Place → Place
  | .inside [] | .around => .around
  | .inside parts => .inside parts.dropLast

/-- What stands at a place. A part before the last one of some file or directory is a directory. -/
def entry (files : Files) : Place → Entry
  | .around | .inside [] => .directory
  | .inside parts =>
    match files.lookup parts with
    | some (some bytes) => .file bytes
    | some none => .directory
    | none => if files.any fun f => parts.isPrefixOf f.1 then .directory else .missing

/-- The place of a name in a directory. Nothing is known of what the directories around hold. -/
def child? (place : Place) (name : String) : Option Place :=
  match place with
  | .inside parts => some (.inside (parts ++ [name]))
  | .around => none

end Place

/-- The most bytes that a single name has. -/
def longestName : Nat := 255

/-- The most bytes that a path has. -/
def longestPath : Nat := 4095

/-- The bytes that the directory of the files and the slash after it take of a path. -/
def rootLength : Nat := 16

/-- Follows the parts of a path and reads the file there; a dot stays and two dots go back. -/
def walk (files : Files) (here : Place) : List String → Except ReadFault ByteArray
  | [] =>
    match here.entry files with
    | .file bytes => .ok bytes
    | .directory => .error .other
    | .missing => .error .notFound
  | part :: rest =>
    match here.entry files with
    | .file _ => .error .other
    | .missing => .error .notFound
    | .directory =>
      if part = "" ∨ part = "." then walk files here rest
      else if part = ".." then walk files here.parent rest
      else if longestName < part.utf8ByteSize then .error .other
      else match here.child? part with
        | some place => walk files place rest
        | none => .error .notFound

/-- Reads the file of a path, which starts at the directory of the files unless it starts with a
slash. Too long a path, or one with a null character, names nothing. -/
def readFile (files : Files) (path : String) : Except ReadFault ByteArray :=
  let absolute := path.startsWith "/"
  let length := path.utf8ByteSize + if absolute then 0 else rootLength
  if longestPath < length ∨ path.contains '\x00' then .error .other
  else walk files (if absolute then .around else .inside []) (parts path)

/-- Files below a directory by their paths; no text means a directory. -/
def ofFiles (files : List (String × Option String)) : Source where
  read := readFile <| files.map fun f =>
    ((parts f.1).filter fun p => p ≠ "" ∧ p ≠ ".", f.2.map String.toUTF8)

end Source

end Trellis
