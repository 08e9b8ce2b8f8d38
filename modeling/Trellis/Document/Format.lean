import Trellis.Document.Json.Reader
import Trellis.Document.Toml.Reader
import Trellis.Document.Yaml.Reader

/-!
# Document formats

* `Format.ofName` — the format that a file name stands for.
* `Format.read?` — reads a document of a format.
-/

namespace Trellis

/-- The formats a document can be written in. -/
inductive Format
  | json | toml | yaml
  deriving DecidableEq

namespace Format

def name : Format → String
  | .json => "json"
  | .toml => "toml"
  | .yaml => "yaml"

/-- The last part of a path that names something; none if the path ends by going back. -/
def fileName? (path : String) : Option (List Char) :=
  match ((path.splitOn "/").filter fun part => part ≠ "" ∧ part ≠ ".").getLast? with
  | some ".." => none
  | some part => some part.toList
  | none => none

/-- What follows the last point of a file name; a point at the very start does not count. -/
def extension? (path : String) : Option (List Char) := do
  let name ← fileName? path
  if '.' ∈ name.tail then some (name.reverse.takeWhile (· ≠ '.')).reverse else none

/-- The format by the extension of a file name, in upper or lower case: `toml`, `yml` or `yaml`, and
JSON for all others. -/
def ofName (path : String) : Format :=
  match (extension? path).map fun e => String.ofList (e.map Char.toLower) with
  | some "toml" => .toml
  | some "yml" | some "yaml" => .yaml
  | _ => .json

/-- Reads a document; none if it has a syntax error. Numbers that are not finite are `null`. -/
def read? (format : Format) (text : String) : Option Datum :=
  match format with
  | .json => Json.read? text.toList
  | .toml => do
    let node ← Toml.read? text.toList
    pure (← Toml.settle? (.mapping node)).finite
  | .yaml => (Yaml.read? text.toList).map Datum.finite

end Format

end Trellis
