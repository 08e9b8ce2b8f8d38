import Trellis.Document.Json.Token

/-!
# Reading JSON

The tokens of a text are read one by one with a stack of the lists and mappings that are still open.
Of the entries of a mapping with one key the last one counts. Nesting is limited.

* `Json.read?` — the value that a text spells, or none if it spells no value or more than one.
-/

namespace Trellis.Json

/-- How deep lists and mappings may nest. -/
def depthLimit : Nat := 127

/-- A list or mapping that is still open. A mapping under way knows the key its next value has. -/
inductive Frame
  | list (items : List Datum)
  | mapping (entries : Node) (key : String)

/-- What may come next. -/
inductive Expected
  | value
  /-- The first item of a list, or its end. -/
  | firstItem
  /-- The first key of a mapping, or its end. -/
  | firstKey
  /-- A key of a mapping that has these entries. -/
  | key (entries : Node)
  /-- The colon after a key. -/
  | colon (entries : Node) (key : String)
  /-- A comma or the end, in the innermost open list or mapping, after its latest value. -/
  | separator (latest : Datum)

/-- The open lists and mappings, the innermost first, and what may come next. -/
structure Reading where
  stack : List Frame
  expected : Expected

/-- Takes a value where one may come. -/
def Reading.value? (stack : List Frame) : Token → Option Reading
  | .openList => if stack.length < depthLimit then some ⟨.list [] :: stack, .firstItem⟩ else none
  | .openMapping =>
    if stack.length < depthLimit then some ⟨.mapping [] "" :: stack, .firstKey⟩ else none
  | .text s => some ⟨stack, .separator (.text s)⟩
  | .plain v => some ⟨stack, .separator v⟩
  | _ => none

/-- Takes a token. -/
def Reading.step? (r : Reading) (token : Token) : Option Reading :=
  match r.expected, token, r.stack with
  | .value, token, stack => value? stack token
  | .firstItem, .closeList, .list _ :: outer => some ⟨outer, .separator (.list [])⟩
  | .firstItem, token, stack => value? stack token
  | .firstKey, .closeMapping, .mapping _ _ :: outer => some ⟨outer, .separator (.mapping [])⟩
  | .firstKey, .text key, stack => some ⟨stack, .colon [] key⟩
  | .key entries, .text key, stack => some ⟨stack, .colon entries key⟩
  | .colon entries key, .colon, .mapping _ _ :: outer => some ⟨.mapping entries key :: outer, .value⟩
  | .separator v, .comma, .list items :: outer => some ⟨.list (v :: items) :: outer, .value⟩
  | .separator v, .closeList, .list items :: outer =>
    some ⟨outer, .separator (.list (v :: items).reverse)⟩
  | .separator v, .comma, .mapping entries key :: outer =>
    some ⟨.mapping [] "" :: outer, .key (Node.insert key v entries)⟩
  | .separator v, .closeMapping, .mapping entries key :: outer =>
    some ⟨outer, .separator (.mapping (Node.insert key v entries))⟩
  | _, _, _ => none

/-- The value read, if nothing is open any more. -/
def Reading.result? (r : Reading) : Option Datum :=
  match r.stack, r.expected with
  | [], .separator v => some v
  | _, _ => none

/-- Reads a text that spells one value. -/
def read? (s : List Char) : Option Datum := do
  let tokens ← Token.ofText? s
  let final ← tokens.foldlM Reading.step? ⟨[], .value⟩
  final.result?

end Trellis.Json
