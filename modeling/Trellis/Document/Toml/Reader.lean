import Trellis.Document.Toml.Number
import Trellis.Document.Toml.Quoted
import Trellis.Document.Toml.Table

/-!
# Reading TOML

A document is read line by line: a line gives a value to a key, or says which table the lines after
it belong to. Values may nest to a limited depth.

* `Toml.value?` — reads a value.
* `Toml.read?` — the table that a document spells. Numbers that are not finite stay as they are, and
  a date is a mapping with one key of its own.
* `Toml.settle?` — takes every mapping that starts with that key for a date.
-/

namespace Trellis.Toml

/-- Values nest to less than this depth, and dotted keys have fewer parts. -/
def depthLimit : Nat := 80

/-- Whether the character may stand in a key without quotes. -/
def isKeyChar (c : Char) : Bool := c.isAlphanum || c == '_' || c == '-'

/-- Reads one part of a key. -/
def part? (s : List Char) : Option (String × List Char) :=
  match s with
  | '"' :: rest => quoted? '"' false rest
  | '\'' :: rest => quoted? '\'' false rest
  | s =>
    let word := s.takeWhile isKeyChar
    if word.isEmpty then none else some (String.ofList word, s.dropWhile isKeyChar)

/-- Reads a key of at most the given number of parts, with the blanks around it. -/
def parts? : Nat → List Char → Option (List String × List Char)
  | 0, _ => none
  | n + 1, s => do
    let (part, s) ← part? (skipBlanks s)
    match skipBlanks s with
    | '.' :: s =>
      let (parts, s) ← parts? n s
      pure (part :: parts, s)
    | s => pure ([part], s)

/-- Reads a key: the path and its last part. -/
def key? (s : List Char) : Option ((List String × String) × List Char) := do
  let (parts, s) ← parts? (depthLimit - 1) s
  pure ((parts.dropLast, ← parts.getLast?), s)

/-- The key of dates and times. -/
def momentKey : String := "$__toml_private_datetime"

/-- A date or time, as a mapping with one key of its own. -/
def moment (word : List Char) : Datum := .mapping [(momentKey, .text (String.ofList word))]

/-- Reads a number, a date or a time. -/
def word? (s : List Char) : Option (Datum × List Char) :=
  let word := s.takeWhile isWordChar
  let rest := s.dropWhile isWordChar
  match rest with
  | ' ' :: more =>
    let time := more.takeWhile isWordChar
    if date? word = some [] ∧ isZonedTime time then
      some (moment (word ++ 'T' :: time), more.dropWhile isWordChar)
    else plain word rest
  | rest => plain word rest
where
  /-- The value of a single word. -/
  plain (word rest : List Char) : Option (Datum × List Char) :=
    if isMoment word then some (moment word, rest)
    else match integer? word, real? word with
      | some n, _ => some (.int n, rest)
      | none, some x => some (.real x, rest)
      | none, none =>
        match String.ofList word with
        | "true" => some (.flag true, rest)
        | "false" => some (.flag false, rest)
        | _ => none

/-- Reads the items of a list up to its end; `item?` reads one of them. -/
def items? (item? : List Char → Option (Datum × List Char)) :
    Nat → List Char → Option (List Datum × List Char)
  | 0, _ => none
  | fuel + 1, s => do
    match ← skipLines? false s with
    | ']' :: s => pure ([], s)
    | s =>
      let (item, s) ← item? s
      match ← skipLines? false s with
      | ',' :: s =>
        let (items, s) ← items? item? fuel s
        pure (item :: items, s)
      | ']' :: s => pure ([item], s)
      | _ => none

/-- Reads the entries of a table on one line up to its end; `item?` reads a value. -/
def entries? (item? : List Char → Option (Datum × List Char)) :
    Nat → Entries → List Char → Option (Entries × List Char)
  | 0, _, _ => none
  | fuel + 1, entries, s => do
    let ((path, key), s) ← key? s
    match s with
    | '=' :: s =>
      let (value, s) ← item? (skipBlanks s)
      let entries ← put? path key value entries
      match skipBlanks s with
      | ',' :: s => entries? item? fuel entries s
      | '}' :: s => pure (entries, s)
      | _ => none
    | _ => none

/-- Reads a value in which others nest to less than the given depth. -/
def value? : Nat → List Char → Option (Datum × List Char)
  | 0, _ => none
  | depth + 1, s =>
    match s with
    | '"' :: rest => (quoted? '"' true rest).map fun (text, s) => (.text text, s)
    | '\'' :: rest => (quoted? '\'' true rest).map fun (text, s) => (.text text, s)
    | '[' :: rest =>
      if depth = 0 then none
      else (items? (value? depth) s.length rest).map fun (items, s) => (.list items, s)
    | '\x7b' :: rest =>
      if depth = 0 then none
      else match skipBlanks rest with
        | '\x7d' :: s => some (.mapping [], s)
        | rest =>
          (entries? (value? depth) s.length [] rest).map fun (entries, s) =>
            (.mapping (nodeOf entries), s)
    | s => word? s

/-- A document under way: its tables, and the table that lines belong to. -/
structure Draft where
  entries : Entries := []
  table : List String := []

namespace Draft

/-- Gives a value to a key of the table that lines belong to. -/
def put? (draft : Draft) (path : List String) (key : String) (value : Datum) : Option Draft := do
  let entries ← reach? false (fun _ inner => Toml.put? path key value inner) false draft.entries
    draft.table
  pure { draft with entries }

/-- Opens a table for the lines that follow. -/
def open? (draft : Draft) (path : List String) (key : String) : Option Draft := do
  pure { entries := ← Toml.open? path key draft.entries, table := path ++ [key] }

/-- Appends a table for the lines that follow. -/
def append? (draft : Draft) (path : List String) (key : String) : Option Draft := do
  pure { entries := ← Toml.append? path key draft.entries, table := path ++ [key] }

/-- Reads one line that says something. -/
def line? (draft : Draft) (s : List Char) : Option (Draft × List Char) :=
  match s with
  | '[' :: '[' :: s => do
    let ((path, key), s) ← key? s
    match s with
    | ']' :: ']' :: s => pure (← draft.append? path key, ← lineEnd? s)
    | _ => none
  | '[' :: s => do
    let ((path, key), s) ← key? s
    match s with
    | ']' :: s => pure (← draft.open? path key, ← lineEnd? s)
    | _ => none
  | s => do
    let ((path, key), s) ← key? s
    match s with
    | '=' :: s =>
      let (value, s) ← value? depthLimit (skipBlanks s)
      pure (← draft.put? path key value, ← lineEnd? s)
    | _ => none

/-- Reads lines up to the end of the text. -/
def lines? : Nat → Draft → List Char → Option Draft
  | 0, _, _ => none
  | fuel + 1, draft, s =>
    match skipBlanks s with
    | [] => some draft
    | '#' :: s => do lines? fuel draft (← lineEnd? ('#' :: s))
    | s =>
      match newline? s with
      | some s => lines? fuel draft s
      | none => do
        let (draft, s) ← draft.line? s
        lines? fuel draft s

end Draft

/-- Reads a document. -/
def read? (s : List Char) : Option Node := do
  let s := match s with
    | '\uFEFF' :: rest => rest
    | s => s
  let draft ← Draft.lines? (s.length + 1) {} s
  pure (nodeOf draft.entries)

mutual

/-- The value in which every mapping that starts with the key of dates is a date: its other keys do
not count, and it is a fault if what the key has is none. -/
def settle? : Datum → Option Datum
  | .list items => (settleItems? items).map .list
  | .mapping ((key, value) :: rest) =>
    if key = momentKey then
      match value with
      | .text s => if isMomentText s.toList then some (moment s.toList) else none
      | _ => none
    else do
      let value ← settle? value
      pure (.mapping ((key, value) :: (← settleEntries? rest)))
  | d => some d

def settleItems? : List Datum → Option (List Datum)
  | [] => some []
  | item :: rest => do pure ((← settle? item) :: (← settleItems? rest))

def settleEntries? : List (String × Datum) → Option (List (String × Datum))
  | [] => some []
  | (key, value) :: rest => do pure ((key, ← settle? value) :: (← settleEntries? rest))

end

end Trellis.Toml
