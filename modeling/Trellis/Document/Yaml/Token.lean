import Trellis.Document.Yaml.Cursor

/-!
# Tokens of YAML

* `Yaml.Token` — the tokens.
* `Yaml.tag?`, `Yaml.name?`, `Yaml.directive?` — the tokens that say something about what follows.
-/

namespace Trellis.Yaml

open Text

/-- A tag by its bytes, which need not spell a text. -/
abbrev Tag := List UInt8

/-- The parts that a document is made of. -/
inductive Token
  /-- `%YAML` with the two parts of the version. -/
  | version (major minor : Nat)
  /-- `%TAG` with a handle and what it stands for. -/
  | tagHandle (handle : String) (full : Tag)
  | documentStart | documentEnd
  | blockSequence | blockMapping
  /-- The end of a sequence or mapping that is set off by indentation. -/
  | blockEnd
  | openSequence | closeSequence | openMapping | closeMapping
  /-- A dash before an item. -/
  | item
  | comma
  /-- Before a key, whether or not it is marked. -/
  | key
  | value
  | alias (name : String)
  | anchor (name : String)
  | tag (handle : String) (suffix : Tag)
  | text (s : String) (plain : Bool)
  deriving DecidableEq

/-! ## Tags -/

/-- Whether the character may stand in a tag; between angle brackets there may be more. -/
def isTagChar (bracketed : Bool) (c : Char) : Bool :=
  isNameChar c || ";/?:@&=+$.%!~*'()".toList.contains c || (bracketed && ",[]".toList.contains c)

/-- The number of bytes of a character by its first one. -/
def width? (byte : Nat) : Option Nat :=
  if byte < 0x80 then some 1
  else if byte / 0x20 = 6 then some 2
  else if byte / 0x10 = 14 then some 3
  else if byte / 8 = 30 then some 4
  else none

/-- The tag of some characters, each of one byte. -/
def Tag.ofChars (s : List Char) : Tag := s.map fun c => c.toNat.toUInt8

/-- The tag that consists of an exclamation mark. -/
def Tag.mark : Tag := .ofChars ['!']

/-- The tag up to a byte zero, which ends it. -/
def Tag.untilZero (tag : Tag) : Tag := tag.takeWhile (· ≠ 0)

/-- The bytes of a tag in which some may be given by their digits after `%`. `left` bytes of a
character are still to come. -/
def unescapeTag? (left : Nat) : List Char → Option Tag
  | '%' :: a :: b :: rest => do
    let byte := (← hexDigit? a) * 16 + (← hexDigit? b)
    let left ← match left with
      | 0 => (width? byte).map (· - 1)
      | left + 1 => if byte / 0x40 = 2 then some left else none
    pure (byte.toUInt8 :: (← unescapeTag? left rest))
  | [] => if left = 0 then some [] else none
  | c :: rest =>
    if left = 0 ∧ c ≠ '%' then do pure (c.toNat.toUInt8 :: (← unescapeTag? 0 rest)) else none

/-- Reads a part of a tag. -/
def tagPart? (bracketed : Bool) (c : Cursor) : Option (Tag × Cursor) := do
  let part ← unescapeTag? 0 (c.rest.takeWhile (isTagChar bracketed))
  pure (part, c.skipWhile (isTagChar bracketed))

/-- Reads an exclamation mark, the name after it, and another mark if there is one. -/
def handle? (c : Cursor) : Option (List Char × Cursor) :=
  if c.head? ≠ some '!' then none
  else
    let name := c.skip.rest.takeWhile isNameChar
    let c := c.skip.skipCount name.length
    if c.head? = some '!' then some ('!' :: name ++ ['!'], c.skip) else some ('!' :: name, c)

/-- Reads a tag. A single exclamation mark is a tag without a handle. -/
def tag? (flow : Bool) (c : Cursor) : Option (Token × Cursor) := do
  let (token, c) ← if c.skip.head? = some '<' then do
      let (full, c) ← tagPart? true c.skip.skip
      if full.isEmpty ∨ c.head? ≠ some '>' then none
      else pure (Token.tag "" full.untilZero, c.skip)
    else do
      let (handle, after) ← handle? c
      let (part, c) ← tagPart? false after
      if 1 < handle.length ∧ handle.getLast? = some '!' then
        if part.isEmpty then none
        else pure (.tag (String.ofList handle) part.untilZero, c)
      else
        let suffix := (Tag.ofChars (handle.drop 1) ++ part).untilZero
        if suffix.isEmpty then pure (.tag "" Tag.mark, c) else pure (.tag "!" suffix, c)
  if gapNext c.rest ∨ (flow ∧ c.head? = some ',') then some (token, c) else none

/-! ## Anchors -/

/-- Reads the name of an anchor or an alias after its mark. -/
def name? (c : Cursor) : Option (String × Cursor) :=
  let name := c.rest.takeWhile isNameChar
  let c := c.skipCount name.length
  if name.isEmpty ∨ ¬ (gapNext c.rest ∨ c.head?.any (· ∈ "?:,]\x7d%@\x60".toList)) then none
  else some (String.ofList name, c)

/-! ## Directives -/

/-- Reads a number of at most nine digits. -/
def versionPart? (c : Cursor) : Option (Nat × Cursor) :=
  let digits := c.rest.takeWhile isDigit
  if digits.isEmpty ∨ 9 < digits.length then none
  else some (ofDigits 10 digits, c.skipCount digits.length)

/-- Reads the version of a `%YAML` directive. -/
def version? (c : Cursor) : Option (Token × Cursor) := do
  let (major, c) ← versionPart? (c.skipWhile isBlank)
  if c.head? ≠ some '.' then none
  else
    let (minor, c) ← versionPart? c.skip
    pure (.version major minor, c)

/-- Reads the handle of a `%TAG` directive and what it stands for. -/
def tagHandle? (c : Cursor) : Option (Token × Cursor) := do
  let (handle, c) ← handle? (c.skipWhile isBlank)
  if (handle ≠ ['!'] ∧ handle.getLast? ≠ some '!') ∨ !c.head?.any isBlank then none
  else
    let (full, c) ← tagPart? true (c.skipWhile isBlank)
    if full.isEmpty ∨ !gapNext c.rest then none
    else pure (.tagHandle (String.ofList handle) full.untilZero, c)

/-- Reads a directive with its line. -/
def directive? (c : Cursor) : Option (Token × Cursor) := do
  let name := c.skip.rest.takeWhile isNameChar
  let c := c.skip.skipCount name.length
  if !gapNext c.rest then none
  else
    let (token, c) ← match String.ofList name with
      | "YAML" => version? c
      | "TAG" => tagHandle? c
      | _ => none
    let c ← c.toLineEnd?
    pure (token, c.skip)

end Trellis.Yaml
