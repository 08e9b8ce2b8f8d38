import Trellis.Text.Digit

/-!
# Places in a YAML text

The scanner goes through the text with a cursor that knows its line and column, since both decide
what a character means.

* `Yaml.isAllowed` — the characters that may occur.
* `Yaml.unifyBreaks` — the text with one kind of ordinary line break.
* `Yaml.Cursor` — a place in the text.
* `Yaml.fold` — what blanks and line breaks inside a text that is not a block count as.
-/

namespace Trellis.Yaml

/-- Whether the character may occur in a document: all but control characters and noncharacters. -/
def isAllowed (c : Char) : Bool :=
  let n := c.toNat
  n == 0x09 || n == 0x0a || n == 0x0d || (0x20 ≤ n && n ≤ 0x7e) || n == 0x85 ||
    (0xa0 ≤ n && n ≤ 0xfffd) || 0x10000 ≤ n

/-- The text with a line feed for each ordinary line break. -/
def unifyBreaks : List Char → List Char
  | [] => []
  | '\r' :: '\n' :: rest => '\n' :: unifyBreaks rest
  | c :: rest => (if c = '\r' ∨ c = '\x85' then '\n' else c) :: unifyBreaks rest

/-- Whether the character breaks a line. Separators of lines and paragraphs do, and are kept. -/
def isBreak (c : Char) : Bool := c == '\n' || c == '\u2028' || c == '\u2029'

def isBlank (c : Char) : Bool := c == ' ' || c == '\t'

def isGap (c : Char) : Bool := isBlank c || isBreak c

/-- Whether a gap or the end of the text is next. -/
def gapNext (s : List Char) : Bool := s.head?.all isGap

/-- Whether the end of the line or of the text is next. -/
def breakNext (s : List Char) : Bool := s.head?.all isBreak

/-- Whether the character may stand in names of anchors and directives. -/
def isNameChar (c : Char) : Bool := c.isAlphanum || c == '_' || c == '-'

/-- A place in the text; its index counts bytes and its column characters. -/
structure Cursor where
  rest : List Char
  index : Nat := 0
  line : Nat := 0
  column : Nat := 0

namespace Cursor

/-- Over one character. -/
def skip (c : Cursor) : Cursor :=
  match c.rest with
  | [] => c
  | char :: rest =>
    if isBreak char then ⟨rest, c.index + char.utf8Size, c.line + 1, 0⟩
    else ⟨rest, c.index + char.utf8Size, c.line, c.column + 1⟩

/-- Over a number of characters. -/
def skipCount (c : Cursor) : Nat → Cursor
  | 0 => c
  | n + 1 => c.skip.skipCount n

/-- Over all characters next that satisfy a condition. -/
def skipWhile (c : Cursor) (p : Char → Bool) : Cursor := c.skipCount (c.rest.takeWhile p).length

def head? (c : Cursor) : Option Char := c.rest.head?

/-- Whether a line starts with the given marker of three characters, and a gap after it. -/
def atMarker (c : Cursor) (marker : String) : Bool :=
  c.column == 0 && marker.toList.isPrefixOf c.rest && gapNext (c.rest.drop 3)

/-- Whether a marker of the start or the end of a document is next. -/
def atDocumentMarker (c : Cursor) : Bool := c.atMarker "---" || c.atMarker "..."

/-- Over blanks and a comment, to the end of the line. None if something else stands there. -/
def toLineEnd? (c : Cursor) : Option Cursor :=
  let c := c.skipWhile isBlank
  let c := if c.head? = some '#' then c.skipWhile (!isBreak ·) else c
  if breakNext c.rest then some c else none

end Cursor

/-- What a gap inside a text counts as: blanks on a line stand as they are; a single line break is a
space, and of several ones the first does not count. -/
def fold (gap : List Char) : List Char :=
  match gap.filter isBreak with
  | [] => gap
  | ['\n'] => [' ']
  | '\n' :: further => further
  | breaks => breaks

end Trellis.Yaml
