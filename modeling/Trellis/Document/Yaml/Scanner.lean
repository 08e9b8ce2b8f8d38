import Trellis.Document.Yaml.Scalar
import Trellis.Document.Yaml.Token

/-!
# The YAML scanner

The scanner cuts the text into tokens. Deeper indentation opens a sequence or mapping, and less
closes it. That something is a key shows only at the colon after it, so where a key may start the
place is kept, and the tokens before the key are put in there later.

* `Yaml.Scanner` — what the scanner knows.
* `Yaml.Scanner.step?` — takes the next token.
* `Yaml.tokens?` — the tokens of a text.
-/

namespace Trellis.Yaml

/-- A place where a key may have started. -/
structure KeyStart where
  /-- The number of tokens before it. -/
  token : Nat
  index : Nat
  line : Nat
  column : Nat
  /-- Whether a colon has to follow: nothing but a key may start there. -/
  required : Bool

/-- What the scanner knows between two tokens. -/
structure Scanner where
  cursor : Cursor
  tokens : Array Token := #[]
  /-- The column of the innermost open block; before any block it is -1. -/
  indent : Int := -1
  /-- The columns of the blocks around it, innermost first. -/
  outer : List Int := []
  /-- Where a key may have started outside all brackets or inside the innermost ones. -/
  keyStart : Option KeyStart := none
  /-- The same for the text around each open bracket, innermost first. -/
  keyStarts : List (Option KeyStart) := []
  /-- Whether a key may start here. -/
  keyAllowed : Bool := true

namespace Scanner

/-- Whether the scanner is inside brackets. -/
def flow (s : Scanner) : Bool := !s.keyStarts.isEmpty

def push (s : Scanner) (token : Token) : Scanner := { s with tokens := s.tokens.push token }

/-- Over blanks, comments and line breaks. Tabs are no indentation: they are passed over only where
no key may start. -/
def toToken : Nat → Scanner → Scanner
  | 0, s => s
  | fuel + 1, s =>
    let c := if s.cursor.column = 0 ∧ s.cursor.head? = some '\uFEFF' then s.cursor.skip else s.cursor
    let c := c.skipWhile fun char => char == ' ' || (char == '\t' && (s.flow || !s.keyAllowed))
    let c := if c.head? = some '#' then c.skipWhile (!isBreak ·) else c
    if c.head?.any isBreak then
      toToken fuel { s with cursor := c.skip, keyAllowed := s.keyAllowed || !s.flow }
    else { s with cursor := c }

/-- Whether a key that started there can no longer be followed by its colon: it has to end on its
line, and within 1024 bytes. -/
def isStale (c : Cursor) (start : KeyStart) : Bool :=
  start.line < c.line || start.index + 1024 < c.index

/-- Gives up a place where a key may have started. A fault if a key is required. -/
def giveUp? : Option KeyStart → Option Unit
  | some start => if start.required then none else some ()
  | none => some ()

/-- Gives up the places that are too far back. -/
def dropStale? (s : Scanner) : Option Scanner := do
  let fresh? (start : Option KeyStart) : Option (Option KeyStart) :=
    if start.any (isStale s.cursor) then (giveUp? start).map fun _ => none else some start
  pure { s with keyStart := ← fresh? s.keyStart, keyStarts := ← s.keyStarts.mapM fresh? }

/-- Gives up the latest place. -/
def dropKeyStart? (s : Scanner) : Option Scanner := do
  giveUp? s.keyStart
  pure { s with keyStart := none }

/-- Keeps this place if a key may start here. Outside brackets a key is required at the column of the
innermost block. -/
def saveKeyStart? (s : Scanner) : Option Scanner :=
  if s.keyAllowed then do
    let s ← s.dropKeyStart?
    let c := s.cursor
    let required := !s.flow && s.indent == c.column
    pure { s with keyStart := some ⟨s.tokens.size, c.index, c.line, c.column, required⟩ }
  else some s

/-- Closes the blocks that are further in than a column. -/
def unroll (s : Scanner) (column : Int) : Scanner :=
  if s.flow then s else close s s.outer
where
  /-- Closes blocks, `outer` being the columns around the innermost one. -/
  close (s : Scanner) : List Int → Scanner
    | [] => s
    | indent :: outer =>
      if column < s.indent then close { s.push .blockEnd with indent, outer } outer else s

/-- Opens a block at a column that is further in than the innermost one; its token goes before the
one of the given number. -/
def roll (s : Scanner) (column number : Nat) (token : Token) : Scanner :=
  if !s.flow && s.indent < column then
    { s with
      tokens := s.tokens.insertIdxIfInBounds number token
      indent := column
      outer := s.indent :: s.outer }
  else s

/-- Opens a block here. -/
def rollHere (s : Scanner) (token : Token) : Scanner :=
  s.roll s.cursor.column s.tokens.size token

/-- Takes a token of a number of characters. -/
def take (s : Scanner) (count : Nat) (token : Token) : Scanner :=
  { s.push token with cursor := s.cursor.skipCount count }

/-- Takes the marker of the start or the end of a document. -/
def marker? (s : Scanner) (token : Token) : Option Scanner := do
  let s ← (s.unroll (-1)).dropKeyStart?
  pure ({ s with keyAllowed := false }.take 3 token)

def directive? (s : Scanner) : Option Scanner := do
  let s ← (s.unroll (-1)).dropKeyStart?
  let (token, cursor) ← Yaml.directive? s.cursor
  pure { s.push token with cursor, keyAllowed := false }

/-- Takes an opening bracket. -/
def open? (s : Scanner) (token : Token) : Option Scanner := do
  let s ← s.saveKeyStart?
  pure ({ s with
    keyStarts := s.keyStart :: s.keyStarts, keyStart := none, keyAllowed := true }.take 1 token)

/-- Takes a closing bracket. -/
def close? (s : Scanner) (token : Token) : Option Scanner := do
  let s ← s.dropKeyStart?
  let s := match s.keyStarts with
    | [] => s
    | start :: rest => { s with keyStart := start, keyStarts := rest }
  pure ({ s with keyAllowed := false }.take 1 token)

def comma? (s : Scanner) : Option Scanner := do
  let s ← s.dropKeyStart?
  pure ({ s with keyAllowed := true }.take 1 .comma)

/-- Takes a dash before an item. -/
def item? (s : Scanner) : Option Scanner := do
  if !s.flow && !s.keyAllowed then none
  else
    let s ← (s.rollHere .blockSequence).dropKeyStart?
    pure ({ s with keyAllowed := true }.take 1 .item)

/-- Takes the mark before a key. -/
def key? (s : Scanner) : Option Scanner := do
  if !s.flow && !s.keyAllowed then none
  else
    let s ← (s.rollHere .blockMapping).dropKeyStart?
    pure ({ s with keyAllowed := !s.flow }.take 1 .key)

/-- Takes a colon. If a key may have started before it, it has. -/
def value? (s : Scanner) : Option Scanner :=
  match s.keyStart with
  | some start =>
    let s := { s with
      tokens := s.tokens.insertIdxIfInBounds start.token .key
      keyStart := none
      keyAllowed := false }
    some ((s.roll start.column start.token .blockMapping).take 1 .value)
  | none =>
    if !s.flow && !s.keyAllowed then none
    else some ({ s.rollHere .blockMapping with keyAllowed := !s.flow }.take 1 .value)

/-- Takes a token that may start a key, with the cursor after it. -/
def startsKey? (s : Scanner) (read? : Cursor → Option (Token × Cursor)) : Option Scanner := do
  let s ← s.saveKeyStart?
  let (token, cursor) ← read? s.cursor
  pure { s.push token with cursor, keyAllowed := false }

def plain? (s : Scanner) : Option Scanner := do
  let s ← s.saveKeyStart?
  let (text, broken, cursor) ← Yaml.plain? s.flow (s.indent + 1) s.cursor
  pure { s.push (.text text true) with cursor, keyAllowed := broken }

def quoted? (s : Scanner) (quote : Char) : Option Scanner :=
  s.startsKey? fun c => (Yaml.quoted? quote c).map fun (text, c) => (.text text false, c)

def block? (s : Scanner) (folded : Bool) : Option Scanner := do
  let s ← s.dropKeyStart?
  let (text, cursor) ← Yaml.block? folded s.indent s.cursor
  pure { s.push (.text text false) with cursor, keyAllowed := true }

/-- Whether a plain text may start with the character, whatever follows. -/
def startsPlain (c : Char) : Bool :=
  !isGap c && !"-?:,[]\x7b\x7d#&*!|>'\"%@\x60".toList.contains c

/-- Takes the token that is next, where `c` is the first character and `gap` says whether a gap
follows it. -/
def token? (s : Scanner) (c : Char) (gap : Bool) : Option Scanner :=
  let loose := s.flow || gap
  if s.cursor.column = 0 ∧ c = '%' then s.directive?
  else if s.cursor.atMarker "---" then s.marker? .documentStart
  else if s.cursor.atMarker "..." then s.marker? .documentEnd
  else if c = '[' then s.open? .openSequence
  else if c = '\x7b' then s.open? .openMapping
  else if c = ']' then s.close? .closeSequence
  else if c = '\x7d' then s.close? .closeMapping
  else if c = ',' then s.comma?
  else if c = '-' ∧ gap then s.item?
  else if c = '?' ∧ loose then s.key?
  else if c = ':' ∧ loose then s.value?
  else if c = '*' then s.startsKey? fun c => (name? c.skip).map fun (n, c) => (.alias n, c)
  else if c = '&' then s.startsKey? fun c => (name? c.skip).map fun (n, c) => (.anchor n, c)
  else if c = '!' then s.startsKey? (tag? s.flow)
  else if c = '|' ∧ !s.flow then s.block? false
  else if c = '>' ∧ !s.flow then s.block? true
  else if c = '\'' ∨ c = '"' then s.quoted? c
  else if startsPlain c ∨ c = '-' ∨ (!s.flow ∧ (c = '?' ∨ c = ':')) then s.plain?
  else none

/-- Takes the next token, or answers none inside at the end of the text. -/
def step? (s : Scanner) : Option (Scanner × Bool) := do
  let s ← (toToken (s.cursor.rest.length + 1) s).dropStale?
  let s := s.unroll s.cursor.column
  match s.cursor.rest with
  | [] => do pure (← (s.unroll (-1)).dropKeyStart?, true)
  | c :: rest => do pure (← s.token? c (gapNext rest), false)

/-- Takes all tokens. -/
def run? : Nat → Scanner → Option Scanner
  | 0, _ => none
  | fuel + 1, s => do
    let (s, finished) ← s.step?
    if finished then pure s else run? fuel s

end Scanner

/-- The tokens of a text. -/
def tokens? (text : List Char) : Option (Array Token) :=
  if text.all isAllowed then
    let text := unifyBreaks text
    (Scanner.run? (text.length + 1) { cursor := { rest := text } }).map (·.tokens)
  else none

end Trellis.Yaml
