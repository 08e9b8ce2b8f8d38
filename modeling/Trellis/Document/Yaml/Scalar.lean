import Trellis.Document.Yaml.Cursor

/-!
# Texts of YAML

* `Yaml.plain?` — a text without quotes.
* `Yaml.quoted?` — a text in apostrophes or quotation marks.
* `Yaml.block?` — a text in lines of its own, kept as they are or folded.
-/

namespace Trellis.Yaml

open Text

/-! ## Plain texts -/

/-- Whether the character ends a plain text inside brackets. -/
def isFlowMark (c : Char) : Bool := c ∈ [',', '[', ']', '\x7b', '\x7d']

/-- The characters of a plain text up to the next gap or the end of the text. A colon ends it before
a gap, and is a fault inside brackets before a mark. -/
def chunk? (flow : Bool) : List Char → Option (List Char)
  | [] => some []
  | c :: rest =>
    if isGap c then some []
    else if c = ':' ∧ flow ∧ rest.head?.any fun d => isFlowMark d || d == '?' then none
    else if c = ':' ∧ gapNext rest then some []
    else if flow ∧ isFlowMark c then some []
    else (chunk? flow rest).map (c :: ·)

/-- Whether a tab stands in the indentation of a line, in a gap that starts at a column. -/
def hasTab (indent : Int) (broken : Bool) (column : Nat) : List Char → Bool
  | [] => false
  | c :: rest =>
    if isBreak c then hasTab indent true 0 rest
    else (broken && (column : Int) < indent && c == '\t') || hasTab indent broken (column + 1) rest

/-- Continues a plain text, which is `text` in reverse so far, after `gap`, which counts only if
more text follows. Answers whether the text ends with a line break before the cursor. -/
def plainFrom? (flow : Bool) (indent : Int) :
    Nat → List Char → List Char → Cursor → Option (String × Bool × Cursor)
  | 0, _, _, _ => none
  | fuel + 1, text, gap, c => do
    let finished (text gap : List Char) (c : Cursor) : Option (String × Bool × Cursor) :=
      some (String.ofList text.reverse, gap.any isBreak, c)
    if c.atDocumentMarker ∨ c.head? = some '#' then finished text gap c
    else
      let chunk ← chunk? flow c.rest
      let c := c.skipCount chunk.length
      if chunk.isEmpty then finished text gap c
      else
        let text := chunk.reverse ++ ((fold gap).reverse ++ text)
        let gap := c.rest.takeWhile isGap
        if gap.isEmpty then finished text [] c
        else if hasTab indent false c.column gap then none
        else
          let c := c.skipCount gap.length
          if !flow && (c.column : Int) < indent then finished text gap c
          else plainFrom? flow indent fuel text gap c

/-- Reads a plain text; lines after the first one stand at column `indent` or further. -/
def plain? (flow : Bool) (indent : Int) (c : Cursor) : Option (String × Bool × Cursor) :=
  plainFrom? flow indent (c.rest.length + 1) [] [] c

/-! ## Quoted texts -/

/-- The character that an escape of one letter stands for. -/
def unescape? : Char → Option Char
  | '0' => some '\x00'
  | 'a' => some '\x07'
  | 'b' => some '\x08'
  | 't' | '\t' => some '\t'
  | 'n' => some '\n'
  | 'v' => some '\x0b'
  | 'f' => some '\x0c'
  | 'r' => some '\r'
  | 'e' => some '\x1b'
  | ' ' => some ' '
  | '"' => some '"'
  | '/' => some '/'
  | '\\' => some '\\'
  | 'N' => some '\x85'
  | '_' => some '\xa0'
  | 'L' => some '\u2028'
  | 'P' => some '\u2029'
  | _ => none

/-- The number of digits of an escape by code. -/
def codeLength? : Char → Option Nat
  | 'x' => some 2
  | 'u' => some 4
  | 'U' => some 8
  | _ => none

/-- The character whose code the given number of hexadecimal digits spell. -/
def codeChar? (count : Nat) (s : List Char) : Option Char :=
  let digits := s.take count
  let code := ofDigits 16 digits
  if digits.length = count ∧ digits.all isHexDigit ∧ code.isValidChar then some (Char.ofNat code)
  else none

/-- Continues a quoted text; `text` is what has been read, in reverse. -/
def quotedFrom? (quote : Char) : Nat → List Char → Cursor → Option (String × Cursor)
  | 0, _, _ => none
  | fuel + 1, text, c =>
    match c.rest with
    | [] => none
    | char :: rest =>
      if c.atDocumentMarker then none
      else if isGap char then
        let gap := c.rest.takeWhile isGap
        quotedFrom? quote fuel ((fold gap).reverse ++ text) (c.skipCount gap.length)
      else if char = quote then
        if quote = '\'' ∧ rest.head? = some quote then
          quotedFrom? quote fuel (quote :: text) c.skip.skip
        else some (String.ofList text.reverse, c.skip)
      else if quote = '"' ∧ char = '\\' then
        match rest with
        | [] => none
        | letter :: after =>
          if isBreak letter then
            let gap := after.takeWhile isGap
            quotedFrom? quote fuel ((gap.filter isBreak).reverse ++ text)
              (c.skip.skip.skipCount gap.length)
          else match codeLength? letter with
            | some n => do
              let code ← codeChar? n after
              quotedFrom? quote fuel (code :: text) (c.skip.skip.skipCount n)
            | none => do
              quotedFrom? quote fuel ((← unescape? letter) :: text) c.skip.skip
      else quotedFrom? quote fuel (char :: text) c.skip

/-- Reads a text with its quotes. -/
def quoted? (quote : Char) (c : Cursor) : Option (String × Cursor) :=
  quotedFrom? quote (c.rest.length + 1) [] c.skip

/-! ## Blocks -/

/-- What happens to the line breaks at the end of a block. -/
inductive Chomp
  | strip | clip | keep
  deriving DecidableEq

/-- What the first line of a block says: how its end is treated, and how far its lines are
indented. -/
structure BlockHeader where
  chomp : Chomp := .clip
  increment : Nat := 0

/-- The sign of a first line, and what follows. -/
def chomp? : List Char → Option Chomp
  | '+' :: _ => some .keep
  | '-' :: _ => some .strip
  | _ => none

/-- The indentation of a first line: zero is a fault, and none is zero. -/
def increment? (s : List Char) : Option Nat :=
  match s.head?.bind (digit? 10) with
  | none => some 0
  | some 0 => none
  | some n => some n

/-- Reads the first line of a block after its mark. -/
def header? (c : Cursor) : Option (BlockHeader × Cursor) := do
  let past (found : Bool) (c : Cursor) : Cursor := if found then c.skip else c
  match chomp? c.rest with
  | some chomp =>
    let c := c.skip
    let increment ← increment? c.rest
    let c ← (past (increment ≠ 0) c).toLineEnd?
    pure ({ chomp, increment }, c.skip)
  | none =>
    let increment ← increment? c.rest
    let c := past (increment ≠ 0) c
    let chomp := if increment = 0 then none else chomp? c.rest
    let c ← (past chomp.isSome c).toLineEnd?
    pure ({ chomp := chomp.getD .clip, increment }, c.skip)

/-- Goes over indentation and empty lines. The indentation, if it is still zero, is found as the
most there is, but at least `least`. Answers it with the line breaks. -/
def breaks? (least : Nat) : Nat → Nat → Nat → List Char → Cursor →
    Option (Nat × List Char × Cursor)
  | 0, _, _, _, _ => none
  | fuel + 1, indent, most, breaks, c =>
    let spaces := (c.rest.takeWhile (· == ' ')).length
    let c := c.skipCount (if indent = 0 then spaces else min spaces (indent - c.column))
    let most := max most c.column
    match c.head? with
    | some '\t' =>
      if indent = 0 ∨ c.column < indent then none else some (indent, breaks, c)
    | some char =>
      if isBreak char then breaks? least fuel indent most (breaks ++ [char]) c.skip
      else some (if indent = 0 then max most least else indent, breaks, c)
    | none => some (if indent = 0 then max most least else indent, breaks, c)

/-- What comes between two lines of a block: the line break, or a space for it, and the breaks of the
empty lines after it. -/
def between (folded : Bool) (lead : List Char) (spaced : Bool) (breaks : List Char) : List Char :=
  if folded && lead == ['\n'] && !spaced then (if breaks.isEmpty then [' '] else breaks)
  else lead ++ breaks

/-- Continues a block, which is `text` in reverse so far, line by line. `lead` is the break of the
line before, `spaced` whether that line starts with a blank, and `breaks` those of empty lines after
it. -/
def linesFrom? (folded : Bool) (chomp : Chomp) (indent : Nat) :
    Nat → List Char → List Char → Bool → List Char → Cursor → Option (String × Cursor)
  | 0, _, _, _, _, _ => none
  | fuel + 1, text, lead, spaced, breaks, c =>
    if c.column = indent ∧ !c.rest.isEmpty then do
      let starts := c.head?.any isBlank
      let line := c.rest.takeWhile (!isBreak ·)
      let text := line.reverse ++ ((between folded lead (spaced || starts) breaks).reverse ++ text)
      let c := c.skipCount line.length
      let (_, breaks, after) ← breaks? 0 (c.rest.length + 1) indent 0 [] c.skip
      linesFrom? folded chomp indent fuel text c.head?.toList starts breaks after
    else
      let final := match chomp with
        | .strip => text
        | .clip => lead.reverse ++ text
        | .keep => breaks.reverse ++ (lead.reverse ++ text)
      some (String.ofList final.reverse, c)

/-- Reads a block with its mark; `parent` is the indentation of what it belongs to. -/
def block? (folded : Bool) (parent : Int) (c : Cursor) : Option (String × Cursor) := do
  let (header, c) ← header? c.skip
  let fuel := c.rest.length + 1
  let indent := if header.increment = 0 then 0 else parent.toNat + header.increment
  let least := max (parent + 1).toNat 1
  let (indent, breaks, c) ← breaks? least fuel indent 0 [] c
  linesFrom? folded header.chomp indent fuel [] [] false breaks c

end Trellis.Yaml
