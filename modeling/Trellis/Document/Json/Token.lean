import Trellis.Document.Json.Number

/-!
# Tokens of JSON

A text is cut into tokens in one pass. What is under way when a character arrives decides what the
character means.

* `Json.Token.ofText?` — the tokens of a text, or none if it holds something that is no token.
-/

namespace Trellis.Json

/-- The parts a JSON text is made of. -/
inductive Token
  | openList | closeList | openMapping | closeMapping | comma | colon
  | text (s : String)
  /-- A value that is written without quotation marks or brackets. -/
  | plain (value : Datum)

/-- What is under way between two characters. Characters taken so far are kept in reverse. -/
inductive Lexing
  | between
  | word (taken : List Char)
  | number (taken : List Char)
  | text (taken : List Char)
  | escape (taken : List Char)
  /-- Inside `\u`, with the digits still to come and the value so far; `high` is the first half of a
  pair that this escape has to complete. -/
  | unit (high : Option Nat) (toCome value : Nat) (taken : List Char)
  /-- After the first half of a pair: a backslash has to follow, and after it a `u`. -/
  | pair (high : Nat) (slash : Bool) (taken : List Char)

/-- The value of a bare word. -/
def ofWord? (word : List Char) : Option Datum :=
  match String.ofList word with
  | "true" => some (.flag true)
  | "false" => some (.flag false)
  | "null" => some .null
  | _ => none

def isWhite (c : Char) : Bool := c = ' ' ∨ c = '\t' ∨ c = '\n' ∨ c = '\r'

def isNumeric (c : Char) : Bool :=
  Text.isDigit c ∨ c = '-' ∨ c = '+' ∨ c = '.' ∨ c = 'e' ∨ c = 'E'

/-- The character that a simple escape stands for. -/
def unescape? (c : Char) : Option Char :=
  match c with
  | '"' => some '"'
  | '\\' => some '\\'
  | '/' => some '/'
  | 'b' => some '\x08'
  | 'f' => some '\x0c'
  | 'n' => some '\n'
  | 'r' => some '\r'
  | 't' => some '\t'
  | _ => none

/-- What follows a complete `\u` escape of the given value. -/
def completeUnit? (high : Option Nat) (value : Nat) (taken : List Char) : Option Lexing :=
  let isHigh : Bool := 0xD800 ≤ value ∧ value ≤ 0xDBFF
  let isLow : Bool := 0xDC00 ≤ value ∧ value ≤ 0xDFFF
  match high with
  | some first =>
    if isLow then
      some (.text (Char.ofNat (0x10000 + (first - 0xD800) * 0x400 + (value - 0xDC00)) :: taken))
    else none
  | none =>
    if isHigh then some (.pair value false taken)
    else if isLow then none
    else some (.text (Char.ofNat value :: taken))

/-- The token that a character makes up or starts when none is under way. -/
def start? (c : Char) : Option (List Token × Lexing) :=
  match c with
  | '[' => some ([.openList], .between)
  | ']' => some ([.closeList], .between)
  | '{' => some ([.openMapping], .between)
  | '}' => some ([.closeMapping], .between)
  | ',' => some ([.comma], .between)
  | ':' => some ([.colon], .between)
  | '"' => some ([], .text [])
  | c =>
    if isWhite c then some ([], .between)
    else if c = '-' ∨ Text.isDigit c then some ([], .number [c])
    else if c.isLower then some ([], .word [c])
    else none

/-- The token that ends where a character that is no part of it arrives. -/
def finish? : Lexing → Option (List Token)
  | .between => some []
  | .word taken => (ofWord? taken.reverse).map fun v => [.plain v]
  | .number taken => (readNumber? taken.reverse).map fun v => [.plain v]
  | _ => none

/-- Takes one character. Answers the tokens it completes and what is under way then. -/
def lexChar? (state : Lexing) (c : Char) : Option (List Token × Lexing) :=
  match state with
  | .word taken =>
    if c.isLower then some ([], .word (c :: taken)) else afterToken
  | .number taken =>
    if isNumeric c then some ([], .number (c :: taken)) else afterToken
  | .between => start? c
  | .text taken =>
    if c = '"' then some ([.text (String.ofList taken.reverse)], .between)
    else if c = '\\' then some ([], .escape taken)
    else if c.toNat < 32 then none
    else some ([], .text (c :: taken))
  | .escape taken =>
    if c = 'u' then some ([], .unit none 4 0 taken)
    else (unescape? c).map fun d => ([], .text (d :: taken))
  | .unit high toCome value taken => do
    let value := value * 16 + (← Text.hexDigit? c)
    if toCome ≤ 1 then (completeUnit? high value taken).map ([], ·)
    else some ([], .unit high (toCome - 1) value taken)
  | .pair high slash taken =>
    if slash ∧ c = 'u' then some ([], .unit (some high) 4 0 taken)
    else if !slash ∧ c = '\\' then some ([], .pair high true taken)
    else none
where
  /-- The token under way ends before this character, which then stands for itself. -/
  afterToken : Option (List Token × Lexing) := do
    let done ← finish? state
    let (more, next) ← start? c
    pure (done ++ more, next)

/-- Takes one character, the tokens so far being kept in reverse. -/
def lexStep? (before : List Token × Lexing) (c : Char) : Option (List Token × Lexing) := do
  let (tokens, next) ← lexChar? before.2 c
  pure (tokens.reverse ++ before.1, next)

/-- The tokens of a text. -/
def Token.ofText? (s : List Char) : Option (List Token) := do
  let (tokens, last) ← s.foldlM lexStep? ([], .between)
  pure (tokens.reverse ++ (← finish? last))

end Trellis.Json
