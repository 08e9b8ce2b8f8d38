import Trellis.Document.Toml.Blank

/-!
# Quoted texts of TOML

A text stands between quotation marks or apostrophes, one of them or three. Three may enclose
several lines, and the first line end directly after them does not count; one or two more of them
directly before the closing three belong to the text. Escapes are known between quotation marks
only.

* `Toml.quoted?` — reads a text with its quotes.
-/

namespace Trellis.Toml

open Text

/-- What is under way between two characters of a text. -/
inductive Quoting
  | plain
  /-- After a backslash. -/
  | escape
  /-- Over blanks and line ends after a backslash at the end of a line; the flag says whether a line
  end has been seen. -/
  | gap (seen : Bool)
  /-- Inside an escape by code, with the digits still to come and the value so far. -/
  | unit (toCome value : Nat)

/-- The character that an escape of one letter stands for. -/
def unescape? : Char → Option Char
  | 'b' => some '\x08'
  | 'f' => some '\x0c'
  | 'n' => some '\n'
  | 'r' => some '\r'
  | 't' => some '\t'
  | '"' => some '"'
  | '\\' => some '\\'
  | _ => none

/-- The character of a code, if there is one. -/
def charOf? (code : Nat) : Option Char :=
  if code.isValidChar then some (Char.ofNat code) else none

/-- The end of a text over several lines, `rest` being what follows its first closing quote: two
more quotes close it, and up to two further ones belong to the text before them. -/
def closing? (quote : Char) (rest : List Char) : Option (List Char × List Char) :=
  if (rest.take 2).all (· = quote) ∧ (rest.take 2).length = 2 then
    let after := rest.drop 2
    let extra := (after.takeWhile (· = quote)).take 2
    some (extra, after.drop extra.length)
  else none

/-- Reads a text after its opening quotes; `taken` is what has been read, in reverse. -/
def textFrom? (quote : Char) (lines : Bool) (state : Quoting) (taken : List Char) :
    List Char → Option (List Char × List Char)
  | [] => none
  | c :: rest =>
    let escapes := quote = '"'
    match state with
    | .escape =>
      if c = 'u' then textFrom? quote lines (.unit 4 0) taken rest
      else if c = 'U' then textFrom? quote lines (.unit 8 0) taken rest
      else if lines ∧ isBlank c then textFrom? quote lines (.gap false) taken rest
      else if lines ∧ c = '\n' then textFrom? quote lines (.gap true) taken rest
      else if lines ∧ c = '\r' ∧ rest.head? = some '\n' then
        textFrom? quote lines (.gap false) taken rest
      else match unescape? c with
        | some char => textFrom? quote lines .plain (char :: taken) rest
        | none => none
    | .unit toCome value =>
      match hexDigit? c with
      | none => none
      | some d =>
        let value := value * 16 + d
        if 1 < toCome then textFrom? quote lines (.unit (toCome - 1) value) taken rest
        else match charOf? value with
          | some char => textFrom? quote lines .plain (char :: taken) rest
          | none => none
    | .gap false =>
      if isBlank c then textFrom? quote lines (.gap false) taken rest
      else if c = '\n' then textFrom? quote lines (.gap true) taken rest
      else if c = '\r' ∧ rest.head? = some '\n' then textFrom? quote lines (.gap false) taken rest
      else none
    | _ =>
      let gap := match state with
        | .gap _ => true
        | _ => false
      if gap && (isBlank c || c = '\n') then textFrom? quote lines (.gap true) taken rest
      else if gap && c = '\r' && rest.head? = some '\n' then
        textFrom? quote lines (.gap true) taken rest
      else if c = quote then
        if lines then
          match closing? quote rest with
          | some (extra, after) => some (taken.reverse ++ extra, after)
          | none => textFrom? quote lines .plain (c :: taken) rest
        else some (taken.reverse, rest)
      else if escapes ∧ c = '\\' then textFrom? quote lines .escape taken rest
      else if lines ∧ c = '\n' then textFrom? quote lines .plain (c :: taken) rest
      else if lines ∧ c = '\r' ∧ rest.head? = some '\n' then
        textFrom? quote lines .plain taken rest
      else if isPlain c then textFrom? quote lines .plain (c :: taken) rest
      else none

/-- Reads a text with its quotes; `quote` is the opening one, which has been taken. -/
def quoted? (quote : Char) (lines : Bool) (rest : List Char) : Option (String × List Char) := do
  let (text, rest) ←
    if lines ∧ (rest.take 2).all (· = quote) ∧ (rest.take 2).length = 2 then
      let body := rest.drop 2
      textFrom? quote true .plain [] ((newline? body).getD body)
    else textFrom? quote false .plain [] rest
  pure (String.ofList text, rest)

end Trellis.Toml
