import Trellis.Document.Datum

/-!
# Numbers and dates of TOML

A number, a date or a time is one word of letters, digits and signs; only between a date and a time
there may be a blank. Underscores may stand between two digits.

* `Toml.integer?` — integers of 64 bits in four bases.
* `Toml.real?` — floating-point numbers. One beyond all floats is refused if it is positive.
* `Toml.isMoment` — dates, times, and both together, as a word of a document.
* `Toml.isMomentText` — the same as a text of their own.
-/

namespace Trellis.Toml

open Text

/-- Whether the character can belong to a number, a date or a time. -/
def isWordChar (c : Char) : Bool :=
  c.isAlphanum || c == '_' || c == '+' || c == '-' || c == '.' || c == ':'

/-- The digits of a run of digits in which single underscores may stand between two of them. -/
def digits? (base : Nat) : List Char → Option (List Char)
  | [] => none
  | [c] => (digit? base c).map fun _ => [c]
  | c :: '_' :: rest => do
    let _ ← digit? base c
    pure (c :: (← digits? base rest))
  | c :: rest => do
    let _ ← digit? base c
    pure (c :: (← digits? base rest))

/-- The sign and what follows it. -/
def splitSign : List Char → Bool × List Char
  | '-' :: rest => (true, rest)
  | '+' :: rest => (false, rest)
  | s => (false, s)

/-- The digits of a whole number, which starts with zero only if it is zero. -/
def wholeDigits? (s : List Char) : Option (List Char) :=
  (digits? 10 s).filter fun digits => digits.length = 1 || digits.head? ≠ some '0'

/-- Reads an integer of 64 bits. -/
def integer? (s : List Char) : Option Int :=
  let value : Option Int := match s with
    | '0' :: 'x' :: s => (digits? 16 s).map fun ds => (ofDigits 16 ds : Int)
    | '0' :: 'o' :: s => (digits? 8 s).map fun ds => (ofDigits 8 ds : Int)
    | '0' :: 'b' :: s => (digits? 2 s).map fun ds => (ofDigits 2 ds : Int)
    | s =>
      let (negative, s) := splitSign s
      (wholeDigits? s).map fun ds =>
        let n : Int := ofDigits 10 ds
        if negative then -n else n
  value.filter Integer.fits

/-- The number as it is written without underscores, if underscores, point and exponent stand where
they may. -/
def plainReal? (s : List Char) : Option (List Char) := do
  let isMark (c : Char) : Bool := c == '.' || c == 'e' || c == 'E'
  let whole ← wholeDigits? (s.takeWhile fun c => !isMark c)
  match s.dropWhile fun c => !isMark c with
  | '.' :: rest =>
    let fraction ← digits? 10 (rest.takeWhile fun c => !isMark c)
    let exponent ← exponent? (rest.dropWhile fun c => !isMark c)
    pure (whole ++ '.' :: fraction ++ exponent)
  | [] => none
  | rest => do pure (whole ++ (← exponent? rest))
where
  /-- An exponent that fills the text, or nothing. -/
  exponent? : List Char → Option (List Char)
    | [] => some []
    | '.' :: _ => none
    | _ :: rest => do
      let (negative, digits) := splitSign rest
      pure ('e' :: (if negative then ['-'] else []) ++ (← digits? 10 digits))

/-- Reads a floating-point number without its sign. -/
def unsignedReal? (s : List Char) : Option Float :=
  match String.ofList s with
  | "inf" => some (1.0 / 0.0)
  | "nan" => some (0.0 / 0.0)
  | _ => (plainReal? s).bind Real.readDecimal?

/-- Reads a floating-point number. -/
def real? (s : List Char) : Option Float := do
  let (negative, digits) := splitSign s
  let x ← unsignedReal? digits
  if negative then some (-x)
  else if x.isInf ∧ String.ofList digits ≠ "inf" then none
  else some x

/-! ## Dates and times -/

/-- A number of the given count of digits, with what follows it. -/
def fixed? (count : Nat) (s : List Char) : Option (Nat × List Char) :=
  let digits := s.take count
  if digits.length = count ∧ digits.all isDigit then some (ofDigits 10 digits, s.drop count)
  else none

/-- Over a number of two digits between two limits. -/
def two? (low high : Nat) (s : List Char) : Option (Nat × List Char) :=
  (fixed? 2 s).filter fun found => low ≤ found.1 && found.1 ≤ high

/-- Over a character. -/
def over? (c : Char) : List Char → Option (List Char)
  | [] => none
  | d :: rest => if d = c then some rest else none

/-- The number of days of a month. -/
def daysOf (year month : Nat) : Nat :=
  match month with
  | 2 => if year % 4 = 0 ∧ (year % 100 ≠ 0 ∨ year % 400 = 0) then 29 else 28
  | 4 | 6 | 9 | 11 => 30
  | _ => 31

/-- Over a date. -/
def date? (s : List Char) : Option (List Char) := do
  let (year, s) ← fixed? 4 s
  let (month, s) ← two? 1 12 (← over? '-' s)
  let (_, s) ← two? 1 (daysOf year month) (← over? '-' s)
  pure s

/-- Over hours and minutes. -/
def clock? (lastHour : Nat) (s : List Char) : Option (List Char) := do
  let (_, s) ← two? 0 lastHour s
  let (_, s) ← two? 0 59 (← over? ':' s)
  pure s

/-- Over a time, with a fraction of a second if there is one. -/
def time? (lastHour : Nat) (s : List Char) : Option (List Char) := do
  let (_, s) ← two? 0 60 (← over? ':' (← clock? lastHour s))
  match s with
  | '.' :: rest =>
    if (rest.takeWhile isDigit).isEmpty then none else some (rest.dropWhile isDigit)
  | s => some s

/-- Whether the text is the distance of a local time from universal time, or empty. -/
def isZone : List Char → Bool
  | [] | ['Z'] | ['z'] => true
  | '+' :: s | '-' :: s => clock? 23 s = some []
  | _ => false

/-- Whether the text is a time that may follow a date. -/
def isZonedTime (s : List Char) : Bool := (time? 23 s).any isZone

/-- Whether the word is a date, a time, or both with a `T` in between. -/
def isMoment (s : List Char) : Bool :=
  match date? s with
  | some [] => true
  | some (c :: rest) => (c == 'T' || c == 't') && isZonedTime rest
  | none => time? 23 s = some []

/-- Whether the text is a distance of at most a day from universal time, or empty. -/
def isWideZone : List Char → Bool
  | [] | ['Z'] | ['z'] => true
  | '+' :: s | '-' :: s =>
    (do
      let (hours, s) ← two? 0 99 s
      let (minutes, s) ← two? 0 99 (← over? ':' s)
      pure (hours * 60 + minutes ≤ 24 * 60 && s.isEmpty) : Option Bool) = some true
  | _ => false

/-- Whether the text is a date, a time, or both with a `T` or a blank in between. The hour may be
24. -/
def isMomentText (s : List Char) : Bool :=
  if s[2]? = some ':' then time? 24 s = some []
  else match date? s with
    | some [] => true
    | some (c :: rest) => (c == 'T' || c == 't' || c == ' ') && (time? 24 rest).any isWideZone
    | none => false

end Trellis.Toml
