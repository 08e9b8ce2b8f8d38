import Trellis.Text.Blank
import Trellis.Text.Digit

/-!
# Reading numbers

Integers of 64 bits and floating-point numbers as they are spelled in texts.

* `Integer.read` — an optional sign and decimal digits, within 64 bits; the first fault from the
  left is the error.
* `Real.read?` — an optional sign, then `inf`, `infinity` or `nan` in any case, or decimal digits
  with an optional point and exponent, correctly rounded.
* `Real.truncate` — the integer part, kept within 64 bits.
-/

namespace Trellis.Text

namespace Integer

def least : Int := -9223372036854775808
def greatest : Int := 9223372036854775807

/-- Whether the integer has 64 bits. -/
def fits (n : Int) : Bool := least ≤ n && n ≤ greatest

/-- Why a text spells no integer of 64 bits. -/
inductive Fault
  | empty | invalidDigit | tooLarge | tooSmall
  deriving DecidableEq

namespace Fault

def message : Fault → String
  | .empty => "cannot parse integer from empty string"
  | .invalidDigit => "invalid digit found in string"
  | .tooLarge => "number too large to fit in target type"
  | .tooSmall => "number too small to fit in target type"

end Fault

/-- Reads the digits that follow `n`, with the sign it has. -/
def readDigits (negative : Bool) : Int → List Char → Except Fault Int
  | n, [] => .ok n
  | n, c :: rest =>
    if isDigit c then
      let d : Int := c.toNat - '0'.toNat
      let next := if negative then n * 10 - d else n * 10 + d
      if next < least then .error .tooSmall
      else if greatest < next then .error .tooLarge
      else readDigits negative next rest
    else .error .invalidDigit

/-- Reads an integer of 64 bits. -/
def read : List Char → Except Fault Int
  | [] => .error .empty
  | ['+'] | ['-'] => .error .invalidDigit
  | '-' :: digits => readDigits true 0 digits
  | '+' :: digits => readDigits false 0 digits
  | digits => readDigits false 0 digits

end Integer

namespace Real

/-- A decimal fraction `m · 10^e`, rounded to the nearest float. -/
def ofDecimal (m : Nat) : Int → Float
  | .ofNat n => Float.ofScientific m false n
  | .negSucc n => Float.ofScientific m true (n + 1)

/-- Why a text spells no floating-point number. -/
inductive Fault
  | empty | invalid
  deriving DecidableEq

def Fault.message : Fault → String
  | .empty => "cannot parse float from empty string"
  | .invalid => "invalid float literal"

/-- Reads an exponent that fills the whole text: nothing, or `e` with an integer. -/
def readExponent? : List Char → Option Int
  | [] => some 0
  | c :: rest =>
    if c = 'e' ∨ c = 'E' then
      let (negative, digits) := match rest with
        | '-' :: digits => (true, digits)
        | '+' :: digits => (false, digits)
        | digits => (false, digits)
      if digits.isEmpty ∨ ¬ digits.all isDigit then none
      else
        let n : Int := ofDigits 10 digits
        some (if negative then -n else n)
    else none

/-- Reads decimal digits with an optional point and exponent. -/
def readDecimal? (s : List Char) : Option Float :=
  let whole := s.takeWhile isDigit
  let rest := s.dropWhile isDigit
  let (fraction, rest) := match rest with
    | '.' :: after => (after.takeWhile isDigit, after.dropWhile isDigit)
    | rest => ([], rest)
  if whole.isEmpty ∧ fraction.isEmpty then none
  else (readExponent? rest).map fun e => ofDecimal (ofDigits 10 (whole ++ fraction)) (e - fraction.length)

/-- Reads a number without its sign. -/
def readUnsigned? (s : List Char) : Option Float :=
  match String.ofList (s.map Char.toLower) with
  | "inf" | "infinity" => some (1.0 / 0.0)
  | "nan" => some (0.0 / 0.0)
  | _ => readDecimal? s

/-- Reads a floating-point number. -/
def read? : List Char → Option Float
  | '-' :: s => (readUnsigned? s).map fun x => -x
  | '+' :: s => readUnsigned? s
  | s => readUnsigned? s

/-- Reads a floating-point number, with the reason if there is none. -/
def read (s : List Char) : Except Fault Float :=
  if s.isEmpty then .error .empty
  else match read? s with
    | some x => .ok x
    | none => .error .invalid

/-- The integer part, moved to the nearest integer of 64 bits if it has more; zero for a value that
is no number. -/
def truncate (x : Float) : Int := x.toModel.toInt64.toInt

end Real

end Trellis.Text
