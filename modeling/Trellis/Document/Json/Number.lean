import Trellis.Document.Datum

/-!
# Numbers of JSON documents

A number without point and exponent is an integer if it has 64 bits, signed or unsigned. Any other
number is read in two roundings: its leading digits, as many as an unsigned integer of 64 bits
holds, become a float, which is then multiplied or divided by a power of ten. A number beyond the
floats is refused.

* `Json.readNumber?` — reads a number that fills the text.
-/

namespace Trellis.Json

open Text

/-- The largest unsigned integer of 64 bits. -/
def wordMax : Nat := 18446744073709551615

/-- The nearest float of a power of ten. -/
def powerOfTen (n : Nat) : Float := Float.ofScientific 1 false n

/-- Divides by powers of ten until the exponent, which is negative, is used up. -/
def scaleDown (x : Float) (e : Nat) : Float :=
  if e ≤ 308 then x / powerOfTen e
  else if x == 0 then x
  else scaleDown (x / powerOfTen 308) (e - 308)
termination_by e

/-- The float `significand · 10^e`, unless it is beyond all floats. -/
def scale? (significand : Nat) (e : Int) : Option Float :=
  let x := Float.ofNat significand
  match e with
  | .ofNat n =>
    if n ≤ 308 then
      let y := x * powerOfTen n
      if y.isInf then none else some y
    else if significand = 0 then some x else none
  | .negSucc n => some (scaleDown x (n + 1))

/-- Appends digits to a significand as long as it stays within 64 bits. Answers it with the number
of digits taken and of those left over. -/
def takeDigits (significand : Nat) : List Char → Nat × Nat × Nat
  | [] => (significand, 0, 0)
  | c :: rest =>
    let next := significand * 10 + (hexDigit? c).getD 0
    if next ≤ wordMax then
      let (final, taken, left) := takeDigits next rest
      (final, taken + 1, left)
    else (significand, 0, rest.length + 1)

/-- Splits an exponent off the text after the digits; it must fill that text. -/
def readExponent? (s : List Char) : Option (Option Int) :=
  match s with
  | [] => some none
  | _ => (Real.readExponent? s).map some

/-- The digits before and after the point, and the exponent, of a number without its sign. -/
def split? (s : List Char) : Option (List Char × Option (List Char) × Option Int) := do
  let whole := s.takeWhile isDigit
  if whole.isEmpty ∨ (whole.head? = some '0' ∧ 1 < whole.length) then none
  match s.dropWhile isDigit with
  | '.' :: after =>
    let fraction := after.takeWhile isDigit
    if fraction.isEmpty then none
    else pure (whole, some fraction, ← readExponent? (after.dropWhile isDigit))
  | rest => pure (whole, none, ← readExponent? rest)

/-- Reads a number that fills the text. -/
def readNumber? (s : List Char) : Option Datum := do
  let negative := s.head? = some '-'
  let sign (x : Float) : Datum := .real (if negative then -x else x)
  let (whole, fraction, exponent) ← split? (if negative then s.tail else s)
  let (significand, _, left) := takeDigits 0 whole
  match fraction, exponent with
  | none, none =>
    if 0 < left then (scale? significand left).map sign
    else if !negative then some (.int significand)
    else if significand = 0 ∨ 9223372036854775808 < significand then
      some (sign (Float.ofNat significand))
    else some (.int (-significand))
  | _, _ =>
    let (significand, taken, _) := takeDigits significand (fraction.getD [])
    (scale? significand ((left : Int) - taken + exponent.getD 0)).map sign

end Trellis.Json
