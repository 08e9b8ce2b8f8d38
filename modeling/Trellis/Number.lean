/-!
# Numbers that geometry is computed in

Layout and drawing are written against one class of numbers, so that the same definitions run on
`Float` and can be read with exact arithmetic. The class asks for operations only; whoever reasons
about a layout brings the laws.

* `Number α` — the operations a layout may use.
* `Number.unit` — a number kept between zero and one.
* `nearestSingle` — double precision rounded to single precision.
* `ofSingle` — single precision, in double precision again.
-/

namespace Trellis

/-- The arithmetic of lengths, positions and colour channels. `max` and `min` prefer the operand
that is a number when the other one is not. -/
class Number (α : Type) extends Add α, Sub α, Mul α, Div α, LT α, LE α where
  decideLt : DecidableLT α
  decideLe : DecidableLE α
  /-- A whole number. -/
  natural : Nat → α
  /-- The decimal fraction `m · 10^e`, or `m · 10^(-e)` if the flag is set. -/
  decimal : Nat → Bool → Nat → α
  /-- A length without bound. -/
  infinity : α
  isFinite : α → Bool
  max : α → α → α
  min : α → α → α
  /-- The nearest number of single precision. -/
  single : α → α
  /-- The nearest whole number of a value between 0 and 255, a half going up. -/
  byte : α → Nat

namespace Number

variable {α : Type} [Number α]

instance : DecidableLT α := Number.decideLt
instance : DecidableLE α := Number.decideLe

instance (priority := low) (n : Nat) : OfNat α n := ⟨Number.natural n⟩
instance (priority := low) : OfScientific α := ⟨Number.decimal⟩

/-- The number moved to the nearest end of the range from zero to one if it lies outside. -/
def unit (x : α) : α :=
  if x < 0 then 0 else if 1 < x then 1 else x

/-- The sum of two numbers of single precision, rounded to single precision. -/
def addSingle (x y : α) : α := single (x + y)

end Number

open Float.Model UnpackedFloat in
/-- A number of single precision, in double precision. -/
def ofSingle : UnpackedFloat → Float
  | .finite sign mantissa exponent _ => .ofModel (.pack (round .binary64 sign mantissa exponent))
  | x => .ofModel (.pack x)

open Float.Model UnpackedFloat in
/-- The nearest number of single precision, in double precision. What single precision has no room
for becomes an infinity. -/
def nearestSingle (x : Float) : Float :=
  match x.toModel.unpack with
  | .finite sign mantissa exponent _ =>
    ofSingle (unpack .binary32 (pack .binary32 (round .binary32 sign mantissa exponent)))
  | _ => x

/-- Double precision. Adding two singles in double precision and rounding once gives the nearest
single, so `addSingle` is the addition of single precision. -/
instance : Number Float where
  decideLt := inferInstance
  decideLe := inferInstance
  natural := Float.ofNat
  decimal := Float.ofScientific
  infinity := 1.0 / 0.0
  isFinite := Float.isFinite
  max x y := if x.isNaN then y else if y.isNaN then x else if x < y then y else x
  min x y := if x.isNaN then y else if y.isNaN then x else if y < x then y else x
  single := nearestSingle
  byte x := x.round.toUInt8.toNat

end Trellis
