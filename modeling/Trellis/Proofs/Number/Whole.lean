import Trellis.Proofs.Number.Double
import Trellis.Text.Numeral

/-!
# Whole numbers

What is left of a number of double precision that is made an integer of 64 bits.

* `integerPart` — a rational number without its fraction.
* `Exact.toInteger` — the integer part of an exact number, kept between two ends.
* `Exact.truncate_eq` — how a number of double precision is made an integer.
-/

namespace Trellis

open Float.Model hiding pack unpack
open UnpackedFloat Binary

/-! ## Integer parts -/

/-- A rational number without its fraction, which is cut off towards zero. -/
def integerPart (q : ℚ) : ℤ := if 0 ≤ q then ⌊q⌋ else ⌈q⌉

variable {q : ℚ} {n : ℤ}

@[simp] theorem integerPart_intCast (n : ℤ) : integerPart n = n := by
  unfold integerPart
  split
  · exact Int.floor_intCast n
  · exact Int.ceil_intCast n

theorem integerPart_of_nonneg (h : 0 ≤ q) : integerPart q = ⌊q⌋ := if_pos h

theorem integerPart_neg (q : ℚ) : integerPart (-q) = -integerPart q := by
  unfold integerPart
  rcases lt_trichotomy q 0 with hneg | rfl | hpos
  · rw [if_pos (by linarith), if_neg hneg.not_ge, Int.floor_neg]
  · simp
  · rw [if_neg (by linarith), if_pos hpos.le, Int.ceil_neg]

/-- A larger number has no smaller integer part. -/
theorem le_integerPart (h : n ≤ q) : n ≤ integerPart q := by
  unfold integerPart
  split
  · exact Int.le_floor.mpr h
  · exact_mod_cast h.trans (Int.le_ceil q)

theorem integerPart_le (h : q ≤ n) : integerPart q ≤ n := by
  unfold integerPart
  split
  · exact_mod_cast (Int.floor_le q).trans h
  · exact Int.ceil_le.mpr h

/-! ## Integers of so many bits -/

namespace Exact

/-- The integer part of a number, or the end that is nearest to it. What is no number becomes
zero. -/
def toInteger (least greatest : ℤ) : Exact → ℤ
  | of q => max least (min greatest (integerPart q))
  | infinite negative => if negative then least else greatest
  | undefined => 0

end Exact

namespace Binary

/-- The mantissa is the whole number below. -/
theorem Holds.floor_eq {em : ExtendedMantissa} {y : ℚ} (h : Holds em y) : ⌊y⌋ = em.mantissa := by
  obtain ⟨rest, rfl, hrest, hlt, -⟩ := h
  rw [Int.floor_eq_iff, Int.cast_natCast]
  split <;> constructor <;> linarith

/-- The bits of a fraction are shifted out. -/
theorem roundToInt_eq (s : Sign) (m : ℕ) (e : ℤ) :
    roundToInt s m e = integerPart (signed s (m * 2 ^ e)) := by
  have hpos : (0 : ℚ) ≤ m * 2 ^ e := by positivity
  obtain ⟨d, hd⟩ : ∃ d : ℕ, (0 - (e - ((e - 0).toNat : ℤ))).toNat = d := ⟨_, rfl⟩
  have hexponent : e - ((e - 0).toNat : ℤ) = -(d : ℤ) := by omega
  have hvalue : (m <<< (e - 0).toNat : ℕ) / 2 ^ d = (m * 2 ^ e : ℚ) := by
    rw [← decreaseExponent_value m e 0]
    show _ = ((m <<< (e - 0).toNat : ℕ) * 2 ^ (e - ((e - 0).toNat : ℤ)) : ℚ)
    rw [hexponent, zpow_neg, zpow_natCast, div_eq_mul_inv]
  have hmantissa := ((holds_exact (m <<< (e - 0).toNat)).shiftRight d).floor_eq
  have hround : roundToInt s m e =
      s.apply (ExtendedMantissa.ofMantissaAndAccuracy (m <<< (e - 0).toNat) .exact >>> d).mantissa := by
    rw [← hd]
    rfl
  rw [hvalue] at hmantissa
  rw [hround]
  cases s with
  | negative =>
      rw [signed, integerPart_neg, integerPart_of_nonneg hpos, hmantissa]
      rfl
  | positive =>
      rw [signed, integerPart_of_nonneg hpos, hmantissa]
      rfl

/-- An integer of more than 64 bits is moved to the nearest end. -/
theorem toInt_ofIntClamp (n : ℤ) :
    (Int64.ofIntClamp n).toInt = max Text.Integer.least (min Text.Integer.greatest n) := by
  have hleast : Int64.minValue.toInt = Text.Integer.least := by decide
  have hgreatest : Int64.maxValue.toInt = Text.Integer.greatest := by decide
  have hends : Text.Integer.least ≤ Text.Integer.greatest := by decide
  unfold Int64.ofIntClamp
  split
  · next hlow =>
      split
      · next hhigh =>
          rw [Int64.toInt_ofIntLE]
          omega
      · omega
  · omega

end Binary

/-- How a number of double precision is made an integer of 64 bits. -/
theorem Exact.truncate_eq (x : Float) :
    Text.Real.truncate x = (ofFloat x).toInteger Text.Integer.least Text.Integer.greatest := by
  have hclamp : Text.Real.truncate x = max Text.Integer.least (min Text.Integer.greatest
      (x.toModel.unpack.toInt Int64.minValue.toInt Int64.maxValue.toInt)) :=
    toInt_ofIntClamp _
  rw [hclamp, ofFloat]
  cases x.toModel.unpack with
  | notANumber => decide
  | infinity s => cases s <;> decide
  | zero s => simp [UnpackedFloat.toInt, value, Exact.toInteger, integerPart]
  | finite s m e pos => rw [UnpackedFloat.toInt, roundToInt_eq, value, Exact.toInteger]

end Trellis
