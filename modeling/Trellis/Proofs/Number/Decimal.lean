import Trellis.Proofs.Number.Double
import Trellis.Text.Numeral

/-!
# Decimal fractions

A decimal fraction that is read becomes a number of double precision that is nearest to it.

* `Binary.ofScientific_rounded` — a power of ten, multiplied or divided by, and rounded once.
* `Exact.ofFloat_ofDecimal`, `Exact.ofFloat_ofInt` — decimal fractions and integers, rounded.
-/

namespace Trellis

open Float.Model hiding pack unpack
open UnpackedFloat

namespace Binary

open Exact

variable {f : Float.Model.Format} {u : UnpackedFloat} {q : ℚ} {m k : ℕ}

/-! ## Signs -/

theorem signed_opposite (s : Sign) (q : ℚ) : signed (-s) q = -signed s q := by
  cases s with
  | negative => exact (neg_neg q).symm
  | positive => rfl

theorem value_neg (u : UnpackedFloat) : value u.neg = (value u).neg := by
  cases u with
  | notANumber => rfl
  | infinity s => cases s <;> rfl
  | zero s => exact congrArg of neg_zero.symm
  | finite s m e pos => exact congrArg of (signed_opposite s _)

theorem limited_neg (u : UnpackedFloat) : limited f u.neg = (limited f u).neg := by
  cases u with
  | notANumber | infinity | zero => rfl
  | finite s m e pos =>
      simp only [UnpackedFloat.neg, limited]
      split <;> rfl

/-! ## Scientific notation -/

/-- No number of the format lies between zero and the least unit. -/
theorem Grid.nonpos_or_le (h : Grid f q) : q ≤ 0 ∨ 2 ^ f.minExponent ≤ q := by
  obtain ⟨m, e, rfl, -, he⟩ := h
  rcases le_or_gt m 0 with hm | hm
  · have hm : (m : ℚ) ≤ 0 := by exact_mod_cast hm
    exact .inl (mul_nonpos_of_nonpos_of_nonneg hm (by positivity))
  · have hm : (1 : ℚ) ≤ m := by exact_mod_cast hm
    refine .inr ?_
    calc (2 ^ f.minExponent : ℚ) ≤ 2 ^ e := zpow_le_zpow_right₀ one_le_two he
      _ ≤ m * 2 ^ e := le_mul_of_one_le_left (by positivity) hm

/-- What is less than half the least unit becomes zero. -/
theorem rounded_small (wide : 0 < f.exponentBias) (pos : 0 < q)
    (small : 2 * q < 2 ^ f.minExponent) : Rounded f (of q) (of 0) where
  floor v hv hle := by
    have hle := of_le_of.mp hle
    exact of_le_of.mpr (hv.grid.nonpos_or_le.resolve_right (by linarith))
  ceil v _ hle := of_le_of.mpr (pos.le.trans (of_le_of.mp hle))
  near := by
    rintro _ ⟨⟩ v hv
    show |0 - q| ≤ _
    rw [zero_sub, abs_neg, abs_of_pos pos]
    rcases (hv.grid wide).nonpos_or_le with hle | hle
    · rw [abs_of_nonpos (by linarith)]
      linarith
    · rw [abs_of_nonneg (by linarith)]
      linarith
  close p r _ hr hbig := by
    cases hr
    rw [abs_zero] at hbig
    exact absurd hbig (not_le.mpr (by positivity))
  kept h := absurd rfl (h q)

/-- A number that is made long enough by zeros has all the bits of the format, whatever it is
multiplied by. -/
theorem scale_gives (hm : 0 < m) (hk : 0 < k) :
    Gives f (of (m * k)) (UnpackedFloat.mul f
      (.finite .positive (m <<< f.mantissaBits) (-f.mantissaBits)
        (by simpa [Nat.pos_iff_ne_zero] using hm.ne'))
      (.finite .positive k 0 hk)) := by
  have hmin := minExponent_nonpos f
  have hshift : m <<< f.mantissaBits * k = (m * k) <<< f.mantissaBits := by
    rw [Nat.shiftLeft_eq, Nat.shiftLeft_eq, Nat.mul_right_comm]
  refine .of_signed (s := .positive) (roundWithAccuracy_nearest _ ?_ ?_)
  · rw [hshift, add_zero, Nat.shiftLeft_eq, zpow_neg, zpow_natCast, div_inv_eq_mul]
    exact_mod_cast holds_exact _
  · rw [hshift, add_zero, Float.Model.Format.targetExponent, totalExponent,
      log2_shiftLeft (Nat.mul_pos hm hk)]
    omega

/-- Ten to a large power exceeds all numbers of double precision. -/
theorem large_le {t : ℤ} (hm : 0 < m) (large : 2 ^ Float.Model.Format.binary64.exponentBits < t) :
    overflow .binary64 ≤ m * 10 ^ t := by
  have hone : (1 : ℚ) ≤ m := by exact_mod_cast hm
  have hlarge : (2048 : ℤ) ≤ t := large.le
  obtain ⟨k, rfl⟩ : ∃ k : ℕ, t = k := ⟨t.toNat, by omega⟩
  rw [Exact.overflow_binary64, zpow_natCast]
  calc (2 ^ (1024 : ℤ) : ℚ) ≤ 2 ^ (k : ℤ) := zpow_le_zpow_right₀ one_le_two (by omega)
    _ = 2 ^ k := zpow_natCast _ _
    _ ≤ 10 ^ k := pow_le_pow_left₀ (by norm_num) (by norm_num) _
    _ ≤ m * 10 ^ k := le_mul_of_one_le_left (by positivity) hone

/-- A tenth to a large power is less than half the least unit of double precision. -/
theorem small_lt {t : ℤ}
    (small : t < -((2 ^ Float.Model.Format.binary64.exponentBits : ℤ) + m.log2)) :
    (2 * (m * 10 ^ t) : ℚ) < 2 ^ Float.Model.Format.binary64.minExponent := by
  have hbound : Float.Model.Format.binary64.minExponent = -1074 := by decide
  have hlog : (m : ℚ) < 2 ^ (m.log2 + 1) := by exact_mod_cast Nat.lt_log2_self
  have hsmall : t < -(2048 + (m.log2 : ℤ)) := small
  obtain ⟨k, rfl⟩ : ∃ k : ℕ, t = -(k : ℤ) := ⟨(-t).toNat, by omega⟩
  have hten : ((10 : ℚ) ^ k)⁻¹ ≤ (2 ^ k)⁻¹ :=
    inv_anti₀ (by positivity) (pow_le_pow_left₀ (by norm_num) (by norm_num) k)
  rw [zpow_neg, zpow_natCast, hbound]
  calc (2 * (m * (10 ^ k)⁻¹) : ℚ) < 2 * (2 ^ (m.log2 + 1) * (10 ^ k)⁻¹) := by gcongr
    _ ≤ 2 * (2 ^ (m.log2 + 1) * (2 ^ k)⁻¹) := by gcongr
    _ = 2 ^ ((m.log2 : ℤ) + 2 - k) := by
      rw [zpow_sub₀ two_ne_zero, zpow_add₀ two_ne_zero, zpow_natCast, zpow_natCast,
        div_eq_mul_inv, pow_succ]
      ring
    _ ≤ 2 ^ (-1074 : ℤ) := zpow_le_zpow_right₀ one_le_two (by omega)

/-- A decimal fraction in scientific notation is rounded. -/
theorem ofScientific_rounded (m : ℕ) (t : ℤ) : Rounded .binary64 (of (m * 10 ^ t))
    (value (unpack .binary64 (pack .binary64 (UnpackedFloat.ofScientific .binary64 m t)))) := by
  unfold UnpackedFloat.ofScientific
  split
  · next hzero =>
      subst hzero
      rw [Nat.cast_zero, zero_mul]
      exact (Canonical.gives (u := .zero .positive) trivial).rounded Exact.binary64_wide
  next hzero =>
  have hm : 0 < m := Nat.pos_of_ne_zero hzero
  split
  · next hlarge =>
      rw [unpack_pack (u := .infinity .positive) trivial]
      exact (Nearest.refl _ _).rounded_overflow Exact.binary64_wide (large_le hm hlarge)
  split
  · next hsmall =>
      rw [unpack_pack (u := .zero .positive) trivial]
      exact rounded_small Exact.binary64_wide (by positivity) (small_lt hsmall)
  split
  · next hpos =>
      have hgives := scale_gives (f := .binary64) hm
        (Nat.pow_pos (n := t.toNat) (by decide : 0 < 10))
      have hpower : (10 : ℚ) ^ t = (10 ^ t.toNat : ℕ) := by
        rw [Nat.cast_pow, ← zpow_natCast, Int.toNat_of_nonneg hpos]
        rfl
      rw [hpower]
      exact hgives.rounded Exact.binary64_wide
  · next hneg =>
      have hgives := finite_div_gives (f := .binary64) .positive .positive hm
        (Nat.pow_pos (n := (-t).toNat) (by decide : 0 < 10)) 0 0
      have hpower : (10 : ℚ) ^ t = ((10 ^ (-t).toNat : ℕ) : ℚ)⁻¹ := by
        rw [Nat.cast_pow, ← zpow_natCast, Int.toNat_of_nonneg (by omega), zpow_neg, inv_inv]
        rfl
      simp only [signed, zpow_zero, mul_one] at hgives
      rw [hpower, ← div_eq_mul_inv]
      exact hgives.rounded Exact.binary64_wide

end Binary

/-! ## Double precision -/

namespace Exact

open Binary

variable {m : ℕ}

theorem ofFloat_neg (x : Float) : ofFloat (-x) = (ofFloat x).neg := by
  have hcanonical : Canonical .binary64 x.toModel.unpack.neg := by
    have := canonical x
    generalize x.toModel.unpack = u at *
    cases u <;> exact this
  have hlimited := limited_unpack binary64_wide x.toModel.toBits.toBitVec
  show value (unpack .binary64 (pack .binary64 x.toModel.unpack.neg)) = _
  rw [unpack_pack hcanonical, limited_neg, value_neg]
  exact congrArg (fun u => (value u).neg) hlimited

/-- Integers of few bits have the same value in double precision. -/
theorem ofFloat_toFloat (small : m < 2 ^ 53) : ofFloat m.toUInt64.toFloat = of m := by
  have hm : m.toUInt64.toNat = m := by
    simp only [Nat.toUInt64_eq, UInt64.toNat_ofNat']
    omega
  have hfits : Fits .binary64 m := by
    have hcast : (m : ℚ) < 2 ^ 53 := by exact_mod_cast small
    refine ⟨⟨m, 0, by simp, ?_, by decide⟩, ?_⟩
    · rw [abs_of_nonneg (Int.natCast_nonneg m)]
      exact_mod_cast small
    · rw [abs_of_nonneg (Nat.cast_nonneg m), Exact.overflow_binary64]
      refine hcast.trans_le ?_
      rw [← zpow_natCast]
      exact zpow_le_zpow_right₀ one_le_two (by decide)
  have hgives := normalize_gives (f := .binary64) m 0 .positive
  rw [zpow_zero, mul_one, Int.cast_natCast] at hgives
  have hmodel : m.toUInt64.toFloat = .ofModel (.pack (normalize .binary64 m 0 .positive)) := by
    show Float.ofModel (.pack (normalize .binary64 (m.toUInt64.toNat : ℤ) 0 .positive)) = _
    rw [hm]
  rw [hmodel]
  exact (ofFloat_pack hgives).eq_of_fits hfits

/-- The powers of ten in the table are exact. -/
theorem ofFloat_tens : ∀ e : Fin Float.exactlyRepresentablePowersOfTen.size,
    ofFloat Float.exactlyRepresentablePowersOfTen[e] = of (10 ^ e.val) := by
  decide +kernel

/-- A decimal fraction becomes a nearest number of double precision. -/
theorem ofFloat_ofScientific (m : ℕ) (small : Bool) (e : ℕ) :
    Rounded .binary64 (of (m * 10 ^ (if small then -(e : ℤ) else e)))
      (ofFloat (Float.ofScientific m small e)) := by
  by_cases hfast : m < 2 ^ 53 ∧ e ≤ 22
  · have hm := ofFloat_toFloat hfast.1
    have he : e < Float.exactlyRepresentablePowersOfTen.size := Nat.lt_succ_of_le hfast.2
    have hten : ofFloat Float.exactlyRepresentablePowersOfTen[e] = of (10 ^ e) :=
      ofFloat_tens ⟨e, he⟩
    rw [Float.ofScientific, dif_pos hfast]
    cases small with
    | false =>
        have hmul := ofFloat_mul m.toUInt64.toFloat Float.exactlyRepresentablePowersOfTen[e]
        rw [hm, hten, of_mul_of] at hmul
        rw [if_neg Bool.false_ne_true, zpow_natCast]
        exact hmul
    | true =>
        have hne : ofFloat Float.exactlyRepresentablePowersOfTen[e] ≠ of 0 := by
          rw [hten]
          simp
        have hdiv := ofFloat_div m.toUInt64.toFloat hne
        rw [hm, hten, of_div_of _ (by positivity)] at hdiv
        rw [if_pos rfl, zpow_neg, zpow_natCast, ← div_eq_mul_inv]
        exact hdiv
  · have hround := ofScientific_rounded m (if small then -(e : ℤ) else e)
    rw [Float.ofScientific, dif_neg hfast]
    show Rounded _ _ (value (unpack .binary64 (pack .binary64
      (UnpackedFloat.ofScientific .binary64 m (if small then Int.negOfNat e else Int.ofNat e)))))
    rwa [Int.negOfNat_eq]

/-- A decimal fraction that is read becomes a nearest number of double precision. -/
theorem ofFloat_ofDecimal (m : ℕ) (e : ℤ) :
    Rounded .binary64 (of (m * 10 ^ e)) (ofFloat (Text.Real.ofDecimal m e)) := by
  cases e with
  | ofNat n => exact ofFloat_ofScientific m false n
  | negSucc n => exact ofFloat_ofScientific m true (n + 1)

theorem ofFloat_ofNat (m : ℕ) : Rounded .binary64 (of m) (ofFloat (Float.ofNat m)) := by
  have hround := ofFloat_ofScientific m false 0
  rwa [if_neg Bool.false_ne_true, Nat.cast_zero, zpow_zero, mul_one] at hround

/-- An integer becomes a nearest number of double precision. -/
theorem ofFloat_ofInt (n : ℤ) : Rounded .binary64 (of n) (ofFloat (Float.ofInt n)) := by
  cases n with
  | ofNat m => exact ofFloat_ofNat m
  | negSucc m =>
      have hneg := (ofFloat_ofNat (m + 1)).neg
      rw [← ofFloat_neg] at hneg
      rw [Int.cast_negSucc]
      exact hneg

end Exact

end Trellis
