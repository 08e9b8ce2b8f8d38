import Mathlib

/-!
# Rounding to a binary format

A binary format has numbers of so many bits, none of them finer than a least unit. What rounding
does to a number is told by where those of the format are: it passes none of them, and what it
leaves out is small against a number that is not too small itself.

* `Binary.Grid` — the numbers of a format, were they not bounded.
* `Binary.Nearest` — a number of the format that another one is rounded to.
* `Binary.Holds`, `Holds.isRound` — a mantissa with two more bits is rounded to a nearest whole
  number.
* `Binary.nearest_of_isRound` — a nearest multiple of a unit that is fine enough.
-/

namespace Trellis.Binary

open Float.Model UnpackedFloat

/-! ## Whole numbers -/

/-- A nearest whole number. -/
structure IsRound (y : ℚ) (k : ℕ) : Prop where
  floor : ∀ n : ℕ, n ≤ y → n ≤ k
  ceil : ∀ n : ℕ, y ≤ n → k ≤ n
  half : |(k : ℚ) - y| ≤ 1 / 2

/-- A mantissa, with one bit for the half that has been cut off it and one for anything else. -/
def Holds (em : ExtendedMantissa) (y : ℚ) : Prop :=
  ∃ rest : ℚ, y = em.mantissa + (if em.roundBit then 1 / 2 else 0) + rest ∧
    0 ≤ rest ∧ rest < 1 / 2 ∧ (em.stickyBit = true ↔ 0 < rest)

variable {em : ExtendedMantissa} {y : ℚ}

theorem holds_exact (m : ℕ) : Holds (.ofMantissaAndAccuracy m .exact) m :=
  ⟨0, by simp [ExtendedMantissa.ofMantissaAndAccuracy], le_refl 0, by norm_num,
    by simp [ExtendedMantissa.ofMantissaAndAccuracy]⟩

/-- What is left over of a division tells the two bits. -/
theorem holds_quotient (num : ℕ) {den : ℕ} (pos : 0 < den) :
    Holds (.ofMantissaAndAccuracy (num / den) (accuracyOfFraction (num % den) den))
      (num / den) := by
  have hden : (0 : ℚ) < den := by exact_mod_cast pos
  have hlt : num % den < den := Nat.mod_lt _ pos
  have hsplit : (num : ℚ) / den = (num / den : ℕ) + (num % den : ℕ) / den := by
    rw [eq_comm, ← eq_sub_iff_add_eq', div_eq_iff hden.ne', sub_mul, div_mul_cancel₀ _ hden.ne']
    have := Nat.div_add_mod num den
    rw [eq_sub_iff_add_eq', mul_comm]
    exact_mod_cast this
  have hsmall : ((num % den : ℕ) : ℚ) / den < 1 := by
    rw [div_lt_one hden]
    exact_mod_cast hlt
  rw [hsplit, accuracyOfFraction]
  generalize num % den = left at *
  split
  · next hzero =>
      subst hzero
      simpa using holds_exact (num / den)
  · next hpos =>
      have hleft : (0 : ℚ) < (left : ℚ) / den :=
        div_pos (by exact_mod_cast Nat.pos_of_ne_zero hpos) hden
      cases hcompare : compare (2 * left) den with
      | lt =>
          have hhalf : (left : ℚ) / den < 1 / 2 := by
            rw [div_lt_div_iff₀ hden two_pos, one_mul, mul_comm]
            exact_mod_cast Nat.compare_eq_lt.mp hcompare
          exact ⟨left / den, by simp [ExtendedMantissa.ofMantissaAndAccuracy], hleft.le, hhalf,
            by simpa [ExtendedMantissa.ofMantissaAndAccuracy] using hleft⟩
      | eq =>
          have hhalf : (left : ℚ) / den = 1 / 2 := by
            rw [div_eq_div_iff hden.ne' two_ne_zero, one_mul, mul_comm]
            exact_mod_cast Nat.compare_eq_eq.mp hcompare
          refine ⟨0, ?_, le_refl 0, by norm_num, by simp [ExtendedMantissa.ofMantissaAndAccuracy]⟩
          simp [ExtendedMantissa.ofMantissaAndAccuracy, hhalf]
      | gt =>
          have hhalf : 1 / 2 < (left : ℚ) / den := by
            rw [div_lt_div_iff₀ two_pos hden, one_mul, mul_comm]
            exact_mod_cast Nat.compare_eq_gt.mp hcompare
          refine ⟨left / den - 1 / 2, ?_, by linarith, by linarith, ?_⟩
          · simp [ExtendedMantissa.ofMantissaAndAccuracy]
          · simpa [ExtendedMantissa.ofMantissaAndAccuracy] using hhalf

/-- One bit less. The bit that was last is now the half. -/
theorem Holds.shiftRightOne (h : Holds em y) : Holds em.shiftRightOne (y / 2) := by
  obtain ⟨m, half, sticky⟩ := em
  obtain ⟨rest, rfl, hrest, hlt, hsticky⟩ := h
  have hm : (m : ℚ) = 2 * (m / 2 : ℕ) + (m % 2 : ℕ) := by exact_mod_cast (Nat.div_add_mod m 2).symm
  simp only at hsticky ⊢
  refine ⟨(if half then 1 / 4 else 0) + rest / 2, ?_, ?_, ?_, ?_⟩
  · rcases Nat.mod_two_eq_zero_or_one m with hbit | hbit <;>
      cases half <;> simp [ExtendedMantissa.shiftRightOne, hbit, hm] <;> ring
  · cases half <;> simp <;> linarith
  · cases half <;> simp <;> linarith
  · cases half <;> simp [ExtendedMantissa.shiftRightOne, hsticky]
    linarith

theorem Holds.shiftRight (h : Holds em y) (n : ℕ) : Holds (em >>> n) (y / 2 ^ n) := by
  induction n with
  | zero =>
      rw [pow_zero, div_one]
      exact h
  | succ n ih =>
      rw [pow_succ, ← div_div]
      exact ih.shiftRightOne

/-- The whole number below is a nearest one up to the half, and the one above from there on. -/
theorem IsRound.of_half {m k : ℕ} (low : m ≤ y) (high : y < m + 1)
    (near : k = m ∧ y ≤ m + 1 / 2 ∨ k = m + 1 ∧ m + 1 / 2 ≤ y) : IsRound y k := by
  refine ⟨fun n hn => ?_, fun n hn => ?_, ?_⟩
  · have hlt : (n : ℚ) < m + 1 := hn.trans_lt high
    have hle : n ≤ m := by
      rw [← Nat.lt_add_one_iff]
      exact_mod_cast hlt
    omega
  · have hm : m ≤ n := by exact_mod_cast low.trans hn
    rcases near with ⟨rfl, -⟩ | ⟨rfl, hhalf⟩
    · exact hm
    · have hlt : (m : ℚ) < n := by linarith
      exact_mod_cast hlt
  · rw [abs_le]
    rcases near with ⟨rfl, hhalf⟩ | ⟨rfl, hhalf⟩
    · constructor <;> linarith
    · push_cast
      constructor <;> linarith

/-- The two bits are enough to round. -/
theorem Holds.isRound (h : Holds em y) : IsRound y em.roundedMantissa := by
  obtain ⟨m, half, sticky⟩ := em
  obtain ⟨rest, rfl, hrest, hlt, hsticky⟩ := h
  simp only at hsticky ⊢
  refine .of_half (m := m) ?_ ?_ ?_
  · cases half <;> simp <;> linarith
  · cases half <;> simp <;> linarith
  cases half with
  | false =>
      refine .inl ⟨?_, ?_⟩
      · cases sticky <;> rfl
      · simp only [Bool.false_eq_true, if_false]
        linarith
  | true =>
      simp only [if_true]
      cases sticky with
      | true => exact .inr ⟨rfl, by linarith⟩
      | false =>
          -- Half way between two whole numbers, the even one is taken.
          have hnone : ¬0 < rest := fun h => by simpa using hsticky.mpr h
          have hzero : rest = 0 := le_antisymm (not_lt.mp hnone) hrest
          subst hzero
          have hk : (ExtendedMantissa.roundedMantissa ⟨m, true, false⟩) = m + m % 2 := rfl
          rw [hk]
          rcases Nat.mod_two_eq_zero_or_one m with hbit | hbit <;> rw [hbit]
          · exact .inl ⟨rfl, by linarith⟩
          · exact .inr ⟨rfl, by linarith⟩

/-! ## Numbers of a format -/

variable {f : Format} {q x v : ℚ} {t : ℤ} {k : ℕ}

/-- So many bits, and nothing finer than the least unit. -/
def Grid (f : Format) (q : ℚ) : Prop :=
  ∃ m e : ℤ, q = m * 2 ^ e ∧ |m| < 2 ^ f.mantissaBits ∧ f.minExponent ≤ e

theorem Grid.neg (h : Grid f q) : Grid f (-q) := by
  obtain ⟨m, e, rfl, hm, he⟩ := h
  exact ⟨-m, e, by push_cast; ring, by rwa [abs_neg], he⟩

/-- Multiples of a unit are multiples of a finer one. -/
theorem refine_unit (m : ℤ) {e e' : ℤ} (le : e ≤ e') :
    (m * 2 ^ e' : ℚ) = (m * 2 ^ (e' - e).toNat : ℤ) * 2 ^ e := by
  have hexp : e' = ((e' - e).toNat : ℤ) + e := by omega
  conv_lhs => rw [hexp, zpow_add₀ two_ne_zero, zpow_natCast]
  push_cast
  ring

/-- Two numbers of so many bits are not too close to each other. -/
theorem gap {p : ℕ} {m m' e e' : ℤ} (bits : |m| < 2 ^ p) (bits' : |m'| < 2 ^ p)
    (lt : (m * 2 ^ e : ℚ) < m' * 2 ^ e') :
    (m * 2 ^ e : ℚ) ≤ (2 ^ p - 1) * (m' * 2 ^ e' - m * 2 ^ e) := by
  -- Their distance is a multiple of the finer unit, and one of them is one with so many bits.
  have hbits : (m : ℚ) ≤ 2 ^ p - 1 := by
    have := (abs_lt.mp bits).2
    exact_mod_cast Int.le_sub_one_of_lt this
  have hbits' : (m' : ℚ) ≤ 2 ^ p - 1 := by
    have := (abs_lt.mp bits').2
    exact_mod_cast Int.le_sub_one_of_lt this
  have hp : (0 : ℚ) ≤ 2 ^ p - 1 := by
    have := one_le_pow₀ (one_le_two : (1 : ℚ) ≤ 2) (n := p)
    linarith
  have hdistance {m m' u : ℤ} (lt : (m * 2 ^ u : ℚ) < m' * 2 ^ u) :
      (2 : ℚ) ^ u ≤ m' * 2 ^ u - m * 2 ^ u := by
    have hunit : (0 : ℚ) < 2 ^ u := by positivity
    have hlt : m < m' := by exact_mod_cast lt_of_mul_lt_mul_right lt hunit.le
    have hle : (m : ℚ) + 1 ≤ m' := by exact_mod_cast hlt
    nlinarith
  rcases le_total e e' with hle | hle
  · rw [refine_unit m' hle] at lt ⊢
    calc (m * 2 ^ e : ℚ) ≤ (2 ^ p - 1) * 2 ^ e := by gcongr
      _ ≤ _ := mul_le_mul_of_nonneg_left (hdistance lt) hp
  · rw [refine_unit m hle] at lt ⊢
    calc _ ≤ (m' * 2 ^ e' : ℚ) := lt.le
      _ ≤ (2 ^ p - 1) * 2 ^ e' := by gcongr
      _ ≤ _ := mul_le_mul_of_nonneg_left (hdistance lt) hp

theorem Grid.gap {v : ℚ} (hq : Grid f q) (hv : Grid f v) (lt : q < v) :
    q ≤ (2 ^ f.mantissaBits - 1) * (v - q) := by
  obtain ⟨m, e, rfl, hm, -⟩ := hq
  obtain ⟨m', e', rfl, hm', -⟩ := hv
  exact Binary.gap hm hm' lt

/-- A number of the format that another one is rounded to. No number of the format lies between the
two. -/
structure Nearest (f : Format) (x q : ℚ) : Prop where
  floor : ∀ v, Grid f v → v ≤ x → v ≤ q
  ceil : ∀ v, Grid f v → x ≤ v → q ≤ v
  /-- No number of the format is nearer. -/
  near : ∀ v, Grid f v → |q - x| ≤ |v - x|
  /-- The error is small, unless the number has fewer bits than there could be. -/
  close : 2 ^ f.mantissaBitsWithoutImplicit * 2 ^ f.minExponent ≤ |q| →
    |q - x| * 2 ^ f.mantissaBits ≤ |q|

theorem abs_neg_sub_neg (x y : ℚ) : |-x - -y| = |x - y| := by
  rw [neg_sub_neg, abs_sub_comm]

theorem Nearest.neg (h : Nearest f x q) : Nearest f (-x) (-q) where
  floor v hv hle := le_neg.mp (h.ceil (-v) hv.neg (le_neg.mp hle))
  ceil v hv hle := neg_le.mp (h.floor (-v) hv.neg (neg_le.mp hle))
  near v hv := by
    rw [abs_neg_sub_neg, ← neg_neg v, abs_neg_sub_neg]
    exact h.near (-v) hv.neg
  close hbig := by
    rw [abs_neg] at hbig ⊢
    rw [abs_neg_sub_neg]
    exact h.close hbig

/-- What is on the grid stays as it is. -/
theorem Nearest.refl (f : Format) (q : ℚ) : Nearest f q q where
  floor _ _ hle := hle
  ceil _ _ hle := hle
  near _ _ := by simp
  close _ := by simp

/-- A number of the format is a multiple of a unit, or less than any that needs all the bits. -/
theorem Grid.multiple (h : Grid f v) (low : 0 ≤ v) (t : ℤ) : (∃ n : ℕ, v = n * 2 ^ t) ∨
    f.minExponent < t ∧ v < 2 ^ f.mantissaBitsWithoutImplicit * 2 ^ t := by
  obtain ⟨m, e, rfl, hm, he⟩ := h
  have hunit : (0 : ℚ) < 2 ^ e := by positivity
  have hpos : 0 ≤ m := by exact_mod_cast nonneg_of_mul_nonneg_left low hunit
  rcases le_or_gt t e with hle | hlt
  · obtain ⟨n, hn⟩ : ∃ n : ℕ, m * 2 ^ (e - t).toNat = n :=
      Int.eq_ofNat_of_zero_le (by positivity)
    exact .inl ⟨n, by rw [refine_unit m hle, hn, Int.cast_natCast]⟩
  · refine .inr ⟨by omega, ?_⟩
    have hbits : (m : ℚ) < 2 ^ f.mantissaBits := by exact_mod_cast (abs_lt.mp hm).2
    have hstep : (2 : ℚ) ^ (e + 1) ≤ 2 ^ t := zpow_le_zpow_right₀ one_le_two (by omega)
    calc (m * 2 ^ e : ℚ) < 2 ^ f.mantissaBits * 2 ^ e := by gcongr
      _ = 2 ^ f.mantissaBitsWithoutImplicit * 2 ^ (e + 1) := by
        rw [Format.mantissaBits, pow_add, zpow_add₀ two_ne_zero]
        ring
      _ ≤ _ := by gcongr

/-- No whole number is nearer than a nearest one. -/
theorem IsRound.near (h : IsRound y k) (n : ℕ) : |(k : ℚ) - y| ≤ |n - y| := by
  rcases eq_or_ne k n with rfl | hne
  · rfl
  have hapart : (1 : ℚ) ≤ |(n : ℚ) - k| := by
    have hint : (1 : ℤ) ≤ |(n : ℤ) - k| := Int.one_le_abs (by omega)
    exact_mod_cast hint
  have htriangle : |(n : ℚ) - k| ≤ |n - y| + |y - k| := abs_sub_le _ _ _
  have hhalf := h.half
  rw [abs_sub_comm] at hhalf ⊢
  linarith

/-- How far a multiple of a unit is, in units. -/
theorem abs_mul_unit_sub (n : ℕ) (x : ℚ) (t : ℤ) :
    |(n * 2 ^ t : ℚ) - x| = |n - x / 2 ^ t| * 2 ^ t := by
  have hunit : (0 : ℚ) < 2 ^ t := by positivity
  rw [← abs_of_pos hunit, ← abs_mul, abs_of_pos hunit, sub_mul, div_mul_cancel₀ _ hunit.ne']

/-- Of a unit no multiple is nearer than that of a nearest whole number. -/
theorem IsRound.near_mul (h : IsRound (x / 2 ^ t) k) (n : ℕ) :
    |(k * 2 ^ t : ℚ) - x| ≤ |n * 2 ^ t - x| := by
  rw [abs_mul_unit_sub, abs_mul_unit_sub]
  exact mul_le_mul_of_nonneg_right (h.near n) (by positivity)

/-- A nearest multiple of a unit is a nearest number of the format, if the number that is rounded
needs all the bits or the unit is the least one. -/
theorem nearest_of_isRound (pos : 0 ≤ x) (round : IsRound (x / 2 ^ t) k)
    (fine : t = f.minExponent ∨ 2 ^ f.mantissaBitsWithoutImplicit * 2 ^ t ≤ x) :
    Nearest f x (k * 2 ^ t) := by
  have hunit : (0 : ℚ) < 2 ^ t := by positivity
  have hfloor (n : ℕ) (hn : n * 2 ^ t ≤ x) : n ≤ k := round.floor n ((le_div_iff₀ hunit).mpr hn)
  have hfull (h : 2 ^ f.mantissaBitsWithoutImplicit * 2 ^ t ≤ x) :
      (2 ^ f.mantissaBitsWithoutImplicit : ℚ) ≤ k := by
    have := hfloor (2 ^ f.mantissaBitsWithoutImplicit) (by exact_mod_cast h)
    exact_mod_cast this
  refine ⟨fun v hv hle => ?_, fun v hv hle => ?_, fun v hv => ?_, fun hbig => ?_⟩
  · rcases le_total v 0 with hneg | hlow
    · exact hneg.trans (by positivity)
    rcases hv.multiple hlow t with ⟨n, rfl⟩ | ⟨hmin, hlt⟩
    · have hn : (n : ℚ) ≤ k := by exact_mod_cast hfloor n hle
      gcongr
    · have hk := hfull (fine.resolve_left hmin.ne')
      exact hlt.le.trans (by gcongr)
  · rcases hv.multiple (pos.trans hle) t with ⟨n, rfl⟩ | ⟨hmin, hlt⟩
    · have hn : (k : ℚ) ≤ n := by exact_mod_cast round.ceil n ((div_le_iff₀ hunit).mpr hle)
      gcongr
    · exact absurd (hlt.trans_le (fine.resolve_left hmin.ne')) (not_lt.mpr hle)
  · -- Below the multiples, the least one with all the bits is nearer, and so is zero.
    have hbelow {v : ℚ} (n : ℕ) (hvn : v ≤ n * 2 ^ t) (hn : n * 2 ^ t ≤ x) :
        |(k * 2 ^ t : ℚ) - x| ≤ |v - x| := by
      refine (round.near_mul n).trans ?_
      rw [abs_of_nonpos (by linarith), abs_of_nonpos (by linarith)]
      linarith
    rcases le_total v 0 with hneg | hlow
    · exact hbelow 0 (by simpa using hneg) (by simpa using pos)
    rcases hv.multiple hlow t with ⟨n, rfl⟩ | ⟨hmin, hlt⟩
    · exact round.near_mul n
    · have hfull := fine.resolve_left hmin.ne'
      exact hbelow (2 ^ f.mantissaBitsWithoutImplicit) (by exact_mod_cast hlt.le)
        (by exact_mod_cast hfull)
  · have hq : |(k * 2 ^ t : ℚ)| = k * 2 ^ t := abs_of_nonneg (by positivity)
    have hk : (2 ^ f.mantissaBitsWithoutImplicit : ℚ) ≤ k := by
      rcases fine with rfl | hfine
      · rw [hq] at hbig
        exact le_of_mul_le_mul_right hbig hunit
      · exact hfull hfine
    rw [hq, abs_mul_unit_sub, Format.mantissaBits, pow_add, pow_one]
    have hhalf := round.half
    calc |(k : ℚ) - x / 2 ^ t| * 2 ^ t * (2 * 2 ^ f.mantissaBitsWithoutImplicit)
        ≤ 1 / 2 * 2 ^ t * (2 * 2 ^ f.mantissaBitsWithoutImplicit) := by gcongr
      _ = 2 ^ f.mantissaBitsWithoutImplicit * 2 ^ t := by ring
      _ ≤ k * 2 ^ t := by gcongr

end Trellis.Binary
