import Trellis.Proofs.Number.Finite
import Trellis.Proofs.Number.Rounding

/-!
# Binary arithmetic

Numbers of a binary format have a sign, a mantissa and an exponent, or are an infinity or no number.
What arithmetic makes of two of them is the exact result, rounded.

* `Binary.value` — the exact number that one of a format stands for.
* `Binary.Canonical` — a mantissa with all the bits that its exponent leaves room for.
* `Binary.roundWithAccuracy_nearest` — a mantissa with two more bits is rounded to a nearest number.
* `Binary.Gives` — what an operation makes of an exact result (`add_gives`, `mul_gives`,
  `div_gives`).
* `Binary.lt_iff`, `Binary.le_iff` — canonical numbers are ordered as the exact ones.
-/

namespace Trellis.Binary

open Float.Model UnpackedFloat Exact

variable {f : Format} {s : Sign} {u : UnpackedFloat} {q x : ℚ} {m k : ℕ} {e t : ℤ}

/-! ## Values -/

def negative : Sign → Bool
  | .negative => true
  | .positive => false

/-- A magnitude with a sign. -/
def signed : Sign → ℚ → ℚ
  | .negative, x => -x
  | .positive, x => x

/-- The exact number that one of a format stands for. -/
def value : UnpackedFloat → Exact
  | .notANumber => undefined
  | .infinity s => infinite (negative s)
  | .zero _ => of 0
  | .finite s m e _ => of (signed s (m * 2 ^ e))

/-- A mantissa has all the bits that its exponent leaves room for. -/
def Canonical (f : Format) : UnpackedFloat → Prop
  | .finite _ m e _ => m < 2 ^ f.mantissaBits ∧ f.minExponent ≤ e ∧
      (e = f.minExponent ∨ 2 ^ f.mantissaBitsWithoutImplicit ≤ m)
  | _ => True

theorem grid_magnitude (bits : m < 2 ^ f.mantissaBits) (low : f.minExponent ≤ e) :
    Grid f (m * 2 ^ e) :=
  ⟨m, e, rfl, by rw [abs_of_nonneg (Int.natCast_nonneg m)]; exact_mod_cast bits, low⟩

theorem grid_signed (h : Grid f q) (s : Sign) : Grid f (signed s q) := by
  cases s with
  | negative => exact h.neg
  | positive => exact h

theorem nearest_signed (h : Nearest f x q) (s : Sign) : Nearest f (signed s x) (signed s q) := by
  cases s with
  | negative => exact h.neg
  | positive => exact h

/-- A canonical number that is finite is on the grid. -/
theorem Canonical.grid (h : Canonical f u) (hq : value u = of q) : Grid f q := by
  cases u with
  | notANumber | infinity => cases hq
  | zero =>
      cases hq
      exact ⟨0, f.minExponent, by simp, by positivity, le_refl _⟩
  | finite s m e hm =>
      cases hq
      exact grid_signed (grid_magnitude h.1 h.2.1) s

/-! ## Rounding -/

theorem mantissaBits_eq (f : Format) : f.mantissaBits = f.mantissaBitsWithoutImplicit + 1 :=
  Nat.add_comm _ _

theorem shiftToTargetExponent_eq {accuracy : Accuracy} {d : ℕ}
    (h : (f.targetExponent (totalExponent m e) - e).toNat = d) :
    shiftToTargetExponent f m e accuracy =
      (ExtendedMantissa.ofMantissaAndAccuracy m accuracy >>> d, e + (d : ℤ)) := by
  subst h
  rfl

/-- A mantissa that has been rounded is shifted once more if it has a bit too many. -/
theorem shiftToTargetExponent_exact (bits : k ≤ 2 ^ f.mantissaBits) (low : f.minExponent ≤ t)
    (full : t = f.minExponent ∨ 2 ^ f.mantissaBitsWithoutImplicit ≤ k) :
    let made := shiftToTargetExponent f k t .exact
    (made.1.mantissa * 2 ^ made.2 : ℚ) = k * 2 ^ t ∧ made.1.mantissa < 2 ^ f.mantissaBits ∧
      f.minExponent ≤ made.2 ∧
      (made.2 = f.minExponent ∨ 2 ^ f.mantissaBitsWithoutImplicit ≤ made.1.mantissa) := by
  have hW := mantissaBits_eq f
  rcases bits.lt_or_eq with hlt | rfl
  · have hlog : k.log2 < f.mantissaBits := by
      rcases Nat.eq_zero_or_pos k with rfl | hk
      · rw [Nat.log2_zero, hW]
        exact Nat.succ_pos _
      · exact (Nat.log2_lt hk.ne').mpr hlt
    have hshift : (f.targetExponent (totalExponent k t) - t).toNat = 0 := by
      rw [Format.targetExponent, totalExponent]
      omega
    rw [shiftToTargetExponent_eq hshift, Nat.cast_zero, add_zero]
    exact ⟨rfl, hlt, low, full⟩
  · have hshift : (f.targetExponent (totalExponent (2 ^ f.mantissaBits) t) - t).toNat = 1 := by
      rw [Format.targetExponent, totalExponent, Nat.log2_two_pow]
      omega
    have hhalf : 2 ^ f.mantissaBits / 2 = 2 ^ f.mantissaBitsWithoutImplicit := by
      rw [hW, pow_succ, Nat.mul_div_cancel _ two_pos]
    have hmantissa : (ExtendedMantissa.ofMantissaAndAccuracy (2 ^ f.mantissaBits) .exact >>>
        1).mantissa = 2 ^ f.mantissaBitsWithoutImplicit := hhalf
    simp only [shiftToTargetExponent_eq hshift, hmantissa]
    refine ⟨?_, Nat.pow_lt_pow_right one_lt_two (by omega), by omega, .inr le_rfl⟩
    rw [hW, pow_succ, zpow_add₀ two_ne_zero]
    push_cast
    ring

theorem Holds.between {accuracy : Accuracy} {y : ℚ}
    (h : Holds (.ofMantissaAndAccuracy m accuracy) y) : m ≤ y ∧ y < m + 1 := by
  have hmantissa : (ExtendedMantissa.ofMantissaAndAccuracy m accuracy).mantissa = m := by
    cases accuracy with
    | exact => rfl
    | inexact order => cases order <;> rfl
  obtain ⟨rest, rfl, hrest, hlt, -⟩ := h
  rw [hmantissa]
  split <;> constructor <;> linarith

/-- A number lies between two powers of two, which its mantissa tells. -/
theorem Holds.magnitude {accuracy : Accuracy}
    (h : Holds (.ofMantissaAndAccuracy m accuracy) (x / 2 ^ e)) :
    0 ≤ x ∧ (0 < m → (2 ^ m.log2 * 2 ^ e : ℚ) ≤ x) ∧ x < (2 ^ (m.log2 + 1) * 2 ^ e : ℚ) := by
  have hunit : (0 : ℚ) < 2 ^ e := by positivity
  obtain ⟨hlow, hhigh⟩ := h.between
  rw [le_div_iff₀ hunit] at hlow
  rw [div_lt_iff₀ hunit] at hhigh
  refine ⟨le_trans (by positivity) hlow, fun pos => le_trans ?_ hlow, hhigh.trans_le ?_⟩
  · have hlog : (2 ^ m.log2 : ℚ) ≤ m := by exact_mod_cast Nat.log2_self_le pos.ne'
    gcongr
  · have hlog : (m + 1 : ℚ) ≤ 2 ^ (m.log2 + 1) := by exact_mod_cast Nat.lt_log2_self (n := m)
    gcongr

/-- The first shift leaves as many bits as the format has, or one more. -/
theorem shiftRight_nearest {accuracy : Accuracy} {d : ℕ}
    (holds : Holds (.ofMantissaAndAccuracy m accuracy) (x / 2 ^ e))
    (ht : f.targetExponent (totalExponent m e) = t) (hd : e + d = t) :
    let k := (ExtendedMantissa.ofMantissaAndAccuracy m accuracy >>> d).roundedMantissa
    Nearest f x (k * 2 ^ t) ∧ k ≤ 2 ^ f.mantissaBits ∧
      (t = f.minExponent ∨ 2 ^ f.mantissaBitsWithoutImplicit ≤ k) := by
  intro k
  have hunit : (0 : ℚ) < 2 ^ t := by positivity
  have htarget : t = max ((m.log2 : ℤ) + 1 + e - f.mantissaBits) f.minExponent := ht.symm
  have hW := mantissaBits_eq f
  obtain ⟨hpos, hlow, hhigh⟩ := holds.magnitude
  have hunits (n : ℕ) : (2 ^ n * 2 ^ t : ℚ) = 2 ^ (n + d) * 2 ^ e := by
    rw [← hd, zpow_add₀ two_ne_zero, zpow_natCast, pow_add]
    ring
  have hround : IsRound (x / 2 ^ t) k := by
    have hshift := (holds.shiftRight d).isRound
    rwa [div_div, ← zpow_natCast, ← zpow_add₀ two_ne_zero, hd] at hshift
  have hfine : t = f.minExponent ∨ (2 ^ f.mantissaBitsWithoutImplicit * 2 ^ t : ℚ) ≤ x := by
    rcases Nat.eq_zero_or_pos m with rfl | pos
    · have hW := f.hm
      rw [Nat.log2_zero] at htarget
      exact .inl (by omega)
    refine (le_total ((m.log2 : ℤ) + 1 + e - f.mantissaBits) f.minExponent).imp
      (fun hle => by omega) fun hle => ?_
    have hlog : f.mantissaBitsWithoutImplicit + d = m.log2 := by omega
    rw [hunits, hlog]
    exact hlow pos
  refine ⟨nearest_of_isRound hpos hround hfine, ?_, hfine.imp_right fun hle => ?_⟩
  · refine hround.ceil _ ((div_le_iff₀ hunit).mpr (hhigh.le.trans ?_))
    push_cast
    rw [hunits]
    have hle : m.log2 + 1 ≤ f.mantissaBits + d := by omega
    gcongr
    exact one_le_two
  · refine hround.floor _ ?_
    rw [le_div_iff₀ hunit]
    exact_mod_cast hle

/-- A mantissa with two more bits is rounded to a nearest number of the format. -/
theorem roundWithAccuracy_nearest (s : Sign) {accuracy : Accuracy}
    (holds : Holds (.ofMantissaAndAccuracy m accuracy) (x / 2 ^ e))
    (room : e ≤ f.targetExponent (totalExponent m e)) :
    Canonical f (roundWithAccuracy f s m e accuracy) ∧
      ∃ q, value (roundWithAccuracy f s m e accuracy) = of (signed s q) ∧ Nearest f x q := by
  obtain ⟨t, ht⟩ : ∃ t, f.targetExponent (totalExponent m e) = t := ⟨_, rfl⟩
  obtain ⟨d, hd⟩ : ∃ d : ℕ, e + d = t := ⟨(t - e).toNat, by omega⟩
  have hlow : f.minExponent ≤ t := (le_max_right _ _).trans_eq ht
  have hfirst : shiftToTargetExponent f m e accuracy = (_, e + (d : ℤ)) :=
    shiftToTargetExponent_eq (by omega)
  obtain ⟨hnearest, hbits, hfull⟩ := shiftRight_nearest holds ht hd
  rw [hd] at hfirst
  rw [roundWithAccuracy, hfirst]
  dsimp only
  generalize (ExtendedMantissa.ofMantissaAndAccuracy m accuracy >>> d).roundedMantissa = k
    at hnearest hbits hfull ⊢
  -- The second shift makes up for a carry.
  obtain ⟨hvalue, hmade⟩ := shiftToTargetExponent_exact hbits hlow hfull
  rw [← hvalue] at hnearest
  split
  · next hzero =>
      rw [hzero, Nat.cast_zero, zero_mul] at hnearest
      refine ⟨trivial, 0, ?_, hnearest⟩
      cases s
      · exact congrArg of neg_zero.symm
      · rfl
  · exact ⟨hmade, _, rfl, hnearest⟩

theorem decreaseExponent_value (m : ℕ) (e t : ℤ) :
    ((decreaseExponent m e t).1 * 2 ^ (decreaseExponent m e t).2 : ℚ) = m * 2 ^ e := by
  show ((m <<< (e - t).toNat : ℕ) * 2 ^ (e - ((e - t).toNat : ℤ)) : ℚ) = _
  rw [Nat.shiftLeft_eq, zpow_sub₀ two_ne_zero, zpow_natCast]
  push_cast
  field_simp

theorem log2_shiftLeft (pos : 0 < m) (d : ℕ) : (m <<< d).log2 = m.log2 + d := by
  have hlow := Nat.log2_self_le pos.ne'
  have hhigh := Nat.lt_log2_self (n := m)
  rw [Nat.shiftLeft_eq, Nat.log2_eq_iff (by positivity), add_right_comm, pow_add, pow_add]
  exact ⟨Nat.mul_le_mul_right _ hlow, Nat.mul_lt_mul_of_pos_right hhigh (by positivity)⟩

/-- A number is rounded to a nearest number of the format. -/
theorem round_nearest (s : Sign) (pos : 0 < m) :
    Canonical f (round f s m e) ∧
      ∃ q, value (round f s m e) = of (signed s q) ∧ Nearest f (m * 2 ^ e) q := by
  obtain ⟨t, ht⟩ : ∃ t, f.targetExponent (totalExponent m e) = t := ⟨_, rfl⟩
  have hround : round f s m e = roundWithAccuracy f s (m <<< (e - t).toNat)
      (e - ((e - t).toNat : ℤ)) .exact := by
    rw [← ht]
    rfl
  rw [hround, ← decreaseExponent_value m e t]
  refine roundWithAccuracy_nearest s ?_ ?_
  · show Holds _ (((m <<< (e - t).toNat : ℕ) * 2 ^ (e - ((e - t).toNat : ℤ)) : ℚ) / _)
    rw [mul_div_cancel_right₀ _ (by positivity)]
    exact holds_exact _
  · have htotal : totalExponent (m <<< (e - t).toNat) (e - ((e - t).toNat : ℤ)) =
        totalExponent m e := by
      rw [totalExponent, totalExponent, log2_shiftLeft pos]
      omega
    rw [htotal, ht]
    omega

/-- What an operation makes of an exact result. -/
def Gives (f : Format) (x : Exact) (u : UnpackedFloat) : Prop :=
  Canonical f u ∧
    match x with
    | of x => ∃ q, value u = of q ∧ Nearest f x q
    | infinite negative => value u = infinite negative
    | undefined => value u = undefined

/-- A number is given as it is. -/
theorem Canonical.gives (h : Canonical f u) : Gives f (value u) u := by
  refine ⟨h, ?_⟩
  cases u with
  | notANumber | infinity => rfl
  | zero => exact ⟨0, rfl, .refl f 0⟩
  | finite s m e => exact ⟨_, rfl, .refl f _⟩

theorem Gives.of_signed (h : Canonical f u ∧ ∃ q, value u = of (signed s q) ∧ Nearest f x q) :
    Gives f (of (signed s x)) u := by
  obtain ⟨hcanonical, q, hq, hnearest⟩ := h
  exact ⟨hcanonical, _, hq, nearest_signed hnearest s⟩

/-! ## Operations -/

variable {a b : UnpackedFloat}

theorem normalize_gives (n : ℤ) (e : ℤ) (s : Sign) :
    Gives f (of (n * 2 ^ e)) (UnpackedFloat.normalize f n e s) := by
  have hcast (n : ℕ) : ((n : ℤ) : ℚ) = n := Int.cast_natCast n
  unfold UnpackedFloat.normalize
  split
  · next hlt =>
      obtain ⟨m, hm⟩ := Int.eq_ofNat_of_zero_le (neg_nonneg.mpr (Int.compare_eq_lt.mp hlt).le)
      have hpos : 0 < m := by
        have := Int.compare_eq_lt.mp hlt
        omega
      have hn : (n * 2 ^ e : ℚ) = signed .negative (m * 2 ^ e) := by
        rw [← neg_neg n, hm, signed]
        push_cast
        ring
      rw [hm, hn]
      exact .of_signed (round_nearest .negative hpos)
  · next heq =>
      rw [Int.compare_eq_eq.mp heq, Int.cast_zero, zero_mul]
      exact ⟨trivial, 0, rfl, .refl f 0⟩
  · next hgt =>
      have hpos := Int.compare_eq_gt.mp hgt
      obtain ⟨m, rfl⟩ := Int.eq_ofNat_of_zero_le hpos.le
      exact .of_signed (s := .positive) (round_nearest .positive (by omega))

theorem signed_decreaseExponent (s : Sign) (m : ℕ) (le : t ≤ e) :
    ((s.apply (decreaseExponent m e t).1 : ℤ) * 2 ^ t : ℚ) = signed s (m * 2 ^ e) := by
  have hexponent : (decreaseExponent m e t).2 = t := by
    show e - ((e - t).toNat : ℤ) = t
    omega
  have hvalue := decreaseExponent_value m e t
  rw [hexponent] at hvalue
  cases s with
  | negative =>
      rw [Sign.apply, signed, ← hvalue]
      push_cast
      ring
  | positive => exact hvalue

/-- A sum is rounded. -/
theorem add_gives (ha : Canonical f a) (hb : Canonical f b) :
    Gives f (value a + value b) (UnpackedFloat.add f a b) := by
  cases a with
  | notANumber => cases b <;> exact ⟨trivial, rfl⟩
  | infinity s =>
      cases b with
      | infinity s' => cases s <;> cases s' <;> exact ⟨trivial, rfl⟩
      | notANumber | zero | finite => exact ⟨trivial, rfl⟩
  | zero s =>
      cases b with
      | notANumber | infinity => exact ⟨trivial, rfl⟩
      | zero s' => cases s <;> cases s' <;> exact ⟨trivial, 0, rfl, by simpa using .refl f 0⟩
      | finite s' m' e' =>
          show Gives f (of (0 + signed s' (m' * 2 ^ e'))) _
          rw [zero_add]
          exact hb.gives
  | finite s m e =>
      cases b with
      | notANumber | infinity => exact ⟨trivial, rfl⟩
      | zero =>
          show Gives f (of (signed s (m * 2 ^ e) + 0)) _
          rw [add_zero]
          exact ha.gives
      | finite s' m' e' =>
          show Gives f (of (signed s (m * 2 ^ e) + signed s' (m' * 2 ^ e'))) _
          rw [← signed_decreaseExponent s m (min_le_left e e'),
            ← signed_decreaseExponent s' m' (min_le_right e e'), ← add_mul, ← Int.cast_add]
          exact normalize_gives _ _ _

/-! ### Products -/

theorem minExponent_nonpos (f : Format) : f.minExponent ≤ 0 := by
  have hp : (1 : ℤ) ≤ 2 ^ (f.exponentBits - 1) := one_le_pow₀ one_le_two
  have hW := f.hm
  rw [Format.minExponent, mantissaBits_eq]
  push_cast
  omega

theorem signed_mul (s s' : Sign) (x y : ℚ) :
    signed (s * s') (x * y) = signed s x * signed s' y := by
  cases s <;> cases s' <;> show _ = _ * _ <;> simp [signed]

theorem negative_mul (s s' : Sign) : negative (s * s') = (negative s != negative s') := by
  cases s <;> cases s' <;> rfl

theorem signed_ne_zero (pos : 0 < x) (s : Sign) : signed s x ≠ 0 := by
  cases s with
  | negative => exact neg_ne_zero.mpr pos.ne'
  | positive => exact pos.ne'

theorem decide_signed_neg (pos : 0 < x) (s : Sign) : decide (signed s x < 0) = negative s := by
  cases s with
  | negative => exact decide_eq_true (neg_neg_of_pos pos)
  | positive => exact decide_eq_false pos.not_gt

theorem scale_signed (pos : 0 < x) (n : Bool) (s : Sign) :
    scale n (signed s x) = infinite (n != negative s) := by
  rw [scale, if_neg (signed_ne_zero pos s), decide_signed_neg pos]

/-- A product has as many bits as one of its factors, unless both are of the least unit. -/
theorem mul_room {s s' : Sign} {m m' : ℕ} {e e' : ℤ} {hm : 0 < m} {hm' : 0 < m'}
    (ha : Canonical f (.finite s m e hm)) (hb : Canonical f (.finite s' m' e' hm')) :
    e + e' ≤ f.targetExponent (totalExponent (m * m') (e + e')) := by
  have hW := mantissaBits_eq f
  have hmin := minExponent_nonpos f
  rw [Format.targetExponent, totalExponent]
  by_cases hfull : 2 ^ f.mantissaBitsWithoutImplicit ≤ m * m'
  · have hlog := (Nat.le_log2 (Nat.mul_pos hm hm').ne').mpr hfull
    omega
  · have he := ha.2.2.resolve_right fun h => hfull (h.trans (Nat.le_mul_of_pos_right m hm'))
    have he' := hb.2.2.resolve_right fun h => hfull (h.trans (Nat.le_mul_of_pos_left m' hm))
    omega

/-- A product is rounded. -/
theorem mul_gives (ha : Canonical f a) (hb : Canonical f b) :
    Gives f (value a * value b) (UnpackedFloat.mul f a b) := by
  cases a with
  | notANumber => cases b <;> exact ⟨trivial, rfl⟩
  | infinity s =>
      cases b with
      | notANumber => exact ⟨trivial, rfl⟩
      | infinity s' => exact ⟨trivial, congrArg infinite (negative_mul s s')⟩
      | zero s' =>
          show Gives f (scale (negative s) 0) .notANumber
          rw [scale, if_pos rfl]
          exact ⟨trivial, rfl⟩
      | finite s' m e hm =>
          show Gives f (scale (negative s) (signed s' (m * 2 ^ e))) _
          rw [scale_signed (by positivity)]
          exact ⟨trivial, congrArg infinite (negative_mul s s')⟩
  | zero s =>
      cases b with
      | notANumber => exact ⟨trivial, rfl⟩
      | infinity s' =>
          show Gives f (scale (negative s') 0) .notANumber
          rw [scale, if_pos rfl]
          exact ⟨trivial, rfl⟩
      | zero s' => exact ⟨trivial, 0, rfl, by simpa using .refl f 0⟩
      | finite s' m e =>
          show Gives f (of (0 * signed s' (m * 2 ^ e))) _
          rw [zero_mul]
          exact ⟨trivial, 0, rfl, .refl f 0⟩
  | finite s m e hm =>
      cases b with
      | notANumber => exact ⟨trivial, rfl⟩
      | infinity s' =>
          show Gives f (scale (negative s') (signed s (m * 2 ^ e))) _
          rw [scale_signed (by positivity)]
          refine ⟨trivial, congrArg infinite ?_⟩
          rw [negative_mul, bne_comm]
      | zero s' =>
          show Gives f (of (signed s (m * 2 ^ e) * 0)) _
          rw [mul_zero]
          exact ⟨trivial, 0, rfl, .refl f 0⟩
      | finite s' m' e' hm' =>
          show Gives f (of (signed s (m * 2 ^ e) * signed s' (m' * 2 ^ e'))) _
          rw [← signed_mul]
          refine .of_signed (roundWithAccuracy_nearest _ ?_ (mul_room ha hb))
          have hexact : ((m * 2 ^ e * (m' * 2 ^ e') : ℚ) / 2 ^ (e + e')) = (m * m' : ℕ) := by
            rw [zpow_add₀ two_ne_zero]
            push_cast
            field_simp
          rw [hexact]
          exact holds_exact _

/-! ### Quotients -/

/-- The dividend is made longer by so many bits that the quotient has enough of them. -/
theorem divCore_eq (f : Format) (m : ℕ) (e : ℤ) (k : ℕ) (e' : ℤ) : ∃ (t : ℤ) (d : ℕ),
    divCore f m e k e' = ((m <<< d) / k, t, accuracyOfFraction ((m <<< d) % k) k) ∧
      t = min (e - e') (f.targetExponent (totalExponent m e - totalExponent k e')) ∧
      t + d = e - e' := by
  obtain ⟨t, ht⟩ :
    ∃ t, min (e - e') (f.targetExponent (totalExponent m e - totalExponent k e')) = t := ⟨_, rfl⟩
  refine ⟨t, (e - e' - t).toNat, ?_, ht.symm, by omega⟩
  rw [← ht]
  rfl

/-- A quotient has as many bits as a number of the format, unless its unit is the least one. -/
theorem div_room {d : ℕ} {e' : ℤ} (hm : 0 < m) (hk : 0 < k)
    (ht : t = min (e - e') (f.targetExponent (totalExponent m e - totalExponent k e')))
    (hd : t + d = e - e') : t ≤ f.targetExponent (totalExponent ((m <<< d) / k) t) := by
  have hW := mantissaBits_eq f
  rw [Format.targetExponent, totalExponent, totalExponent] at ht
  rw [Format.targetExponent, totalExponent]
  by_cases hmin : t ≤ f.minExponent
  · exact hmin.trans (le_max_right _ _)
  have hlog : k.log2 + 1 + f.mantissaBitsWithoutImplicit ≤ m.log2 + d := by omega
  have hfull : 2 ^ f.mantissaBitsWithoutImplicit ≤ (m <<< d) / k := by
    rw [Nat.le_div_iff_mul_le hk, Nat.shiftLeft_eq]
    calc 2 ^ f.mantissaBitsWithoutImplicit * k
        ≤ 2 ^ f.mantissaBitsWithoutImplicit * 2 ^ (k.log2 + 1) :=
          Nat.mul_le_mul_left _ Nat.lt_log2_self.le
      _ = 2 ^ (k.log2 + 1 + f.mantissaBitsWithoutImplicit) := by rw [← pow_add, add_comm]
      _ ≤ 2 ^ (m.log2 + d) := Nat.pow_le_pow_right two_pos hlog
      _ = 2 ^ m.log2 * 2 ^ d := pow_add _ _ _
      _ ≤ m * 2 ^ d := Nat.mul_le_mul_right _ (Nat.log2_self_le hm.ne')
  have hquotient : (m <<< d) / k ≠ 0 := (lt_of_lt_of_le (by positivity) hfull).ne'
  have hbits := (Nat.le_log2 hquotient).mpr hfull
  omega

theorem signed_div (s s' : Sign) (x y : ℚ) :
    signed (s / s') (x / y) = signed s x / signed s' y := by
  cases s <;> cases s'
  · exact (neg_div_neg_eq x y).symm
  · exact (neg_div y x).symm
  · exact (div_neg x).symm
  · rfl

theorem negative_div (s s' : Sign) : negative (s / s') = (negative s != negative s') := by
  cases s <;> cases s' <;> rfl

theorem finite_div_gives (s s' : Sign) (hm : 0 < m) (hk : 0 < k) (e e' : ℤ) :
    Gives f (of (signed s (m * 2 ^ e) / signed s' (k * 2 ^ e')))
      (UnpackedFloat.div f (.finite s m e hm) (.finite s' k e' hk)) := by
  obtain ⟨t, d, hcore, ht, hd⟩ := divCore_eq f m e k e'
  have hdiv : UnpackedFloat.div f (.finite s m e hm) (.finite s' k e' hk) =
      roundWithAccuracy f (s / s') ((m <<< d) / k) t (accuracyOfFraction ((m <<< d) % k) k) := by
    rw [UnpackedFloat.div, hcore]
  rw [hdiv, ← signed_div]
  refine .of_signed (roundWithAccuracy_nearest _ ?_ (div_room hm hk ht hd))
  have hquotient : (m * 2 ^ e / (k * 2 ^ e') / 2 ^ t : ℚ) = (m <<< d : ℕ) / k := by
    have hexponent : e = t + d + e' := by omega
    rw [Nat.shiftLeft_eq, hexponent, zpow_add₀ two_ne_zero, zpow_add₀ two_ne_zero, zpow_natCast]
    push_cast
    field_simp
  rw [hquotient]
  exact holds_quotient _ hk

/-- A quotient is rounded, unless the divisor is zero. -/
theorem div_gives (hb : value b ≠ of 0) :
    Gives f (value a / value b) (UnpackedFloat.div f a b) := by
  have hzero (s : Sign) : Gives f (of 0) (.zero s) := ⟨trivial, 0, rfl, .refl f 0⟩
  cases b with
  | notANumber => cases a <;> exact ⟨trivial, rfl⟩
  | zero => exact absurd rfl hb
  | infinity s' =>
      cases a with
      | notANumber | infinity => exact ⟨trivial, rfl⟩
      | zero | finite => exact hzero _
  | finite s' k e' hk =>
      have hpos : (0 : ℚ) < k * 2 ^ e' := by positivity
      cases a with
      | notANumber => exact ⟨trivial, rfl⟩
      | infinity s =>
          show Gives f (infinite (negative s != decide (signed s' (k * 2 ^ e') < 0))) _
          rw [decide_signed_neg hpos]
          exact ⟨trivial, congrArg infinite (negative_div s s')⟩
      | zero s =>
          show Gives f (of 0 / of (signed s' (k * 2 ^ e'))) _
          rw [of_div_of _ (signed_ne_zero hpos s'), zero_div]
          exact hzero _
      | finite s m e hm =>
          show Gives f (of (signed s (m * 2 ^ e)) / of (signed s' (k * 2 ^ e'))) _
          rw [of_div_of _ (signed_ne_zero hpos s')]
          exact finite_div_gives s s' hm hk e e'

/-! ## Order -/

/-- Of two canonical numbers, the one with the larger exponent is the larger one. -/
theorem lt_of_exponent_lt {m' : ℕ} {e' : ℤ} {hm : 0 < m} {hm' : 0 < m'}
    (ha : Canonical f (.finite s m e hm)) (hb : Canonical f (.finite s m' e' hm')) (lt : e < e') :
    (m * 2 ^ e : ℚ) < m' * 2 ^ e' := by
  have hlow := ha.2.1
  have hbits : (m : ℚ) < 2 ^ f.mantissaBits := by exact_mod_cast ha.1
  have hfull : (2 ^ f.mantissaBitsWithoutImplicit : ℚ) ≤ m' := by
    exact_mod_cast hb.2.2.resolve_left (by omega)
  have hstep : (2 : ℚ) ^ (e + 1) ≤ 2 ^ e' := zpow_le_zpow_right₀ one_le_two (by omega)
  calc (m * 2 ^ e : ℚ) < 2 ^ f.mantissaBits * 2 ^ e := by gcongr
    _ = 2 ^ f.mantissaBitsWithoutImplicit * 2 ^ (e + 1) := by
      rw [mantissaBits_eq, pow_succ, zpow_add₀ two_ne_zero]
      ring
    _ ≤ m' * 2 ^ e' := by gcongr

/-- Magnitudes are compared by their exponents first. -/
theorem compare_magnitude {m' : ℕ} {e' : ℤ} {hm : 0 < m} {hm' : 0 < m'}
    (ha : Canonical f (.finite s m e hm)) (hb : Canonical f (.finite s m' e' hm')) :
    (compare e e').then (compare m m') = compare (m * 2 ^ e : ℚ) (m' * 2 ^ e') := by
  rcases lt_trichotomy e e' with hlt | rfl | hgt
  · rw [compare_lt_iff_lt.mpr hlt, compare_lt_iff_lt.mpr (lt_of_exponent_lt ha hb hlt)]
    rfl
  · have hunit : (0 : ℚ) < 2 ^ e := by positivity
    rw [compare_eq_iff_eq.mpr rfl]
    show compare m m' = _
    rcases lt_trichotomy m m' with hlt | rfl | hgt
    · have hcast : (m : ℚ) < m' := by exact_mod_cast hlt
      rw [compare_lt_iff_lt.mpr hlt, compare_lt_iff_lt.mpr (by gcongr)]
    · rw [compare_eq_iff_eq.mpr rfl, compare_eq_iff_eq.mpr rfl]
    · have hcast : (m' : ℚ) < m := by exact_mod_cast hgt
      rw [compare_gt_iff_gt.mpr hgt, compare_gt_iff_gt.mpr (by gcongr)]
  · rw [compare_gt_iff_gt.mpr hgt, compare_gt_iff_gt.mpr (lt_of_exponent_lt hb ha hgt)]
    rfl

/-- How two exact numbers compare. -/
def order : Exact → Exact → Option Ordering
  | of p, of q => some (compare p q)
  | infinite s, infinite t => some (compare t s)
  | infinite s, of _ => some (if s then .lt else .gt)
  | of _, infinite t => some (if t then .gt else .lt)
  | undefined, _ => none
  | _, undefined => none

theorem compare_neg (x y : ℚ) : compare (-x) (-y) = (compare x y).swap := by
  rcases lt_trichotomy x y with hlt | rfl | hgt
  · rw [compare_lt_iff_lt.mpr hlt, compare_gt_iff_gt.mpr (neg_lt_neg hlt)]
    rfl
  · rw [compare_eq_iff_eq.mpr rfl, compare_eq_iff_eq.mpr rfl]
    rfl
  · rw [compare_gt_iff_gt.mpr hgt, compare_lt_iff_lt.mpr (neg_lt_neg hgt)]
    rfl

theorem signed_neg (pos : 0 < x) : signed .negative x < 0 := neg_neg_of_pos pos

/-- Canonical numbers compare as the exact ones. -/
theorem compare_eq (ha : Canonical f a) (hb : Canonical f b) :
    UnpackedFloat.compare a b = order (value a) (value b) := by
  cases a with
  | notANumber => cases b <;> rfl
  | infinity s =>
      cases b with
      | infinity s' => cases s <;> cases s' <;> rfl
      | notANumber | zero | finite => cases s <;> rfl
  | zero =>
      cases b with
      | notANumber => rfl
      | infinity s' => cases s' <;> rfl
      | zero => exact congrArg some (compare_eq_iff_eq.mpr rfl).symm
      | finite s' m' e' hm' =>
          have hpos : (0 : ℚ) < m' * 2 ^ e' := by positivity
          cases s' with
          | negative => exact congrArg some (compare_gt_iff_gt.mpr (signed_neg hpos)).symm
          | positive => exact congrArg some (compare_lt_iff_lt.mpr hpos).symm
  | finite s m e hm =>
      have hpos : (0 : ℚ) < m * 2 ^ e := by positivity
      cases b with
      | notANumber => cases s <;> rfl
      | infinity s' => cases s <;> cases s' <;> rfl
      | zero =>
          cases s with
          | negative => exact congrArg some (compare_lt_iff_lt.mpr (signed_neg hpos)).symm
          | positive => exact congrArg some (compare_gt_iff_gt.mpr hpos).symm
      | finite s' m' e' hm' =>
          have hpos' : (0 : ℚ) < m' * 2 ^ e' := by positivity
          cases s with
          | negative =>
              cases s' with
              | negative =>
                  show some ((compare e e').then (compare m m')).swap = _
                  rw [compare_magnitude ha hb, ← compare_neg]
                  rfl
              | positive =>
                  exact congrArg some (compare_lt_iff_lt.mpr ((signed_neg hpos).trans hpos')).symm
          | positive =>
              cases s' with
              | negative =>
                  exact congrArg some (compare_gt_iff_gt.mpr ((signed_neg hpos').trans hpos)).symm
              | positive => exact congrArg some (compare_magnitude ha hb)

theorem less_iff {x y : Exact} : less x y = true ↔ order x y = some .lt := by
  cases x with
  | of p =>
      cases y with
      | of q => simp [less, order, compare_lt_iff_lt]
      | infinite t => cases t <;> simp [less, order]
      | undefined => simp [less, order]
  | infinite s =>
      cases y with
      | of q => cases s <;> simp [less, order]
      | infinite t => cases s <;> cases t <;> decide
      | undefined => simp [less, order]
  | undefined => simp [less, order]

theorem eq_iff {x y : Exact} : x = y ∧ x ≠ undefined ↔ order x y = some .eq := by
  cases x with
  | of p =>
      cases y with
      | of q => simp [order]
      | infinite t => cases t <;> simp [order]
      | undefined => simp [order]
  | infinite s =>
      cases y with
      | of q => cases s <;> simp [order]
      | infinite t => cases s <;> cases t <;> decide
      | undefined => simp [order]
  | undefined => simp [order]

theorem lt_iff (ha : Canonical f a) (hb : Canonical f b) :
    UnpackedFloat.lt a b = true ↔ value a < value b := by
  rw [UnpackedFloat.lt, compare_eq ha hb, beq_iff_eq]
  exact less_iff.symm

theorem le_iff (ha : Canonical f a) (hb : Canonical f b) :
    UnpackedFloat.le a b = true ↔ value a ≤ value b := by
  show _ ↔ less (value a) (value b) = true ∨ value a = value b ∧ value a ≠ undefined
  rw [UnpackedFloat.le, compare_eq ha hb, less_iff, eq_iff]
  generalize order (value a) (value b) = o
  cases o with
  | none => simp
  | some o => cases o <;> decide

end Trellis.Binary
