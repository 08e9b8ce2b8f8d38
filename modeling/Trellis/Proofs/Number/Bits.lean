import Trellis.Proofs.Number.Binary
import Trellis.Proofs.Number.Product

/-!
# Numbers written to bits

A number of a format is kept as bits. What is read from bits is a number of the format again, and a
number that is written is read as it was, unless it is too large. So arithmetic on bits is exact
arithmetic, rounded once.

* `Binary.Fits` — the finite numbers of a format.
* `Binary.Rounded` — what an exact number becomes in a format; `Binary.Rounded.neg` says that this
  does not depend on the sign.
* `Binary.unpack_pack` — what is written to bits can be read again, unless it is out of bounds.
* `Binary.Gives.rounded` — results of operations, written and read.
-/

namespace Trellis.Binary

open Float.Model hiding pack unpack
open UnpackedFloat Exact

variable {f : Format} {s : Sign} {u : UnpackedFloat} {q x : ℚ} {m : ℕ} {e : ℤ}

/-! ## Bounds -/

/-- The largest exponent of a finite number. -/
def maxExponent (f : Format) : ℤ := f.exponentBias - f.mantissaBitsWithoutImplicit

/-- What a number becomes that has been written to bits. -/
def limited (f : Format) : UnpackedFloat → UnpackedFloat
  | .finite s m e pos => if e ≤ maxExponent f then .finite s m e pos else .infinity s
  | u => u

/-- The first number that is too large for a format. -/
def overflow (f : Format) : ℚ := 2 ^ f.mantissaBits * 2 ^ maxExponent f

/-- The finite numbers of a format. -/
structure Fits (f : Format) (q : ℚ) : Prop where
  grid : Grid f q
  bound : |q| < overflow f

theorem Fits.neg (h : Fits f q) : Fits f (-q) := ⟨h.grid.neg, by rw [abs_neg]; exact h.bound⟩

theorem minExponent_eq (f : Format) :
    f.minExponent = 1 - f.exponentBias - f.mantissaBitsWithoutImplicit := by
  have hp : 1 ≤ 2 ^ (f.exponentBits - 1) := Nat.one_le_two_pow
  rw [Format.minExponent, Format.exponentBias, mantissaBits_eq, Nat.cast_sub hp]
  push_cast
  ring

theorem two_pow_exponentBits (f : Format) : 2 ^ f.exponentBits = 2 * f.exponentBias + 2 := by
  have hp : 1 ≤ 2 ^ (f.exponentBits - 1) := Nat.one_le_two_pow
  have hbits : f.exponentBits = f.exponentBits - 1 + 1 := (Nat.sub_add_cancel f.he).symm
  rw [Format.exponentBias]
  conv_lhs => rw [hbits, pow_succ]
  omega

theorem abs_signed (s : Sign) (q : ℚ) : |signed s q| = |q| := by
  cases s with
  | negative => exact abs_neg q
  | positive => rfl

/-! ## Reading what has been written -/

theorem zero_ne_ones (f : Format) : 0#f.exponentBits ≠ -1#_ :=
  fun h => f.he.ne' (BitVec.zero_eq_neg_one_iff.mp h)

/-- The bit that is not written is the highest one. -/
theorem implicit_toNat {n : ℕ} (mantissa : BitVec n) :
    (1#1 ++ mantissa).toNat = 2 ^ n + mantissa.toNat := by
  rw [BitVec.toNat_append, ← Nat.shiftLeft_add_eq_or_of_lt mantissa.isLt, Nat.shiftLeft_eq]
  simp

theorem unpack_packedInfinity (s : Sign) : unpack f (packedInfinity f s) = .infinity s := by
  rw [packedInfinity]
  simp only [unpack, unpackMantissa_packComponents, unpackExponent_packComponents,
    unpackSign_packComponents, Sign.ofBitVec_toBitVec, if_true]
  rfl

theorem unpack_subnormal (s : Sign) (pos : 0 < m) (lt : m < 2 ^ f.mantissaBitsWithoutImplicit) :
    unpack f (packComponents f s 0#_ (.ofNat _ m)) = .finite s m f.minExponent pos := by
  have hm : (BitVec.ofNat f.mantissaBitsWithoutImplicit m).toNat = m := by
    rw [BitVec.toNat_ofNat, Nat.mod_eq_of_lt lt]
  have hne : BitVec.ofNat f.mantissaBitsWithoutImplicit m ≠ 0#_ := by
    intro h
    rw [h, BitVec.toNat_ofNat, Nat.zero_mod] at hm
    exact pos.ne hm
  have hexponent : ((0#f.exponentBits).toNat : ℤ) -
      (f.exponentBias + f.mantissaBitsWithoutImplicit) + 1 = f.minExponent := by
    rw [minExponent_eq, BitVec.toNat_ofNat, Nat.zero_mod]
    omega
  simp only [unpack, unpackMantissa_packComponents, unpackExponent_packComponents,
    unpackSign_packComponents, Sign.ofBitVec_toBitVec, if_neg (zero_ne_ones f), if_true,
    dif_neg hne, hm, hexponent]

theorem unpack_normal (s : Sign) {k : ℕ} (pos : 0 < m) (bits : m < 2 ^ f.mantissaBits)
    (full : 2 ^ f.mantissaBitsWithoutImplicit ≤ m) (hpos : 0 < k)
    (lt : k + 1 < 2 ^ f.exponentBits) :
    unpack f (packComponents f s (.ofNat _ k) (.ofNat _ m)) =
      .finite s m (k - (f.exponentBias + f.mantissaBitsWithoutImplicit)) pos := by
  have hk : (BitVec.ofNat f.exponentBits k).toNat = k := by
    rw [BitVec.toNat_ofNat, Nat.mod_eq_of_lt (by omega)]
  have hzero : BitVec.ofNat f.exponentBits k ≠ 0#_ := by
    intro h
    rw [h, BitVec.toNat_ofNat, Nat.zero_mod] at hk
    omega
  have hones : BitVec.ofNat f.exponentBits k ≠ -1#_ := by
    intro h
    rw [h, BitVec.neg_one_eq_allOnes, BitVec.toNat_allOnes] at hk
    omega
  have hm : 2 ^ f.mantissaBitsWithoutImplicit +
      (BitVec.ofNat f.mantissaBitsWithoutImplicit m).toNat = m := by
    rw [mantissaBits_eq, pow_succ] at bits
    rw [BitVec.toNat_ofNat, Nat.mod_eq_sub_mod full, Nat.mod_eq_of_lt (by omega)]
    omega
  simp only [unpack, unpackMantissa_packComponents, unpackExponent_packComponents,
    unpackSign_packComponents, Sign.ofBitVec_toBitVec, if_neg hones, if_neg hzero, implicit_toNat,
    hk, hm]

/-- What is written to bits can be read again, unless it is out of bounds. -/
theorem unpack_pack (h : Canonical f u) : unpack f (pack f u) = limited f u := by
  cases u with
  | notANumber => exact unpack_packedNaN
  | infinity s => exact unpack_packedInfinity s
  | zero s => exact unpack_packedZero
  | finite s m e pos =>
      obtain ⟨hbits, hlow, hfull⟩ := h
      have hmin := minExponent_eq f
      have hcapacity := two_pow_exponentBits f
      obtain ⟨k, hk⟩ : ∃ k : ℕ, e + f.exponentBias + f.mantissaBitsWithoutImplicit = k :=
        Int.eq_ofNat_of_zero_le (by omega)
      rw [pack, hk, Int.toNat_natCast, limited]
      by_cases hle : e ≤ maxExponent f
      · rw [if_pos hle]
        rw [maxExponent] at hle
        rw [if_neg (by omega)]
        by_cases hnormal : 2 ^ f.mantissaBitsWithoutImplicit ≤ m
        · have hlog : m.log2 + 1 = f.mantissaBits := by
            have := (Nat.le_log2 pos.ne').mpr hnormal
            have := (Nat.log2_lt pos.ne').mpr hbits
            have := mantissaBits_eq f
            omega
          have he : e = k - (f.exponentBias + f.mantissaBitsWithoutImplicit) := by omega
          rw [if_pos hlog, unpack_normal s pos hbits hnormal (by omega) (by omega), ← he]
        · have hlog : m.log2 + 1 ≠ f.mantissaBits := by
            have := (Nat.log2_lt pos.ne').mpr (not_le.mp hnormal)
            have := mantissaBits_eq f
            omega
          rw [if_neg hlog, unpack_subnormal s pos (not_le.mp hnormal), hfull.resolve_right hnormal]
      · rw [if_neg hle, if_pos]
        · exact unpack_packedInfinity s
        · rw [maxExponent] at hle
          omega

/-- What is read from bits is a number of the format. -/
theorem canonical_unpack (b : BitVec f.numBits) : Canonical f (unpack f b) := by
  have hmantissa := (unpackMantissa b).isLt
  have hmin := minExponent_eq f
  have hbits : 2 ^ f.mantissaBits = 2 * 2 ^ f.mantissaBitsWithoutImplicit := by
    rw [mantissaBits_eq, pow_succ, mul_comm]
  fun_cases unpack f b with
  | case1 | case2 | case3 => trivial
  | case4 mantissa exponentVec exponent signVec sign hones hzero =>
      have hexponent : exponent + 1 = f.minExponent := by
        show (exponentVec.toNat : ℤ) - _ + 1 = _
        rw [hzero, BitVec.toNat_ofNat, Nat.zero_mod]
        omega
      exact ⟨by omega, hexponent.ge, .inl hexponent⟩
  | case5 mantissa exponentVec exponent signVec sign hones hzero =>
      have hpos : exponentVec.toNat ≠ 0 := fun h => hzero (BitVec.eq_of_toNat_eq (by simpa using h))
      have hlow : f.minExponent ≤ exponent := by
        show _ ≤ (exponentVec.toNat : ℤ) - _
        omega
      refine ⟨?_, hlow, .inr ?_⟩
      · rw [implicit_toNat]
        omega
      · rw [implicit_toNat]
        omega

/-- What is read from bits is within the bounds. -/
theorem limited_unpack (wide : 0 < f.exponentBias) (b : BitVec f.numBits) :
    limited f (unpack f b) = unpack f b := by
  have hcapacity := two_pow_exponentBits f
  fun_cases unpack f b with
  | case1 | case2 | case3 => rfl
  | case4 mantissa exponentVec exponent signVec sign hones hzero =>
      refine if_pos ?_
      show (exponentVec.toNat : ℤ) - _ + 1 ≤ _
      rw [hzero, BitVec.toNat_ofNat, Nat.zero_mod, maxExponent]
      omega
  | case5 mantissa exponentVec exponent signVec sign hones hzero =>
      have hlt : exponentVec.toNat + 1 < 2 ^ f.exponentBits := by
        refine lt_of_le_of_ne exponentVec.isLt fun h => hones (BitVec.eq_of_toNat_eq ?_)
        rw [BitVec.neg_one_eq_allOnes, BitVec.toNat_allOnes]
        omega
      refine if_pos ?_
      show (exponentVec.toNat : ℤ) - _ ≤ _
      rw [maxExponent]
      omega

/-! ## Results -/

/-- Where a number of a format is. For rounding, the infinities are where the finite numbers end. -/
def place (f : Format) : Exact → ℚ
  | of q => q
  | infinite true => -overflow f
  | infinite false => overflow f
  | undefined => 0

/-- A place of a number of the format, or one of the two where the finite numbers end. -/
def IsPlace (f : Format) (v : ℚ) : Prop := Fits f v ∨ |v| = overflow f

/-- What an exact number becomes in a format. No finite number of the format lies between the
two. -/
structure Rounded (f : Format) (x r : Exact) : Prop where
  floor : ∀ v, Fits f v → of v ≤ x → of v ≤ r
  ceil : ∀ v, Fits f v → x ≤ of v → r ≤ of v
  /-- No number of the format is nearer. -/
  near : ∀ p, x = of p → ∀ v, IsPlace f v → |place f r - p| ≤ |v - p|
  close : ∀ p q, x = of p → r = of q →
    2 ^ f.mantissaBitsWithoutImplicit * 2 ^ f.minExponent ≤ |q| → |q - p| * 2 ^ f.mantissaBits ≤ |q|
  kept : (∀ p, x ≠ of p) → r = x

/-- A number of the format stays as it is if it is within the bounds. -/
theorem value_limited (h : Canonical f u) (wide : 0 < f.exponentBias) (hq : value u = of q) :
    (value (limited f u) = of q ∧ Fits f q) ∨
      value (limited f u) = infinite (decide (q < 0)) ∧ overflow f ≤ |q| := by
  have hgrid := h.grid hq
  cases u with
  | notANumber | infinity => cases hq
  | zero =>
      cases hq
      exact .inl ⟨rfl, hgrid, by rw [abs_zero, overflow]; positivity⟩
  | finite s m e pos =>
      cases hq
      have hmagnitude : (0 : ℚ) < m * 2 ^ e := by positivity
      rw [abs_signed, abs_of_pos hmagnitude]
      by_cases hle : e ≤ maxExponent f
      · have hbits : (m : ℚ) < 2 ^ f.mantissaBits := by exact_mod_cast h.1
        have hunit : (2 : ℚ) ^ e ≤ 2 ^ maxExponent f := zpow_le_zpow_right₀ one_le_two hle
        refine .inl ⟨congrArg value (if_pos hle), hgrid, ?_⟩
        rw [abs_signed, abs_of_pos hmagnitude, overflow]
        calc (m * 2 ^ e : ℚ) < 2 ^ f.mantissaBits * 2 ^ e := by gcongr
          _ ≤ _ := by gcongr
      · have hmin := minExponent_eq f
        have hfull : (2 ^ f.mantissaBitsWithoutImplicit : ℚ) ≤ m := by
          refine mod_cast h.2.2.resolve_left fun he => hle ?_
          rw [maxExponent]
          omega
        have hunit : (2 : ℚ) ^ (maxExponent f + 1) ≤ 2 ^ e :=
          zpow_le_zpow_right₀ one_le_two (by omega)
        refine .inr ⟨?_, ?_⟩
        · rw [decide_signed_neg hmagnitude]
          exact congrArg value (if_neg hle)
        · calc overflow f = 2 ^ f.mantissaBitsWithoutImplicit * 2 ^ (maxExponent f + 1) := by
                rw [overflow, mantissaBits_eq, pow_succ, zpow_add₀ two_ne_zero]
                ring
            _ ≤ _ := by gcongr

/-- What is within the bounds fits. -/
theorem Canonical.fits (h : Canonical f u) (wide : 0 < f.exponentBias) (within : limited f u = u)
    (hq : value u = of q) : Fits f q := by
  rcases value_limited h wide hq with ⟨-, hfits⟩ | ⟨hvalue, -⟩
  · exact hfits
  · rw [within, hq] at hvalue
    cases hvalue

theorem overflow_pos (f : Format) : 0 < overflow f := by
  rw [overflow]
  positivity

theorem grid_overflow (f : Format) (wide : 0 < f.exponentBias) : Grid f (overflow f) := by
  have hmin := minExponent_eq f
  refine ⟨2 ^ f.mantissaBitsWithoutImplicit, maxExponent f + 1, ?_, ?_, ?_⟩
  · rw [overflow, mantissaBits_eq, pow_succ, zpow_add₀ two_ne_zero]
    push_cast
    ring
  · rw [abs_of_nonneg (by positivity), mantissaBits_eq]
    exact pow_lt_pow_right₀ one_lt_two (Nat.lt_succ_self _)
  · rw [maxExponent]
    omega

namespace IsPlace

variable {v : ℚ}

theorem grid (h : IsPlace f v) (wide : 0 < f.exponentBias) : Grid f v := by
  rcases h with hfits | hv
  · exact hfits.grid
  · rcases (abs_eq (overflow_pos f).le).mp hv with rfl | rfl
    · exact grid_overflow f wide
    · exact (grid_overflow f wide).neg

theorem abs_le (h : IsPlace f v) : |v| ≤ overflow f := by
  rcases h with hfits | hv
  · exact hfits.bound.le
  · exact hv.le

theorem neg (h : IsPlace f v) : IsPlace f (-v) := by
  rcases h with hfits | hv
  · exact .inl hfits.neg
  · exact .inr (by rw [abs_neg, hv])

end IsPlace

/-- If the nearest number is too large, the end of the finite numbers is as near as any place. -/
theorem Nearest.near_overflow {v : ℚ} (h : Nearest f x q) (wide : 0 < f.exponentBias)
    (large : overflow f ≤ q) (hv : IsPlace f v) : |overflow f - x| ≤ |v - x| := by
  rcases le_total (overflow f) x with hle | hle
  · have hbelow : v ≤ overflow f := (le_abs_self v).trans hv.abs_le
    rw [abs_of_nonpos (by linarith), abs_of_nonpos (by linarith)]
    linarith
  · have hq : q = overflow f := le_antisymm (h.ceil _ (grid_overflow f wide) hle) large
    rw [← hq]
    exact h.near v (hv.grid wide)

theorem Rounded.refl (f : Format) (x : Exact) : Rounded f x x where
  floor _ _ hle := hle
  ceil _ _ hle := hle
  near := by
    rintro p rfl v -
    simp [place]
  close := by
    rintro p _ rfl ⟨⟩
    simp
  kept _ := rfl

theorem Rounded.eq_infinite {r : Exact} {negative : Bool} (h : Rounded f (infinite negative) r) :
    r = infinite negative :=
  h.kept nofun

theorem Rounded.eq_undefined {r : Exact} (h : Rounded f undefined r) : r = undefined :=
  h.kept nofun

/-- What fits stays as it is. -/
theorem Rounded.eq_of_fits {r : Exact} (h : Rounded f (of q) r) (fits : Fits f q) : r = of q := by
  obtain ⟨p, rfl, hle, hge⟩ :=
    exists_between (h.floor q fits (of_le_of.mpr le_rfl)) (h.ceil q fits (of_le_of.mpr le_rfl))
  rw [le_antisymm hge hle]

theorem fits_zero (f : Format) : Fits f 0 :=
  ⟨⟨0, f.minExponent, by simp, by positivity, le_refl _⟩, by rw [abs_zero]; exact overflow_pos f⟩

/-- Rounding keeps what is a number. -/
theorem Rounded.undefined_iff {x r : Exact} (h : Rounded f x r) :
    r = undefined ↔ x = undefined := by
  constructor
  · rintro rfl
    cases x with
    | undefined => rfl
    | infinite => cases h.eq_infinite
    | of p =>
        rcases le_total 0 p with hle | hle
        · rcases h.floor 0 (fits_zero f) (of_le_of.mpr hle) with h | ⟨h, -⟩ <;> cases h
        · rcases h.ceil 0 (fits_zero f) (of_le_of.mpr hle) with h | ⟨h, -⟩ <;> cases h
  · rintro rfl
    exact h.eq_undefined

/-- Rounding does not go below a number of the format. -/
theorem Rounded.le {x y r : Exact} (h : Rounded f x r) (nonneg : 0 ≤ y)
    (fits : ∀ q, y = of q → Fits f q) (le : y ≤ x) : y ≤ r := by
  rcases nonneg_cases nonneg with ⟨q, rfl, -⟩ | rfl
  · exact h.floor q (fits q rfl) le
  · have hx : x = infinite false := by
      rcases Exact.le_iff.mp le with ⟨_, _, hp, -⟩ | ⟨hp, -⟩ | ⟨hx, -⟩
      · cases hp
      · cases hp
      · exact hx
    subst hx
    rw [h.eq_infinite]
    exact le

/-! ## Signs -/

variable {y r : Exact}

theorem eq_of_neg (h : y.neg = of q) : y = of (-q) := by
  cases y with
  | of p =>
      cases h
      rw [neg_neg]
  | infinite | undefined => cases h

theorem place_neg (r : Exact) : place f r.neg = -place f r := by
  cases r with
  | of q => rfl
  | infinite s => cases s <;> simp [Exact.neg, place]
  | undefined => exact neg_zero.symm

/-- Rounding does not depend on the sign. -/
theorem Rounded.neg (h : Rounded f y r) : Rounded f y.neg r.neg where
  floor v hv hle := le_neg_iff.mpr (h.ceil (-v) hv.neg (le_neg_iff.mp hle))
  ceil v hv hle := neg_le_iff.mpr (h.floor (-v) hv.neg (neg_le_iff.mp hle))
  near p hp v hv := by
    rw [place_neg, ← abs_neg_sub_neg, ← abs_neg_sub_neg v, neg_neg]
    exact h.near (-p) (eq_of_neg hp) (-v) hv.neg
  close p q hp hq hbig := by
    rw [← abs_neg q] at hbig ⊢
    rw [← abs_neg_sub_neg]
    exact h.close (-p) (-q) (eq_of_neg hp) (eq_of_neg hq) hbig
  kept hx := by
    have hother (p : ℚ) : y ≠ of p := by
      rintro rfl
      exact hx (-p) rfl
    rw [h.kept hother]

/-! ## Results of operations -/

/-- A nearest number is what a number becomes, if it fits. -/
theorem Nearest.rounded (h : Nearest f x q) (wide : 0 < f.exponentBias) :
    Rounded f (of x) (of q) where
  floor v hv hle := of_le_of.mpr (h.floor v hv.grid (of_le_of.mp hle))
  ceil v hv hle := of_le_of.mpr (h.ceil v hv.grid (of_le_of.mp hle))
  near := by
    rintro _ ⟨⟩ v hv
    exact h.near v (hv.grid wide)
  close := by
    rintro _ _ ⟨⟩ ⟨⟩
    exact h.close
  kept hx := absurd rfl (hx x)

/-- If it is too large, the number becomes infinite. -/
theorem Nearest.rounded_overflow (h : Nearest f x q) (wide : 0 < f.exponentBias)
    (large : overflow f ≤ q) : Rounded f (of x) (infinite false) where
  floor _ _ _ := le_infinite nofun
  ceil v hv hle := by
    have hqv : q ≤ v := h.ceil v hv.grid (of_le_of.mp hle)
    exact absurd (hv.bound.trans_le (large.trans hqv)) (le_abs_self v).not_gt
  near := by
    rintro _ ⟨⟩ v hv
    exact h.near_overflow wide large hv
  close := nofun
  kept hx := absurd rfl (hx x)

/-- Results of operations, written and read. -/
theorem Gives.rounded (h : Gives f y u) (wide : 0 < f.exponentBias) :
    Rounded f y (value (unpack f (pack f u))) := by
  obtain ⟨hcanonical, hgives⟩ := h
  rw [unpack_pack hcanonical]
  cases y with
  | undefined =>
      have hvalue : value (limited f u) = undefined := by
        cases u with
        | zero | infinity | finite => cases hgives
        | notANumber => rfl
      rw [hvalue]
      exact .refl f _
  | infinite negative =>
      have hvalue : value (limited f u) = infinite negative := by
        cases u with
        | notANumber | zero | finite => cases hgives
        | infinity s => exact hgives
      rw [hvalue]
      exact .refl f _
  | of x =>
      obtain ⟨q, hq, hnearest⟩ := hgives
      rcases value_limited hcanonical wide hq with ⟨hvalue, -⟩ | ⟨hvalue, hlarge⟩ <;> rw [hvalue]
      · exact hnearest.rounded wide
      rcases lt_or_ge q 0 with hneg | hpos
      · rw [decide_eq_true hneg]
        rw [abs_of_neg hneg] at hlarge
        have hopposite := (hnearest.neg.rounded_overflow wide hlarge).neg
        rwa [Exact.neg, Exact.neg, neg_neg] at hopposite
      · rw [decide_eq_false hpos.not_gt]
        rw [abs_of_nonneg hpos] at hlarge
        exact hnearest.rounded_overflow wide hlarge

end Trellis.Binary
