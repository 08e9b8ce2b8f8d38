import Trellis.Proofs.Number.Decimal
import Trellis.Proofs.Number.Order

/-!
# Rounding keeps the order

Of two numbers that are rounded, the smaller one does not become the larger one, since neither is
rounded to anything but a nearest number. So products of double precision grow with their factors,
as exact ones do.

* `Binary.Canonical.eq_of_value` — a number other than zero is kept in one way only.
* `Binary.Rounded.mono` — rounding keeps the order.
* `Exact.ofFloat_mul_mono` — a factor above zero keeps the order in double precision.
-/

namespace Trellis

open Float.Model hiding pack unpack
open UnpackedFloat

namespace Binary

open Exact

variable {f : Float.Model.Format} {x y r s : Exact} {p q : ℚ}

/-! ## Equal numbers -/

/-- Only zero is kept in two ways, once with each sign. -/
theorem Canonical.eq_of_value {a b : UnpackedFloat} (ha : Canonical f a) (hb : Canonical f b)
    (heq : value a = value b) (ne : value a ≠ of 0) : a = b := by
  cases a with
  | notANumber => cases b <;> first | rfl | cases heq
  | zero => exact absurd rfl ne
  | infinity t =>
      cases b with
      | infinity t' =>
          have heq : negative t = negative t' := Exact.infinite.inj heq
          cases t <;> cases t' <;> first | rfl | cases heq
      | notANumber | zero | finite => cases heq
  | finite t m e hm =>
      have hcompare : (finite t m e hm).compare b = some .eq := by
        rw [compare_eq ha hb, ← heq]
        exact eq_iff.mp ⟨rfl, nofun⟩
      cases b with
      | notANumber | infinity => cases heq
      | zero => exact absurd heq ne
      | finite t' m' e' hm' =>
          -- Numbers of two signs are not equal, and those of one sign are compared in two steps.
          have hsign : t = t' := by
            cases t <;> cases t' <;> first | rfl | cases hcompare
          subst hsign
          have hthen : (compare e e').then (compare m m') = .eq := by
            cases t with
            | negative => exact Ordering.swap_eq_eq.mp (Option.some.inj hcompare)
            | positive => exact Option.some.inj hcompare
          obtain ⟨hexponent, hmantissa⟩ := Ordering.then_eq_eq.mp hthen
          obtain rfl := compare_eq_iff_eq.mp hexponent
          obtain rfl := compare_eq_iff_eq.mp hmantissa
          rfl

/-! ## Places -/

/-- A result is at a place of the format. -/
theorem isPlace_place (ne : r ≠ undefined) (fits : ∀ q, r = of q → Fits f q) :
    IsPlace f (place f r) := by
  cases r with
  | of q => exact .inl (fits q rfl)
  | infinite s =>
      have habs : |overflow f| = overflow f := abs_of_pos (overflow_pos f)
      cases s with
      | true => exact .inr (by rw [place, abs_neg, habs])
      | false => exact .inr habs
  | undefined => exact absurd rfl ne

/-- Places are in the order of the numbers. -/
theorem le_of_place_le (hr : r ≠ undefined) (hs : s ≠ undefined) (fits : ∀ q, r = of q → Fits f q)
    (fits' : ∀ q, s = of q → Fits f q) (le : place f r ≤ place f s) : r ≤ s := by
  have hpos := overflow_pos f
  cases r with
  | undefined => exact absurd rfl hr
  | of q =>
      have hq := abs_lt.mp (fits q rfl).bound
      cases s with
      | undefined => exact absurd rfl hs
      | of q' => exact of_le_of.mpr le
      | infinite s =>
          cases s with
          | false => exact le_infinite nofun
          | true => exact absurd hq.1 (not_lt.mpr le)
  | infinite t =>
      cases t with
      | true => exact infinite_le hs
      | false =>
          have hs : s = infinite false := by
            cases s with
            | undefined => exact absurd rfl hs
            | of q => exact absurd (abs_lt.mp (fits' q rfl).bound).2 (not_lt.mpr le)
            | infinite s =>
                cases s with
                | false => rfl
                | true =>
                    have hle : overflow f ≤ -overflow f := le
                    linarith
          rw [hs]
          exact le_infinite nofun

/-! ## Rounding -/

/-- What is rounded to a nearest number does not overtake. -/
theorem le_of_near (lt : p < q) {a b : ℚ} (near : |a - p| ≤ |b - p|) (near' : |b - q| ≤ |a - q|) :
    a ≤ b := by
  by_contra hlt
  rw [not_le] at hlt
  -- Half way from the one to the other, the first is no smaller and the second is no larger.
  rw [← sq_le_sq] at near near'
  have hp : a + b ≤ 2 * p := by nlinarith
  have hq : 2 * q ≤ a + b := by nlinarith
  linarith

/-- Rounding keeps the order. -/
theorem Rounded.mono (hr : Rounded f x r) (hs : Rounded f y s) (fits : ∀ q, r = of q → Fits f q)
    (fits' : ∀ q, s = of q → Fits f q) (lt : x < y) : r ≤ s := by
  obtain ⟨hle, -⟩ := lt_iff_le_not_le.mp lt
  have hx := ne_undefined_of_le hle
  have hy := ne_undefined_of_le_right hle
  have hr' := mt hr.undefined_iff.mp hx
  have hs' := mt hs.undefined_iff.mp hy
  rcases Exact.le_iff.mp hle with ⟨p, q, rfl, rfl, -⟩ | ⟨rfl, -⟩ | ⟨rfl, -⟩
  · refine le_of_place_le hr' hs' fits fits' (le_of_near (of_lt_of.mp lt) ?_ ?_)
    · exact hr.near p rfl _ (isPlace_place hs' fits')
    · exact hs.near q rfl _ (isPlace_place hr' fits)
  · rw [hr.eq_infinite]
    exact infinite_le hs'
  · rw [hs.eq_infinite]
    exact le_infinite hr'

end Binary

/-! ## Double precision -/

namespace Exact

open Binary

variable {x y z : Exact} {r : ℚ}

@[simp] theorem undefined_mul (y : Exact) : undefined * y = undefined := rfl

theorem mul_le_mul_iff (pos : 0 < r) : x * of r ≤ y * of r ↔ x ≤ y := by
  cases x with
  | undefined => simp [le_iff]
  | of p =>
      cases y with
      | of q => simp [pos]
      | infinite t => rw [infinite_mul pos]; cases t <;> simp [le_iff]
      | undefined => simp [le_iff]
  | infinite s =>
      rw [infinite_mul pos]
      cases y with
      | of q => simp [le_iff]
      | infinite t => rw [infinite_mul pos]
      | undefined => simp [le_iff]

theorem mul_lt_mul (pos : 0 < r) (lt : x < y) : x * of r < y * of r := by
  rw [lt_iff_le_not_le] at lt ⊢
  rwa [mul_le_mul_iff pos, mul_le_mul_iff pos]

variable {a b c : Float}

theorem mul_eq (a b : Float) :
    a * b = .ofModel (.pack (.mul .binary64 a.toModel.unpack b.toModel.unpack)) := rfl

/-- A product depends on what its factor stands for, except for the sign of zero. -/
theorem ofFloat_mul_congr (h : ofFloat a = ofFloat b) (hc : ofFloat c = of r) :
    ofFloat (a * c) = ofFloat (b * c) := by
  by_cases hzero : ofFloat a = of 0
  · have hproduct : of 0 * of r = of 0 := by rw [of_mul_of, zero_mul]
    have ha := ofFloat_mul a c
    have hb := ofFloat_mul b c
    rw [← h] at hb
    rw [hzero, hc, hproduct] at ha hb
    rw [ha.eq_of_fits (fits_zero _), hb.eq_of_fits (fits_zero _)]
  · have hunpack := (canonical a).eq_of_value (canonical b) h hzero
    rw [mul_eq, mul_eq, hunpack]

/-- A factor above zero keeps the order. -/
theorem ofFloat_mul_mono (hc : ofFloat c = of r) (pos : 0 < r) (h : ofFloat a ≤ ofFloat b) :
    ofFloat (a * c) ≤ ofFloat (b * c) := by
  have ha := ofFloat_mul a c
  have hb := ofFloat_mul b c
  rw [hc] at ha hb
  rcases h with hlt | ⟨heq, hne⟩
  · exact ha.mono hb (fun _ => fits) (fun _ => fits) (mul_lt_mul pos hlt)
  · rw [ofFloat_mul_congr heq hc]
    rw [heq] at hne
    exact self_iff.mpr (mt hb.undefined_iff.mp (mul_ne_undefined pos hne))

/-- A larger integer does not become a smaller number. -/
theorem ofFloat_ofNat_mono {m n : ℕ} (le : m ≤ n) :
    ofFloat (Float.ofNat m) ≤ ofFloat (Float.ofNat n) := by
  rcases le.eq_or_lt with rfl | hlt
  · exact self_iff.mpr (mt (ofFloat_ofNat m).undefined_iff.mp nofun)
  · refine (ofFloat_ofNat m).mono (ofFloat_ofNat n) (fun _ => fits) (fun _ => fits) ?_
    exact of_lt_of.mpr (by exact_mod_cast hlt)

theorem finite_pos (pos : 0 < c) (finite : c.isFinite = true) :
    ∃ (m : ℕ) (e : ℤ) (hm : 0 < m), c.toModel.unpack = .finite .positive m e hm := by
  have hpos : ofFloat 0 < ofFloat c := lt_iff_ofFloat.mp pos
  obtain ⟨q, hq⟩ := isFinite_iff.mp finite
  rw [ofFloat_zero, hq, of_lt_of] at hpos
  rw [ofFloat] at hq
  cases hunpack : c.toModel.unpack with
  | notANumber | infinity => rw [hunpack] at hq; cases hq
  | zero s =>
      rw [hunpack] at hq
      cases hq
      exact absurd hpos (lt_irrefl 0)
  | finite s m e hm =>
      rw [hunpack] at hq
      cases hq
      cases s with
      | positive => exact ⟨m, e, hm, rfl⟩
      | negative => exact absurd hpos (signed_neg (by positivity)).not_gt

theorem zero_mul_float (pos : 0 < c) (finite : c.isFinite = true) : (0 : Float) * c = 0 := by
  obtain ⟨m, e, hm, hunpack⟩ := finite_pos pos finite
  rw [mul_eq, hunpack]
  rfl

end Exact

open Exact in
/-- Rounding keeps what exact products obey. -/
instance : MonotoneProduct Float where
  le_trans := NumberOrder.le_trans
  natural_le m n le := le_iff_ofFloat.mpr (ofFloat_ofNat_mono le)
  mul_le_mul x y z le pos finite := by
    obtain ⟨q, hq⟩ := isFinite_iff.mp finite
    have hpos : ofFloat 0 < ofFloat z := lt_iff_ofFloat.mp pos
    rw [ofFloat_zero, hq, of_lt_of] at hpos
    exact le_iff_ofFloat.mpr (ofFloat_mul_mono hq hpos (le_iff_ofFloat.mp le))
  zero_mul z := zero_mul_float

end Trellis
