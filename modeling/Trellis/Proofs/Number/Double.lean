import Trellis.Proofs.Number.Bits
import Trellis.Proofs.Number.Product

/-!
# Double precision

What double precision stands for are exact numbers. Its arithmetic is exact arithmetic that is
rounded once for every operation, and its order is theirs.

* `Exact.ofFloat` — the exact number that one of double precision stands for.
* `Exact.ofFloat_mul`, `Exact.ofFloat_div`, `Exact.ofFloat_add` — operations, rounded.
* `Exact.ofFloat_single` — narrowing to single precision.
-/

namespace Trellis.Exact

open Float.Model hiding pack unpack
open UnpackedFloat Binary

/-- The exact number that one of double precision stands for. -/
def ofFloat (x : Float) : Exact := value x.toModel.unpack

variable {x y : Float} {q : ℚ}

theorem canonical (x : Float) : Canonical .binary64 x.toModel.unpack := canonical_unpack _

theorem binary64_wide : 0 < Format.binary64.exponentBias := by decide

theorem overflow_binary64 : overflow .binary64 = 2 ^ (1024 : ℤ) := by
  have hbound : maxExponent .binary64 = 971 := by decide
  have hbits : Format.binary64.mantissaBits = 53 := by decide
  rw [overflow, hbound, hbits, ← zpow_natCast, ← zpow_add₀ two_ne_zero]
  rfl

theorem fits (h : ofFloat x = of q) : Fits .binary64 q :=
  (canonical x).fits binary64_wide (limited_unpack binary64_wide _) h

theorem ofFloat_pack {z : Exact} {u : UnpackedFloat} (h : Gives .binary64 z u) :
    Rounded .binary64 z (ofFloat (.ofModel (.pack u))) :=
  h.rounded binary64_wide

theorem ofFloat_add (x y : Float) :
    Rounded .binary64 (ofFloat x + ofFloat y) (ofFloat (x + y)) :=
  ofFloat_pack (add_gives (canonical x) (canonical y))

theorem ofFloat_mul (x y : Float) :
    Rounded .binary64 (ofFloat x * ofFloat y) (ofFloat (x * y)) :=
  ofFloat_pack (mul_gives (canonical x) (canonical y))

theorem ofFloat_div (x : Float) (h : ofFloat y ≠ of 0) :
    Rounded .binary64 (ofFloat x / ofFloat y) (ofFloat (x / y)) :=
  ofFloat_pack (div_gives h)

theorem lt_iff_ofFloat : x < y ↔ ofFloat x < ofFloat y := by
  rw [← show _ ↔ ofFloat x < ofFloat y from Binary.lt_iff (canonical x) (canonical y)]
  exact decide_eq_true_iff

theorem le_iff_ofFloat : x ≤ y ↔ ofFloat x ≤ ofFloat y := by
  rw [← show _ ↔ ofFloat x ≤ ofFloat y from Binary.le_iff (canonical x) (canonical y)]
  exact decide_eq_true_iff

theorem isNaN_iff : x.isNaN = true ↔ ofFloat x = undefined := by
  show x.toModel.unpack.isNaN = true ↔ value x.toModel.unpack = undefined
  cases x.toModel.unpack <;> simp [UnpackedFloat.isNaN, value]

theorem isInf_iff : x.isInf = true ↔ ∃ s, ofFloat x = infinite s := by
  show x.toModel.unpack.isInf = true ↔ ∃ s, value x.toModel.unpack = infinite s
  cases x.toModel.unpack <;> simp [UnpackedFloat.isInf, value]

theorem isFinite_iff : x.isFinite = true ↔ ∃ q, ofFloat x = of q := by
  show x.toModel.unpack.isFinite = true ↔ ∃ q, value x.toModel.unpack = of q
  cases x.toModel.unpack <;> simp [UnpackedFloat.isFinite, value]

theorem ofFloat_zero : ofFloat 0 = of 0 := rfl

theorem ofFloat_max (x y : Float) :
    ofFloat (Number.max x y) = Number.max (ofFloat x) (ofFloat y) := by
  show ofFloat (if x.isNaN then y else if y.isNaN then x else if x < y then y else x) =
    if ofFloat x = undefined then ofFloat y else if ofFloat x < ofFloat y then ofFloat y
      else ofFloat x
  simp only [isNaN_iff, lt_iff_ofFloat]
  split
  · rfl
  · split
    · next hy =>
        rw [hy, if_neg]
        cases ofFloat x <;> exact nofun
    · split <;> rfl

/-! ## Single precision -/

theorem binary32_wide : 0 < Format.binary32.exponentBias := by decide

/-- What fits into single precision fits into double precision. -/
theorem widen (h : Fits .binary32 q) : Fits .binary64 q := by
  obtain ⟨⟨m, e, rfl, hm, he⟩, hbound⟩ := h
  have hbits : Format.binary32.mantissaBits ≤ Format.binary64.mantissaBits := by decide
  have hlow : Format.binary64.minExponent ≤ Format.binary32.minExponent := by decide
  have hhigh : maxExponent .binary32 ≤ maxExponent .binary64 := by decide
  refine ⟨⟨m, e, rfl, hm.trans_le (pow_le_pow_right₀ (by norm_num) hbits), hlow.trans he⟩,
    hbound.trans_le ?_⟩
  rw [overflow, overflow]
  gcongr <;> exact one_le_two

/-- A number of single precision, or none that is rational. -/
def Narrow (x : Float) : Prop := ∀ q, ofFloat x = of q → Fits .binary32 q

variable {u : UnpackedFloat}

theorem ofFloat_ofSingle (h : Canonical .binary32 u) (within : limited .binary32 u = u) :
    ofFloat (ofSingle u) = value u := by
  cases u with
  | notANumber => exact congrArg value (unpack_pack (f := .binary64) (u := .notANumber) trivial)
  | infinity s => exact congrArg value (unpack_pack (f := .binary64) (u := .infinity s) trivial)
  | zero s => exact congrArg value (unpack_pack (f := .binary64) (u := .zero s) trivial)
  | finite s m e pos =>
      have hfits := h.fits binary32_wide within rfl
      exact (ofFloat_pack (.of_signed (round_nearest s pos))).eq_of_fits (widen hfits)

/-- Narrowing to single precision. -/
theorem ofFloat_single (x : Float) :
    Rounded .binary32 (ofFloat x) (ofFloat (nearestSingle x)) ∧ Narrow (nearestSingle x) := by
  unfold nearestSingle
  split
  · next s m e pos hx =>
      have hcanonical := canonical_unpack (pack .binary32 (round .binary32 s m e))
      have hwithin := limited_unpack binary32_wide (pack .binary32 (round .binary32 s m e))
      have hvalue : ofFloat x = of (signed s (m * 2 ^ e)) := congrArg value hx
      rw [hvalue, Narrow, ofFloat_ofSingle hcanonical hwithin]
      exact ⟨(Gives.of_signed (round_nearest s pos)).rounded binary32_wide,
        fun q => hcanonical.fits binary32_wide hwithin⟩
  · next hother =>
      refine ⟨.refl _ _, fun q hq => ?_⟩
      rw [ofFloat] at hq
      cases hx : x.toModel.unpack with
      | notANumber | infinity => rw [hx] at hq; cases hq
      | zero s => 
          rw [hx] at hq
          exact Canonical.fits (u := .zero s) trivial binary32_wide rfl hq
      | finite s m e pos => exact absurd hx (hother s m e pos)

end Trellis.Exact
