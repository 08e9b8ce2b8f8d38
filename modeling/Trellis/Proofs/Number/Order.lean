import Trellis.Proofs.Number.Double
import Trellis.Proofs.Number.Product

/-!
# Numbers in order

Comparing rounds nothing, so what follows from comparisons alone holds of double precision as it
does of exact numbers. What is no number is not even as large as itself.

* `NumberOrder` — the laws of comparison, which both kinds of numbers obey.
* `Number.clamp_within` — where a number lands that is moved between two limits.
-/

namespace Trellis

/-- Numbers are ordered, apart from what is no number. -/
class NumberOrder (α : Type) [Number α] : Prop where
  le_trans : ∀ x y z : α, x ≤ y → y ≤ z → x ≤ z
  lt_of_le_of_lt : ∀ x y z : α, x ≤ y → y < z → x < z
  le_of_lt : ∀ x y : α, x < y → x ≤ y
  self_of_le : ∀ x y : α, x ≤ y → x ≤ x ∧ y ≤ y
  le_of_not_lt : ∀ x y : α, x ≤ x → y ≤ y → ¬x < y → y ≤ x
  max_cases : ∀ x y : α, y ≤ y → Number.max x y = y ∧ ¬y < x ∨ Number.max x y = x ∧ y ≤ x
  min_cases : ∀ x y : α, x ≤ x → y ≤ y → Number.min x y = x ∧ x ≤ y ∨ Number.min x y = y ∧ y ≤ x

namespace Exact

variable {x y z : Exact}

theorem lt_iff_le_not_le : x < y ↔ x ≤ y ∧ ¬y ≤ x := by
  cases x with
  | of p =>
      cases y with
      | of q => rw [of_lt_of, of_le_of, of_le_of, lt_iff_le_not_ge]
      | infinite t => cases t <;> simp [LT.lt, LE.le, less]
      | undefined => simp [LT.lt, LE.le, less]
  | infinite s =>
      cases y with
      | of q => cases s <;> simp [LT.lt, LE.le, less]
      | infinite t => cases s <;> cases t <;> simp [LT.lt, LE.le, less]
      | undefined => cases s <;> simp [LT.lt, LE.le, less]
  | undefined => cases y <;> simp [LT.lt, LE.le, less]

theorem self_iff : x ≤ x ↔ x ≠ undefined := by
  constructor
  · exact ne_undefined_of_le
  · exact fun h => .inr ⟨rfl, h⟩

theorem ne_undefined_of_le_right (h : x ≤ y) : y ≠ undefined := by
  rcases le_iff.mp h with ⟨p, q, -, rfl, -⟩ | ⟨-, hy⟩ | ⟨rfl, -⟩
  · exact nofun
  · exact hy
  · exact nofun

theorem le_total (hx : x ≠ undefined) (hy : y ≠ undefined) : x ≤ y ∨ y ≤ x := by
  cases x with
  | of p =>
      cases y with
      | of q => simpa using Rat.le_total
      | infinite t => cases t <;> simp [LE.le, less]
      | undefined => exact absurd rfl hy
  | infinite s => cases s <;> cases y <;> simp_all [LE.le, less]
  | undefined => exact absurd rfl hx

theorem le_of_not_lt (hx : x ≠ undefined) (hy : y ≠ undefined) (h : ¬x < y) : y ≤ x := by
  rw [lt_iff_le_not_le, not_and, not_not] at h
  exact (le_total hx hy).elim h id

instance : NumberOrder Exact where
  le_trans _ _ _ := le_trans
  lt_of_le_of_lt x y z h h' := by
    rw [lt_iff_le_not_le] at h' ⊢
    exact ⟨le_trans h h'.1, fun hle => h'.2 (le_trans hle h)⟩
  le_of_lt _ _ h := (lt_iff_le_not_le.mp h).1
  self_of_le _ _ h :=
    ⟨self_iff.mpr (ne_undefined_of_le h), self_iff.mpr (ne_undefined_of_le_right h)⟩
  le_of_not_lt _ _ hx hy := le_of_not_lt (self_iff.mp hx) (self_iff.mp hy)
  max_cases x y hy := by
    show (if x = undefined then y else if x < y then y else x) = y ∧ ¬y < x ∨
      (if x = undefined then y else if x < y then y else x) = x ∧ y ≤ x
    split
    · next hx => exact .inl ⟨rfl, fun h => ne_undefined_of_le_right (lt_iff_le_not_le.mp h).1 hx⟩
    · next hx =>
        split
        · next h =>
            exact .inl ⟨rfl, fun h' => (lt_iff_le_not_le.mp h).2 (lt_iff_le_not_le.mp h').1⟩
        · next h => exact .inr ⟨rfl, le_of_not_lt hx (self_iff.mp hy) h⟩
  min_cases x y hx hy := by
    show (if x = undefined then y else if y < x then y else x) = x ∧ x ≤ y ∨
      (if x = undefined then y else if y < x then y else x) = y ∧ y ≤ x
    rw [if_neg (self_iff.mp hx)]
    split
    · next h => exact .inr ⟨rfl, (lt_iff_le_not_le.mp h).1⟩
    · next h => exact .inl ⟨rfl, le_of_not_lt (self_iff.mp hy) (self_iff.mp hx) h⟩

end Exact

open Exact in
/-- Double precision is ordered as the exact numbers are that it stands for. -/
instance : NumberOrder Float where
  le_trans x y z := by
    simp only [le_iff_ofFloat]
    exact NumberOrder.le_trans _ _ _
  lt_of_le_of_lt x y z := by
    simp only [le_iff_ofFloat, lt_iff_ofFloat]
    exact NumberOrder.lt_of_le_of_lt _ _ _
  le_of_lt x y := by
    simp only [le_iff_ofFloat, lt_iff_ofFloat]
    exact NumberOrder.le_of_lt _ _
  self_of_le x y := by
    simp only [le_iff_ofFloat]
    exact NumberOrder.self_of_le _ _
  le_of_not_lt x y := by
    simp only [le_iff_ofFloat, lt_iff_ofFloat]
    exact NumberOrder.le_of_not_lt _ _
  max_cases x y hy := by
    show (if x.isNaN then y else if y.isNaN then x else if x < y then y else x) = y ∧ ¬y < x ∨
      (if x.isNaN then y else if y.isNaN then x else if x < y then y else x) = x ∧ y ≤ x
    simp only [isNaN_iff, lt_iff_ofFloat, le_iff_ofFloat, self_iff] at hy ⊢
    split
    · next hx => exact .inl ⟨rfl, fun h => ne_undefined_of_le_right (lt_iff_le_not_le.mp h).1 hx⟩
    · next hx =>
        split
        · next h =>
            exact .inl ⟨rfl, fun h' => (lt_iff_le_not_le.mp h).2 (lt_iff_le_not_le.mp h').1⟩
        · next h => exact .inr ⟨rfl, Exact.le_of_not_lt hx hy h⟩
  min_cases x y hx hy := by
    show (if x.isNaN then y else if y.isNaN then x else if y < x then y else x) = x ∧ x ≤ y ∨
      (if x.isNaN then y else if y.isNaN then x else if y < x then y else x) = y ∧ y ≤ x
    simp only [isNaN_iff, lt_iff_ofFloat, le_iff_ofFloat, self_iff] at hx hy ⊢
    rw [if_neg hx, if_neg hy]
    split
    · next h => exact .inr ⟨rfl, (lt_iff_le_not_le.mp h).1⟩
    · next h => exact .inl ⟨rfl, Exact.le_of_not_lt hy hx h⟩

namespace Number

variable {α : Type} [Number α] [NumberOrder α] {lower upper least x : α}

/-- A number no less than the lower limit, moved between the limits, lies there. -/
theorem clamp_within (x : α) (h : lower ≤ upper) :
    lower ≤ min (max x lower) (max upper lower) ∧ min (max x lower) (max upper lower) ≤ upper := by
  obtain ⟨hlower, hupper⟩ := NumberOrder.self_of_le _ _ h
  have hmax : max upper lower ≤ upper ∧ lower ≤ max upper lower := by
    rcases NumberOrder.max_cases upper lower hlower with ⟨heq, -⟩ | ⟨heq, -⟩ <;> rw [heq]
    · exact ⟨h, hlower⟩
    · exact ⟨hupper, h⟩
  have hraised : lower ≤ max x lower := by
    rcases NumberOrder.max_cases x lower hlower with ⟨heq, -⟩ | ⟨heq, hle⟩ <;> rw [heq]
    · exact hlower
    · exact hle
  have hself := (NumberOrder.self_of_le _ _ hraised).2
  have hself' := (NumberOrder.self_of_le _ _ hmax.1).1
  rcases NumberOrder.min_cases _ _ hself hself' with ⟨heq, hle⟩ | ⟨heq, -⟩ <;> rw [heq]
  · exact ⟨hraised, NumberOrder.le_trans _ _ _ hle hmax.1⟩
  · exact ⟨hmax.2, hmax.1⟩

end Number

end Trellis
