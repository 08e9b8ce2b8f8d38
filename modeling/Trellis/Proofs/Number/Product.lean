import Trellis.Canvas
import Trellis.Proofs.Number.Finite

/-!
# Products that grow with their factors

Rounding keeps the order of numbers. So a longer text is measured as no shorter, whether arithmetic
is exact or not.

* `MonotoneProduct` — numbers whose products grow with their factors.
* `TextMetrics.measure_mono`, `TextMetrics.measure_nil` — how wide a text is, by its length.
-/

namespace Trellis

variable {α : Type} [Number α]

/-- Numbers whose products grow with their factors. -/
class MonotoneProduct (α : Type) [Number α] : Prop where
  le_trans : ∀ x y z : α, x ≤ y → y ≤ z → x ≤ z
  natural_le : ∀ m n : ℕ, m ≤ n → (Number.natural m : α) ≤ Number.natural n
  mul_le_mul : ∀ x y z : α, x ≤ y → 0 < z → Number.isFinite z = true → x * z ≤ y * z
  zero_mul : ∀ z : α, 0 < z → Number.isFinite z = true → 0 * z = 0

/-- A length that a text can be measured in. -/
structure Number.Proper (x : α) : Prop where
  pos : 0 < x
  finite : Number.isFinite x = true

namespace TextMetrics

variable [MonotoneProduct α] {metrics : TextMetrics α} {size : α}

/-- A longer text is no less wide. -/
theorem measure_mono (size_proper : Number.Proper size) (advance : Number.Proper metrics.advance)
    {text longer : List Char} (le : text.length ≤ longer.length) :
    (metrics.measure text size).x ≤ (metrics.measure longer size).x := by
  apply MonotoneProduct.mul_le_mul _ _ _ _ advance.pos advance.finite
  apply MonotoneProduct.mul_le_mul _ _ _ _ size_proper.pos size_proper.finite
  exact MonotoneProduct.natural_le _ _ le

/-- A text without characters has no width. -/
theorem measure_nil (size_proper : Number.Proper size) (advance : Number.Proper metrics.advance) :
    (metrics.measure [] size).x = 0 := by
  show 0 * size * metrics.advance = 0
  rw [MonotoneProduct.zero_mul _ size_proper.pos size_proper.finite,
    MonotoneProduct.zero_mul _ advance.pos advance.finite]

end TextMetrics

namespace Exact

/-- Rational numbers lie between the two infinities, and all of them are ordered. -/
theorem le_iff {x y : Exact} :
    x ≤ y ↔ (∃ p q, x = of p ∧ y = of q ∧ p ≤ q) ∨ (x = infinite true ∧ y ≠ undefined) ∨
      (y = infinite false ∧ x ≠ undefined) := by
  cases x with
  | of p =>
      cases y with
      | of q => simp
      | infinite t => cases t <;> simp [LE.le, less]
      | undefined => simp [LE.le, less]
  | infinite s =>
      cases y with
      | of q => cases s <;> simp [LE.le, less]
      | infinite t => cases s <;> cases t <;> simp [LE.le, less]
      | undefined => cases s <;> simp [LE.le, less]
  | undefined => cases y <;> simp [LE.le, less]

theorem le_infinite {x : Exact} (h : x ≠ undefined) : x ≤ infinite false :=
  le_iff.mpr (.inr (.inr ⟨rfl, h⟩))

theorem infinite_le {x : Exact} (h : x ≠ undefined) : infinite true ≤ x :=
  le_iff.mpr (.inr (.inl ⟨rfl, h⟩))

theorem le_trans {x y z : Exact} (h : x ≤ y) (h' : y ≤ z) : x ≤ z := by
  rw [le_iff] at h h' ⊢
  rcases h with ⟨p, q, rfl, rfl, hpq⟩ | ⟨rfl, hy⟩ | ⟨rfl, hx⟩
  · rcases h' with ⟨q', r, hq, rfl, hqr⟩ | ⟨hq, -⟩ | ⟨rfl, -⟩
    · cases hq
      exact .inl ⟨p, r, rfl, rfl, hpq.trans hqr⟩
    · cases hq
    · exact .inr (.inr ⟨rfl, nofun⟩)
  · have hz : z ≠ undefined := by
      rcases h' with ⟨q, r, -, rfl, -⟩ | ⟨-, hz⟩ | ⟨rfl, -⟩
      · exact nofun
      · exact hz
      · exact nofun
    exact .inr (.inl ⟨rfl, hz⟩)
  · rcases h' with ⟨q, r, hq, -⟩ | ⟨hq, -⟩ | ⟨rfl, -⟩
    · cases hq
    · cases hq
    · exact .inr (.inr ⟨rfl, hx⟩)

theorem le_neg_iff {x : Exact} {q : ℚ} : of q ≤ x.neg ↔ x ≤ of (-q) := by
  rw [le_iff, le_iff]
  cases x with
  | of p => simp [neg, le_neg]
  | infinite s => cases s <;> simp [neg]
  | undefined => simp [neg]

theorem neg_le_iff {x : Exact} {q : ℚ} : x.neg ≤ of q ↔ of (-q) ≤ x := by
  rw [le_iff, le_iff]
  cases x with
  | of p => simp [neg, neg_le]
  | infinite s => cases s <;> simp [neg]
  | undefined => simp [neg]

/-- A factor above zero keeps an infinity as it is. -/
theorem infinite_mul {r : ℚ} (pos : 0 < r) (s : Bool) : infinite s * of r = infinite s := by
  show scale s r = infinite s
  rw [scale, if_neg pos.ne', decide_eq_false pos.not_gt, Bool.bne_false]

/-- A factor above zero makes no number of a number. -/
theorem mul_ne_undefined {x : Exact} {r : ℚ} (pos : 0 < r) (h : x ≠ undefined) :
    x * of r ≠ undefined := by
  cases x with
  | of p => exact nofun
  | infinite s => rw [infinite_mul pos]; exact nofun
  | undefined => exact absurd rfl h

theorem mul_le_mul {x y z : Exact} (h : x ≤ y) (pos : 0 < z) (finite : Number.isFinite z = true) :
    x * z ≤ y * z := by
  obtain ⟨r, rfl, hr⟩ | rfl := pos_cases pos
  · rw [le_iff] at h ⊢
    rcases h with ⟨p, q, rfl, rfl, hpq⟩ | ⟨rfl, hy⟩ | ⟨rfl, hx⟩
    · exact .inl ⟨p * r, q * r, rfl, rfl, mul_le_mul_of_nonneg_right hpq hr.le⟩
    · exact .inr (.inl ⟨infinite_mul hr true, mul_ne_undefined hr hy⟩)
    · exact .inr (.inr ⟨infinite_mul hr false, mul_ne_undefined hr hx⟩)
  · cases finite

instance : MonotoneProduct Exact where
  le_trans _ _ _ := le_trans
  natural_le m n h := by simpa using h
  mul_le_mul _ _ _ := mul_le_mul
  zero_mul z pos finite := by
    obtain ⟨r, rfl, -⟩ | rfl := pos_cases pos
    · simp
    · cases finite

end Exact

end Trellis
