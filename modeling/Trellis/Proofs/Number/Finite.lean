import Trellis.Proofs.Number.Exact

/-!
# Arithmetic of finite numbers

Among rational numbers exact arithmetic is that of the rational numbers. The lemmas here push `of`
outwards, so that a statement about numbers becomes one about rational numbers.

* `Exact.exists_between` — what lies between two rational numbers is one.
* `Exact.pos_cases` — a number above zero is rational, or infinite.
-/

namespace Trellis.Exact

variable {p q : ℚ} {x : Exact}

@[simp] theorem ofNat_eq (n : ℕ) : (OfNat.ofNat n : Exact) = of n := rfl

theorem zero_eq : (0 : Exact) = of 0 := congrArg of Nat.cast_zero

@[simp] theorem natural_eq (n : ℕ) : (Number.natural n : Exact) = of n := rfl

@[simp] theorem of_add_of (p q : ℚ) : of p + of q = of (p + q) := rfl

@[simp] theorem of_sub_of (p q : ℚ) : of p - of q = of (p - q) := by
  show of (p + -q) = of (p - q)
  rw [sub_eq_add_neg]

@[simp] theorem of_mul_of (p q : ℚ) : of p * of q = of (p * q) := rfl

theorem of_div_of (p : ℚ) (hq : q ≠ 0) : of p / of q = of (p / q) := if_neg hq

@[simp] theorem of_lt_of : of p < of q ↔ p < q := decide_eq_true_iff

@[simp] theorem of_le_of : of p ≤ of q ↔ p ≤ q := by
  show decide (p < q) = true ∨ of p = of q ∧ of p ≠ undefined ↔ p ≤ q
  rw [decide_eq_true_iff, le_iff_lt_or_eq]
  simp

@[simp] theorem max_of_of (p q : ℚ) : Number.max (of p) (of q) = of (max p q) := by
  show (if of p = undefined then of q else if less (of p) (of q) then of q else of p) = _
  rw [if_neg (by simp), less, max_def_lt]
  by_cases h : p < q <;> simp [h]

@[simp] theorem min_of_of (p q : ℚ) : Number.min (of p) (of q) = of (min p q) := by
  show (if of p = undefined then of q else if less (of q) (of p) then of q else of p) = _
  rw [if_neg (by simp), less, min_comm, min_def_lt]
  by_cases h : q < p <;> simp [h]

/-- What lies between two rational numbers is one. -/
theorem exists_between (lower : of p ≤ x) (upper : x ≤ of q) : ∃ r, x = of r ∧ p ≤ r ∧ r ≤ q := by
  cases x with
  | of r => exact ⟨r, rfl, of_le_of.mp lower, of_le_of.mp upper⟩
  | infinite negative =>
      cases negative with
      | false => rcases upper with h | ⟨h, -⟩ <;> cases h
      | true => rcases lower with h | ⟨h, -⟩ <;> cases h
  | undefined => rcases lower with h | ⟨h, -⟩ <;> cases h

/-- What is no number is not ordered. -/
theorem ne_undefined_of_le {y : Exact} (h : x ≤ y) : x ≠ undefined := by
  rintro rfl
  rcases h with h | ⟨-, h⟩
  · cases y <;> cases h
  · exact h rfl

/-- A number above zero is rational, or infinite. -/
theorem pos_cases (h : 0 < x) : (∃ q, x = of q ∧ 0 < q) ∨ x = infinite false := by
  cases x with
  | of q => exact .inl ⟨q, rfl, by simpa using h⟩
  | infinite negative =>
      cases negative with
      | false => exact .inr rfl
      | true => cases h
  | undefined => cases h

theorem nonneg_cases (h : 0 ≤ x) : (∃ q, x = of q ∧ 0 ≤ q) ∨ x = infinite false := by
  rcases h with h | ⟨rfl, -⟩
  · rcases pos_cases h with ⟨q, rfl, hq⟩ | rfl
    · exact .inl ⟨q, rfl, hq.le⟩
    · exact .inr rfl
  · exact .inl ⟨0, zero_eq, le_rfl⟩

theorem le_max_zero (x : Exact) : 0 ≤ Number.max x 0 := by
  cases x with
  | of p => simp
  | infinite negative =>
      cases negative with
      | false => exact .inl rfl
      | true => exact .inr ⟨rfl, nofun⟩
  | undefined => exact .inr ⟨rfl, nofun⟩

/-- A number is no less than itself. -/
theorem le_self (h : 0 ≤ x) : x ≤ x := by
  rcases nonneg_cases h with ⟨p, rfl, -⟩ | rfl <;> exact .inr ⟨rfl, nofun⟩

theorem le_add_of_nonneg {y : Exact} (hx : 0 ≤ x) (hy : 0 ≤ y) : x ≤ x + y := by
  rcases nonneg_cases hx with ⟨p, rfl, hp⟩ | rfl
  · rcases nonneg_cases hy with ⟨q, rfl, hq⟩ | rfl
    · simpa using hq
    · exact .inl rfl
  · rcases nonneg_cases hy with ⟨q, rfl, hq⟩ | rfl <;> exact .inr ⟨rfl, nofun⟩

/-- The rational number. -/
def val : Exact → ℚ
  | of q => q
  | _ => 0

@[simp] theorem val_of (q : ℚ) : (of q).val = q := rfl

/-- Rational numbers, added up. -/
theorem foldl_add_of {xs : List Exact} (rational : ∀ x ∈ xs, ∃ r, x = of r) (start : ℚ) :
    xs.foldl (· + ·) (of start) = of (start + (xs.map val).sum) := by
  induction xs generalizing start with
  | nil => simp
  | cons x xs ih =>
      obtain ⟨⟨r, rfl⟩, hrest⟩ := List.forall_mem_cons.mp rational
      rw [List.foldl_cons, of_add_of, ih hrest, List.map_cons, List.sum_cons, val_of, add_assoc]

end Trellis.Exact
