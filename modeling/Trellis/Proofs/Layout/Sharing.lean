import Mathlib.Algebra.BigOperators.Ring.List
import Mathlib.Algebra.Order.BigOperators.Group.List
import Mathlib.Tactic.Linarith
import Trellis.Proofs.Layout.Laid
import Trellis.Proofs.Number.Finite

/-!
# How the space is shared

With exact arithmetic, children that keep to their offers take up all the space if one of them is
weighted, and no more than there is if none is.

* `Constraints.Sound` — finite limits that can be kept to.
* `Flex.Heeds.lengths` — the lengths of the children are rational, and this is their sum.
-/

namespace Trellis

open Exact

/-- Finite limits, the smaller one no more than the larger one. -/
structure Constraints.Sound (limits : Constraints Exact) : Prop where
  finite_x : Number.isFinite limits.max.x = true
  finite_y : Number.isFinite limits.max.y = true
  zero_le_x : 0 ≤ limits.min.x
  zero_le_y : 0 ≤ limits.min.y
  le_x : limits.min.x ≤ limits.max.x
  le_y : limits.min.y ≤ limits.max.y

/-- The two limits along one axis are these rational numbers. -/
structure Constraints.Range (min max : Exact) (low high : ℚ) : Prop where
  min_eq : min = of low
  max_eq : max = of high
  zero_le : 0 ≤ low
  le : low ≤ high

theorem Constraints.exists_range {min max : Exact} (finite : Number.isFinite max = true)
    (zero_le : 0 ≤ min) (le : min ≤ max) : ∃ low high, Range min max low high := by
  cases max with
  | of high =>
      have hzero : of 0 ≤ min := by simpa using zero_le
      obtain ⟨low, rfl, hlow, hhigh⟩ := exists_between hzero le
      exact ⟨low, high, rfl, rfl, hlow, hhigh⟩
  | infinite | undefined => cases finite

theorem Constraints.Sound.exists_main {limits : Constraints Exact} (h : limits.Sound)
    (axis : Axis) :
    ∃ low high, Range (axis.main limits.min) (axis.main limits.max) low high := by
  cases axis with
  | horizontal => exact exists_range h.finite_x h.zero_le_x h.le_x
  | vertical => exact exists_range h.finite_y h.zero_le_y h.le_y

theorem Constraints.Sound.exists_cross {limits : Constraints Exact} (h : limits.Sound)
    (axis : Axis) :
    ∃ low high, Range (axis.cross limits.min) (axis.cross limits.max) low high := by
  cases axis with
  | horizontal => exact exists_range h.finite_y h.zero_le_y h.le_y
  | vertical => exact exists_range h.finite_x h.zero_le_x h.le_x

/-- Limits that are given along and across an axis. -/
theorem Axis.allows_along {α : Type} [Number α] (axis : Axis) {low high low' high' : α}
    {size : Size α} :
    (Constraints.mk (axis.along low low') (axis.along high high')).Allows size ↔
      (low ≤ axis.main size ∧ axis.main size ≤ high) ∧
        low' ≤ axis.cross size ∧ axis.cross size ≤ high' := by
  cases axis with
  | horizontal =>
      exact ⟨fun ⟨hx, hy, hx', hy'⟩ => ⟨⟨hx, hx'⟩, hy, hy'⟩,
        fun ⟨⟨hx, hx'⟩, hy, hy'⟩ => ⟨hx, hy, hx', hy'⟩⟩
  | vertical =>
      exact ⟨fun ⟨hx, hy, hx', hy'⟩ => ⟨⟨hy, hy'⟩, hx, hx'⟩,
        fun ⟨⟨hy, hy'⟩, hx, hx'⟩ => ⟨hx, hy, hx', hy'⟩⟩

namespace Flex

variable {flex : Flex} {limits : Constraints Exact} {space total used : Exact}
  {child : Child Exact (Recording Exact)} {laid : List (Child Exact (Recording Exact))}

theorem HeedsFrom.of_mem {α : Type} [Number α] {limits : Constraints α} {space total used : α}
    {child : Child α (Recording α)} {laid : List (Child α (Recording α))}
    (h : flex.HeedsFrom limits space total used laid) (mem : child ∈ laid) :
    ∃ used, (flex.offer limits space total used child.1).Allows child.2.size := by
  induction laid generalizing used with
  | nil => cases mem
  | cons head laid ih =>
      rcases List.mem_cons.mp mem with rfl | mem
      · exact ⟨used, h.1⟩
      · exact ih h.2 mem

/-- The length of a child. -/
def extent (flex : Flex) (child : Child Exact (Recording Exact)) : ℚ :=
  (flex.axis.main child.2.size).val

theorem extent_of {m : ℚ} (main_eq : flex.axis.main child.2.size = of m) :
    flex.extent child = m := by
  rw [extent, main_eq, val_of]

/-- The length of a rigid child. -/
def rigidExtent (flex : Flex) (child : Child Exact (Recording Exact)) : ℚ :=
  match child.1 with
  | none => flex.extent child
  | some _ => 0

/-- The length of a weighted child. -/
def weightedExtent (flex : Flex) (child : Child Exact (Recording Exact)) : ℚ :=
  match child.1 with
  | none => 0
  | some _ => flex.extent child

/-- The weight of a child. -/
def weight (child : Child Exact (Recording Exact)) : ℚ := (child.1.map val).getD 0

/-- Every weight is a rational number above zero. -/
def RationalWeights (laid : List (Child Exact (Recording Exact))) : Prop :=
  ∀ child ∈ laid, ∀ w, child.1 = some w → ∃ r, w = of r ∧ 0 < r

/-! ## Rigid children -/

/-- Rigid children take up no more than there is. The induction is on the children that are left. -/
theorem HeedsFrom.rigid {high taken : ℚ} (max_eq : flex.axis.main limits.max = of high)
    (h : flex.HeedsFrom limits space total (of taken) laid) (le : taken ≤ high) :
    (∀ child ∈ laid, child.1 = none → ∃ m, flex.axis.main child.2.size = of m ∧ 0 ≤ m) ∧
      laid.foldl flex.addRigid (of taken) = of (taken + (laid.map flex.rigidExtent).sum) ∧
      taken + (laid.map flex.rigidExtent).sum ≤ high := by
  induction laid generalizing taken with
  | nil => simpa using le
  | cons child laid ih =>
      obtain ⟨weight, recording⟩ := child
      cases weight with
      | none =>
          obtain ⟨⟨hlow, hhigh⟩, -⟩ := (Axis.allows_along flex.axis).mp h.1
          have hleft : Number.max (of high - of taken) (0 : Exact) = of (high - taken) := by
            simpa using le
          rw [max_eq, hleft] at hhigh
          have hzero : of 0 ≤ flex.axis.main recording.size := by simpa using hlow
          obtain ⟨m, hm, hpos, hle⟩ := exists_between hzero hhigh
          have hnext : flex.addRigid (of taken) (none, recording) = of (taken + m) := by
            show of taken + flex.axis.main recording.size = _
            rw [hm, of_add_of]
          have hextent : flex.rigidExtent (none, recording) = m := extent_of hm
          have hrest := h.2
          rw [hnext] at hrest
          obtain ⟨hrational, hlength, hroom⟩ := ih hrest (by linarith)
          rw [List.map_cons, List.sum_cons, hextent, ← add_assoc, List.foldl_cons, hnext]
          refine ⟨?_, hlength, hroom⟩
          exact List.forall_mem_cons.mpr ⟨fun _ => ⟨m, hm, hpos⟩, hrational⟩
      | some weight =>
          obtain ⟨hrational, hlength, hroom⟩ := ih h.2 le
          have hextent : flex.rigidExtent (some weight, recording) = 0 := rfl
          rw [List.map_cons, List.sum_cons, hextent, zero_add, List.foldl_cons]
          exact ⟨List.forall_mem_cons.mpr ⟨nofun, hrational⟩, hlength, hroom⟩

/-! ## Weighted children -/

/-- A sum of rational weights. -/
theorem foldl_addSingle_of {weights : List Exact} (rational : ∀ w ∈ weights, ∃ q, w = of q)
    (q : ℚ) : weights.foldl Number.addSingle (of q) = of (q + (weights.map val).sum) := by
  induction weights generalizing q with
  | nil => simp
  | cons w weights ih =>
      obtain ⟨⟨r, rfl⟩, hrest⟩ := List.forall_mem_cons.mp rational
      have hnext : Number.addSingle (of q) (of r) = of (q + r) := rfl
      rw [List.foldl_cons, hnext, ih hrest, List.map_cons, List.sum_cons, val_of, add_assoc]

/-- One weight without bound makes the total one. -/
theorem foldl_addSingle_infinite {weights : List Exact} (pos : ∀ w ∈ weights, 0 < w)
    {x : Exact} (start : (∃ q, x = of q) ∨ x = infinite false)
    (mem : infinite false ∈ weights ∨ x = infinite false) :
    weights.foldl Number.addSingle x = infinite false := by
  induction weights generalizing x with
  | nil => exact mem.resolve_left List.not_mem_nil
  | cons w weights ih =>
      obtain ⟨hw, hrest⟩ := List.forall_mem_cons.mp pos
      rw [List.foldl_cons]
      -- Whichever of the two is without bound, their sum is; and otherwise it is rational.
      rcases start with ⟨q, rfl⟩ | rfl <;> rcases pos_cases hw with ⟨r, rfl, -⟩ | rfl
      · have hmem : infinite false ∈ weights := by simpa using mem
        exact ih hrest (.inl ⟨q + r, rfl⟩) (.inl hmem)
      · exact ih hrest (.inr rfl) (.inr rfl)
      · exact ih hrest (.inr rfl) (.inr rfl)
      · exact ih hrest (.inr rfl) (.inr rfl)

/-- A share of a total without bound is no number. -/
theorem share_of_infinite (q : ℚ) : of q * infinite false / infinite false = undefined := by
  show div (scale false q) (infinite false) = undefined
  by_cases hq : q = 0
  · rw [scale, if_pos hq]
    rfl
  · rw [scale, if_neg hq]
    rfl

/-- What the offer of a weighted child comes to. -/
theorem Heeds.share (h : flex.Heeds limits laid) (mem : child ∈ laid) {w : Exact}
    (weighted : child.1 = some w) :
    let share := flex.space limits laid * w / totalWeight laid
    share ≤ flex.axis.main child.2.size ∧ flex.axis.main child.2.size ≤ share := by
  obtain ⟨used, hallows⟩ := h.of_mem mem
  rw [weighted] at hallows
  exact ((Axis.allows_along flex.axis).mp hallows).1

/-- The weights of all children are rational if the children keep to their offers. -/
theorem Heeds.weights (h : flex.Heeds limits laid)
    (pos : ∀ child ∈ laid, ∀ w, child.1 = some w → 0 < w) {q : ℚ}
    (space : flex.space limits laid = of q) :
    RationalWeights laid := by
  intro child hchild w hw
  refine (pos_cases (pos child hchild w hw)).resolve_right ?_
  rintro rfl
  have htotal : totalWeight laid = infinite false := by
    refine foldl_addSingle_infinite (fun w hw => ?_) (.inl ⟨0, by simp⟩) (.inl ?_)
    · obtain ⟨other, hother, heq⟩ := List.mem_filterMap.mp hw
      exact pos other hother w heq
    · exact List.mem_filterMap.mpr ⟨child, hchild, hw⟩
  have hshare := (h.share hchild hw).1
  rw [space, htotal, share_of_infinite] at hshare
  exact ne_undefined_of_le hshare rfl

/-- The total of rational weights. -/
theorem totalWeight_of (rational : RationalWeights laid) :
    totalWeight laid = of (laid.map weight).sum := by
  have hweights : (laid.map weight).sum = ((laid.filterMap (·.1)).map val).sum := by
    clear rational
    induction laid with
    | nil => rfl
    | cons child laid ih =>
        obtain ⟨weight, recording⟩ := child
        cases weight with
        | none => simpa [weight] using ih
        | some w => simpa [weight] using ih
  rw [hweights, totalWeight, ofNat_eq, foldl_addSingle_of, Nat.cast_zero, zero_add]
  intro w hw
  obtain ⟨child, hchild, heq⟩ := List.mem_filterMap.mp hw
  obtain ⟨r, hr, -⟩ := rational child hchild w heq
  exact ⟨r, hr⟩

theorem weight_nonneg (rational : RationalWeights laid) :
    ∀ child ∈ laid, 0 ≤ weight child := by
  rintro ⟨_ | w, recording⟩ hchild
  · exact le_refl 0
  · obtain ⟨r, hr, hpos⟩ := rational _ hchild w rfl
    show 0 ≤ w.val
    rw [hr]
    exact hpos.le

/-- Every weighted child takes exactly its share. -/
theorem Heeds.weighted (h : flex.Heeds limits laid)
    (rational : RationalWeights laid) {q : ℚ}
    (space : flex.space limits laid = of q) (mem : child ∈ laid) {w : Exact}
    (weighted : child.1 = some w) :
    0 < (laid.map weight).sum ∧
      flex.axis.main child.2.size = of (q / (laid.map weight).sum * weight child) := by
  obtain ⟨r, rfl, hpos⟩ := rational child mem w weighted
  have hweight : weight child = r := by
    rw [weight, weighted]
    rfl
  have htotal : 0 < (laid.map weight).sum := by
    have hle := List.single_le_sum (List.forall_mem_map.mpr (weight_nonneg rational)) _
      (List.mem_map_of_mem mem)
    rw [hweight] at hle
    exact hpos.trans_le hle
  have hshare := h.share mem weighted
  rw [space, totalWeight_of rational, of_mul_of, of_div_of _ htotal.ne'] at hshare
  obtain ⟨m, hm, hlow, hhigh⟩ := exists_between hshare.1 hshare.2
  refine ⟨htotal, ?_⟩
  rw [hm, hweight, le_antisymm hhigh hlow, mul_div_right_comm]

/-- The weighted children of a list take up the sum of their lengths. -/
theorem foldl_addWeighted
    (rational : ∀ child ∈ laid, child.1 ≠ none → ∃ m, flex.axis.main child.2.size = of m)
    (taken : ℚ) : laid.foldl flex.addWeighted (of taken) =
      of (taken + (laid.map flex.weightedExtent).sum) := by
  induction laid generalizing taken with
  | nil => simp
  | cons child laid ih =>
      obtain ⟨hchild, hrest⟩ := List.forall_mem_cons.mp rational
      obtain ⟨weight, recording⟩ := child
      cases weight with
      | none =>
          have hextent : flex.weightedExtent (none, recording) = 0 := rfl
          rw [List.map_cons, List.sum_cons, hextent, zero_add, List.foldl_cons]
          exact ih hrest taken
      | some weight =>
          obtain ⟨m, hm⟩ := hchild nofun
          have hnext : flex.addWeighted (of taken) (some weight, recording) = of (taken + m) := by
            show of taken + flex.axis.main recording.size = _
            rw [hm, of_add_of]
          have hextent : flex.weightedExtent (some weight, recording) = m := extent_of hm
          rw [List.map_cons, List.sum_cons, hextent, ← add_assoc, List.foldl_cons, hnext]
          exact ih hrest (taken + m)

/-- The shares of all weighted children add up to the space. -/
theorem Heeds.sum_weightedExtent (h : flex.Heeds limits laid)
    (rational : RationalWeights laid) {q : ℚ}
    (space : flex.space limits laid = of q) (some_weighted : ∃ child ∈ laid, child.1 ≠ none) :
    (laid.map flex.weightedExtent).sum = q := by
  have hshare : ∀ child ∈ laid,
      flex.weightedExtent child = q / (laid.map weight).sum * weight child := by
    rintro ⟨_ | w, recording⟩ hchild
    · exact (mul_zero _).symm
    · exact extent_of (h.weighted rational space hchild rfl).2
  obtain ⟨child, hchild, hweighted⟩ := some_weighted
  obtain ⟨w, hw⟩ := Option.ne_none_iff_exists'.mp hweighted
  have htotal := (h.weighted rational space hchild hw).1
  rw [List.map_congr_left hshare, List.sum_map_mul_left, div_mul_cancel₀ q htotal.ne']

/-! ## All children -/

/-- The lengths of children that have `high` between them. -/
structure Lengths (flex : Flex) (laid : List (Child Exact (Recording Exact))) (high : ℚ) :
    Prop where
  rational : ∀ child ∈ laid, ∃ m, flex.axis.main child.2.size = of m ∧ 0 ≤ m
  length : flex.length laid = of (laid.map flex.extent).sum
  fits : (laid.map flex.extent).sum ≤ high
  fills : (∃ child ∈ laid, child.1 ≠ none) → (laid.map flex.extent).sum = high

theorem sum_extent (laid : List (Child Exact (Recording Exact))) :
    (laid.map flex.extent).sum =
      (laid.map flex.rigidExtent).sum + (laid.map flex.weightedExtent).sum := by
  rw [← List.sum_map_add]
  refine congrArg List.sum (List.map_congr_left ?_)
  rintro ⟨_ | w, recording⟩ -
  · exact (add_zero _).symm
  · exact (zero_add _).symm

/-- The rigid children fit, and what they leave is the space that the weighted ones share. -/
theorem Heeds.space_eq (h : flex.Heeds limits laid) {low high : ℚ}
    (range : Constraints.Range (flex.axis.main limits.min) (flex.axis.main limits.max) low high) :
    (∀ child ∈ laid, child.1 = none → ∃ m, flex.axis.main child.2.size = of m ∧ 0 ≤ m) ∧
      flex.rigidLength laid = of (laid.map flex.rigidExtent).sum ∧
      flex.space limits laid = of (high - (laid.map flex.rigidExtent).sum) ∧
      0 ≤ high - (laid.map flex.rigidExtent).sum := by
  rw [Heeds, zero_eq] at h
  obtain ⟨hrigid, hlength, hroom⟩ := h.rigid range.max_eq (range.zero_le.trans range.le)
  rw [zero_add] at hlength hroom
  have hused : flex.rigidLength laid = of (laid.map flex.rigidExtent).sum := by
    rw [rigidLength, zero_eq, hlength]
  have hleft : 0 ≤ high - (laid.map flex.rigidExtent).sum := sub_nonneg.mpr hroom
  refine ⟨hrigid, hused, ?_, hleft⟩
  have hfinite : Number.isFinite (of high) = true := rfl
  rw [Flex.space, range.max_eq, if_pos hfinite, hused, of_sub_of, zero_eq, max_of_of,
    max_eq_left hleft]

/-- Children that keep to their offers take up no more than there is, and all of it if one of them
is weighted. -/
theorem Heeds.lengths (h : flex.Heeds limits laid)
    (pos : ∀ child ∈ laid, ∀ w, child.1 = some w → 0 < w) {low high : ℚ}
    (range : Constraints.Range (flex.axis.main limits.min) (flex.axis.main limits.max) low high) :
    flex.Lengths laid high := by
  obtain ⟨hrigid, hused, hspace, hleft⟩ := h.space_eq range
  have hrational := h.weights pos hspace
  have hweighted : ∀ child ∈ laid, child.1 ≠ none →
      ∃ m, flex.axis.main child.2.size = of m ∧ 0 ≤ m := by
    intro child hchild hsome
    obtain ⟨w, hw⟩ := Option.ne_none_iff_exists'.mp hsome
    obtain ⟨htotal, hmain⟩ := h.weighted hrational hspace hchild hw
    exact ⟨_, hmain,
      mul_nonneg (div_nonneg hleft htotal.le) (weight_nonneg hrational child hchild)⟩
  refine ⟨?_, ?_, ?_, ?_⟩
  · intro child hchild
    by_cases hnone : child.1 = none
    · exact hrigid child hchild hnone
    · exact hweighted child hchild hnone
  · rw [length, hused, foldl_addWeighted, sum_extent]
    intro child hchild hsome
    obtain ⟨m, hm, -⟩ := hweighted child hchild hsome
    exact ⟨m, hm⟩
  · by_cases hsome : ∃ child ∈ laid, child.1 ≠ none
    · rw [sum_extent, h.sum_weightedExtent hrational hspace hsome, add_sub_cancel]
    · have hnone : ∀ child ∈ laid, flex.weightedExtent child = 0 := by
        rintro ⟨_ | w, recording⟩ hchild
        · rfl
        · exact absurd ⟨_, hchild, nofun⟩ hsome
      rw [sum_extent, List.map_congr_left hnone, List.map_const', List.sum_replicate, nsmul_zero,
        add_zero]
      exact sub_nonneg.mp hleft
  · intro hsome
    rw [sum_extent, h.sum_weightedExtent hrational hspace hsome, add_sub_cancel]

end Flex

end Trellis
