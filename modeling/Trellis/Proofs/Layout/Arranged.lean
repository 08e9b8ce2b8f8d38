import Mathlib.Tactic.Ring
import Trellis.Proofs.Layout.Sharing

/-!
# Children side by side

With exact arithmetic and finite constraints, a row or column keeps its children apart and within
the size that it answers, provided that they keep to the constraints they are drawn under.

* `Flex.distribute_of` — what is left over is enough for the space before and between the children.
* `Flex.boxes_within`, `Flex.boxes_ordered` — no box reaches beyond the end, or into a later one.
* `Flex.Arranged` — what a row or column comes to.
* `Flex.draw_arranged` — drawing only adds the ops of the children, each child's moved by the origin
  of its box, and the boxes are arranged.
-/

namespace Trellis

open Exact

/-- A length within its limits stays as it is. -/
theorem Constraints.constrain_length {low high length : ℚ} (le : low ≤ length)
    (le' : length ≤ high) :
    Number.min (Number.max (of length) (of low)) (Number.max (of high) (of low)) = of length := by
  simp only [max_of_of, min_of_of]
  rw [max_eq_left le, max_eq_left (le.trans le'), min_eq_left le']

/-- A size within the limits stays as it is. -/
theorem Constraints.constrain_along {limits : Constraints Exact} (axis : Axis)
    {low high low' high' main cross : ℚ}
    (range : Range (axis.main limits.min) (axis.main limits.max) low high)
    (range' : Range (axis.cross limits.min) (axis.cross limits.max) low' high')
    (mem : low ≤ main ∧ main ≤ high) (mem' : low' ≤ cross ∧ cross ≤ high') :
    limits.constrain (axis.along (of main) (of cross)) = axis.along (of main) (of cross) := by
  have hmain := constrain_length mem.1 mem.2
  have hcross := constrain_length mem'.1 mem'.2
  rw [← range.min_eq, ← range.max_eq] at hmain
  rw [← range'.min_eq, ← range'.max_eq] at hcross
  cases axis with
  | horizontal => exact congrArg₂ Vec.mk hmain hcross
  | vertical => exact congrArg₂ Vec.mk hcross hmain

/-- The box lies within a rectangle of that size at the origin. -/
structure Rect.Inside (box : Rect Exact) (size : Size Exact) : Prop where
  zero_le_x : 0 ≤ box.origin.x
  zero_le_y : 0 ≤ box.origin.y
  le_x : box.origin.x + box.size.x ≤ size.x
  le_y : box.origin.y + box.size.y ≤ size.y

namespace Flex

variable {flex : Flex} {limits : Constraints Exact}
  {child : Child Exact (Recording Exact)} {laid : List (Child Exact (Recording Exact))}

/-! ## Space before and between the children -/

/-- What is left over is enough for the space before the first child and the gaps. -/
theorem distribute_of (spacing : Spacing) (count : ℕ) {left : ℚ} (nonneg : 0 ≤ left) :
    ∃ lead gap, distribute spacing count (of left) = (of lead, of gap) ∧ 0 ≤ lead ∧ 0 ≤ gap ∧
      lead + (count - 1) * gap ≤ left := by
  simp only [distribute]
  by_cases hnothing : of left ≤ (0 : Exact) ∨ count = 0
  · refine ⟨0, 0, ?_, le_rfl, le_rfl, by simpa using nonneg⟩
    rw [if_pos hnothing, zero_eq]
  have hcount : 1 ≤ count := Nat.one_le_iff_ne_zero.mpr fun h => hnothing (.inr h)
  rw [if_neg hnothing, zero_eq]
  cases spacing with
  | spaceEnd => exact ⟨0, 0, rfl, le_rfl, le_rfl, by simpa using nonneg⟩
  | spaceStart => exact ⟨left, 0, rfl, nonneg, le_rfl, by simp⟩
  | spaceSides =>
      refine ⟨left / 2, 0, ?_, by positivity, le_rfl, by linarith⟩
      simp [of_div_of]
  | spaceAround =>
      refine ⟨left / (count * 2), left / count, ?_, by positivity, by positivity, ?_⟩
      · simp [of_div_of, Nat.ne_of_gt hcount]
      · -- Half a gap is left at the end.
        have hgap : count * (left / count) = left := mul_div_cancel₀ left (by positivity)
        have hhalf : left / (count * 2) = left / count / 2 := by rw [div_div]
        have hnonneg : 0 ≤ left / count := by positivity
        rw [hhalf]
        linarith
  | spaceBetween =>
      by_cases hmore : 1 < count
      · have hpos : (0 : ℚ) < count - 1 := sub_pos.mpr (Nat.one_lt_cast.mpr hmore)
        refine ⟨0, left / (count - 1), ?_, le_rfl, div_nonneg nonneg hpos.le, ?_⟩
        · simp [hmore, of_div_of, hpos.ne']
        · rw [zero_add, mul_div_cancel₀ left hpos.ne']
      · exact ⟨0, 0, by simp [hmore], le_rfl, le_rfl, by simpa using nonneg⟩
  | spaceEvenly =>
      have hpos : (0 : ℚ) < count + 1 := by positivity
      refine ⟨left / (count + 1), left / (count + 1), ?_, by positivity, by positivity, ?_⟩
      · simp [of_div_of, hpos.ne']
      · -- One gap is left at the end.
        have hgap : (count + 1) * (left / (count + 1)) = left := mul_div_cancel₀ left hpos.ne'
        have hnonneg : 0 ≤ left / (count + 1) := by positivity
        linarith

/-! ## Across the axis -/

/-- The largest of rational numbers that are bounded by `high`. -/
theorem foldl_max_of {high : ℚ} {sizes : List Exact} (bounded : ∀ x ∈ sizes, ∃ z ≤ high, x = of z)
    {start : ℚ} (le : start ≤ high) :
    ∃ largest, sizes.foldl Number.max (of start) = of largest ∧ start ≤ largest ∧
      largest ≤ high ∧ ∀ x ∈ sizes, ∃ z ≤ largest, x = of z := by
  induction sizes generalizing start with
  | nil => exact ⟨start, rfl, le_rfl, le, nofun⟩
  | cons x sizes ih =>
      obtain ⟨⟨z, hz, rfl⟩, hrest⟩ := List.forall_mem_cons.mp bounded
      obtain ⟨largest, hfold, hstart, hle, hmem⟩ := ih hrest (max_le le hz)
      rw [List.foldl_cons, max_of_of]
      refine ⟨largest, hfold, (le_max_left _ _).trans hstart, hle, ?_⟩
      exact List.forall_mem_cons.mpr ⟨⟨z, (le_max_right _ _).trans hstart, rfl⟩, hmem⟩

/-- A child that keeps to its offer is no wider than there is room. -/
theorem Heeds.cross_le {low high : ℚ} (h : flex.Heeds limits laid) (mem : child ∈ laid)
    (range : Constraints.Range (flex.axis.cross limits.min) (flex.axis.cross limits.max) low high) :
    ∃ z ≤ high, flex.axis.cross child.2.size = of z := by
  obtain ⟨used, hallows⟩ := h.of_mem mem
  have hcross : flex.axis.cross limits.min ≤ flex.axis.cross child.2.size ∧
      flex.axis.cross child.2.size ≤ flex.axis.cross limits.max := by
    cases hweight : child.1 with
    | none =>
        rw [hweight] at hallows
        exact ((Axis.allows_along flex.axis).mp hallows).2
    | some weight =>
        rw [hweight] at hallows
        exact ((Axis.allows_along flex.axis).mp hallows).2
  rw [range.min_eq, range.max_eq] at hcross
  obtain ⟨z, hz, -, hle⟩ := exists_between hcross.1 hcross.2
  exact ⟨z, hle, hz⟩

/-- No child is wider than the widest one, which fits. -/
theorem Heeds.crossLength {low high : ℚ} (h : flex.Heeds limits laid)
    (range : Constraints.Range (flex.axis.cross limits.min) (flex.axis.cross limits.max) low high) :
    ∃ cross, flex.crossLength limits (laid.map (·.2)) = of cross ∧ (low ≤ cross ∧ cross ≤ high) ∧
      ∀ child ∈ laid, ∃ z ≤ cross, flex.axis.cross child.2.size = of z := by
  have hbounded : ∀ x ∈ (laid.map (·.2)).map (flex.axis.cross ·.size), ∃ z ≤ high, x = of z := by
    simp only [List.forall_mem_map]
    intro child hchild
    exact h.cross_le hchild range
  obtain ⟨cross, hfold, hlow, hhigh, hmem⟩ := foldl_max_of hbounded range.le
  simp only [List.forall_mem_map] at hmem
  refine ⟨cross, ?_, ⟨hlow, hhigh⟩, hmem⟩
  rw [Flex.crossLength, range.min_eq, hfold]

/-- A box that is as wide as the widest, or less wide, is moved across the axis so that it fits. -/
theorem shift_of (alignment : Alignment) {cross z : ℚ} (le : z ≤ cross) :
    ∃ y, alignment.shift (of cross - of z) = of y ∧ 0 ≤ y ∧ y + z ≤ cross := by
  cases alignment with
  | start | baseline => exact ⟨0, zero_eq, le_rfl, by linarith⟩
  | stop => exact ⟨cross - z, of_sub_of cross z, by linarith, by linarith⟩
  | middle =>
      refine ⟨(cross - z) / 2, ?_, by linarith, by linarith⟩
      simp [Alignment.shift, of_div_of]

/-! ## Boxes -/

/-- A box whose edges are rational: along the axis it lies between `start` and `stop`, and across
the axis between zero and `cross`. -/
structure Within (axis : Axis) (start stop cross : ℚ) (box : Rect Exact) : Prop where
  main : ∃ t m, axis.main box.origin = of t ∧ axis.main box.size = of m ∧ start ≤ t ∧ 0 ≤ m ∧
    t + m ≤ stop
  cross : ∃ y z, axis.cross box.origin = of y ∧ axis.cross box.size = of z ∧ 0 ≤ y ∧ y + z ≤ cross

theorem Within.inside {axis : Axis} {start stop cross length : ℚ} {box : Rect Exact}
    (h : Within axis start stop cross box) (nonneg : 0 ≤ start) (le : stop ≤ length) :
    box.Inside (axis.along (of length) (of cross)) := by
  obtain ⟨t, m, ht, hm, hstart, -, hstop⟩ := h.main
  obtain ⟨y, z, hy, hz, hzero, hcross⟩ := h.cross
  have hnear : (0 : Exact) ≤ axis.main box.origin ∧ (0 : Exact) ≤ axis.cross box.origin := by
    simpa [ht, hy] using ⟨nonneg.trans hstart, hzero⟩
  have hfar : axis.main box.origin + axis.main box.size ≤ of length ∧
      axis.cross box.origin + axis.cross box.size ≤ of cross := by
    simpa [ht, hm, hy, hz] using ⟨hstop.trans le, hcross⟩
  cases axis with
  | horizontal => exact ⟨hnear.1, hnear.2, hfar.1, hfar.2⟩
  | vertical => exact ⟨hnear.2, hnear.1, hfar.2, hfar.1⟩

/-- A child of rational size, no wider than `cross`. -/
def Fits (flex : Flex) (cross : ℚ) (child : Child Exact (Recording Exact)) : Prop :=
  (∃ m, flex.axis.main child.2.size = of m ∧ 0 ≤ m) ∧
    ∃ z ≤ cross, flex.axis.cross child.2.size = of z

theorem Fits.extent_nonneg {cross : ℚ} (h : flex.Fits cross child) : 0 ≤ flex.extent child := by
  obtain ⟨m, hm, hpos⟩ := h.1
  rwa [extent_of hm]

/-- The box after the first one starts where that one ends, and a gap further on. -/
theorem boxes_cons {cross gap start m : ℚ} (main_eq : flex.axis.main child.2.size = of m) :
    flex.boxes (of cross) (of gap) (of start) ((child :: laid).map (·.2)) =
      ⟨flex.axis.along (of start)
          (flex.alignment.shift (of cross - flex.axis.cross child.2.size)), child.2.size⟩ ::
        flex.boxes (of cross) (of gap) (of (start + m + gap)) (laid.map (·.2)) := by
  rw [List.map_cons, boxes, main_eq, of_add_of, of_add_of]

/-- No box starts before `start` or reaches beyond `stop` if there is room for all of them. The
induction is on the children that are left. -/
theorem boxes_within {cross gap start stop : ℚ} (gap_nonneg : 0 ≤ gap)
    (fits : ∀ child ∈ laid, flex.Fits cross child)
    (room : start + (laid.map flex.extent).sum + (laid.length - 1) * gap ≤ stop) :
    ∀ box ∈ flex.boxes (of cross) (of gap) (of start) (laid.map (·.2)),
      Within flex.axis start stop cross box := by
  induction laid generalizing start with
  | nil => exact nofun
  | cons child laid ih =>
      obtain ⟨hfits, hrest⟩ := List.forall_mem_cons.mp fits
      obtain ⟨⟨m, hm, hpos⟩, z, hle, hz⟩ := hfits
      have hlater : 0 ≤ (laid.map flex.extent).sum :=
        List.sum_nonneg (List.forall_mem_map.mpr fun child hchild =>
          (hrest child hchild).extent_nonneg)
      have hgaps : 0 ≤ (laid.length : ℚ) * gap := by positivity
      rw [List.map_cons, List.sum_cons, extent_of hm, List.length_cons, Nat.cast_succ,
        add_sub_cancel_right] at room
      rw [boxes_cons hm]
      refine List.forall_mem_cons.mpr ⟨?_, ?_⟩
      · obtain ⟨y, hy, hzero, hcross⟩ := shift_of flex.alignment hle
        refine ⟨⟨start, m, Axis.main_along .., hm, le_rfl, hpos, by linarith⟩, y, z, ?_, hz, hzero,
          hcross⟩
        rw [hz, hy, Axis.cross_along]
      · intro box hbox
        have hroom : start + m + gap + (laid.map flex.extent).sum +
            (laid.length - 1) * gap ≤ stop := by
          linarith
        obtain ⟨⟨t, m', ht, hm', hle', hwithin⟩, hcross⟩ := ih hrest hroom box hbox
        exact ⟨⟨t, m', ht, hm', by linarith, hwithin⟩, hcross⟩

/-- No box reaches into a later one. -/
theorem boxes_ordered {cross gap start : ℚ} (gap_nonneg : 0 ≤ gap)
    (fits : ∀ child ∈ laid, flex.Fits cross child) :
    (flex.boxes (of cross) (of gap) (of start) (laid.map (·.2))).Pairwise fun box later =>
      flex.axis.main box.origin + flex.axis.main box.size ≤ flex.axis.main later.origin := by
  induction laid generalizing start with
  | nil => exact .nil
  | cons child laid ih =>
      obtain ⟨hfits, hrest⟩ := List.forall_mem_cons.mp fits
      obtain ⟨m, hm, -⟩ := hfits.1
      rw [boxes_cons hm]
      refine .cons ?_ (ih hrest)
      intro later hlater
      obtain ⟨t, -, ht, -, hle, -⟩ := (boxes_within gap_nonneg hrest le_rfl later hlater).main
      simp only [Axis.main_along]
      rw [hm, ht, of_add_of, of_le_of]
      linarith

/-- The next box starts a gap after the end of a box. -/
theorem boxes_isChain {α : Type} [Number α] (flex : Flex) (cross gap start : α)
    (recordings : List (Recording α)) :
    (flex.boxes cross gap start recordings).IsChain fun box next =>
      flex.axis.main next.origin =
        flex.axis.main box.origin + flex.axis.main box.size + gap := by
  induction recordings generalizing start with
  | nil => exact .nil
  | cons recording rest ih =>
      cases rest with
      | nil => exact .singleton _
      | cons next rest =>
          refine .cons_cons ?_ (ih _)
          rw [Axis.main_along, Axis.main_along]

theorem boxes_size {α : Type} [Number α] (flex : Flex) (cross gap start : α)
    (recordings : List (Recording α)) :
    (flex.boxes cross gap start recordings).map (·.size) = recordings.map (·.size) := by
  induction recordings generalizing start with
  | nil => rfl
  | cons recording rest ih => rw [boxes, List.map_cons, List.map_cons, ih]

/-- Where the boxes start, and the gap between them: there is room for all of them. -/
theorem placed_of {low high cross : ℚ} {recordings : List (Recording Exact)}
    (range : Constraints.Range (flex.axis.main limits.min) (flex.axis.main limits.max) low high)
    (cross_eq : flex.crossLength limits recordings = of cross) (used : ℚ) :
    ∃ lead gap, flex.placed limits (of used) recordings =
        flex.boxes (of cross) (of gap) (of lead) recordings ∧
      0 ≤ lead ∧ 0 ≤ gap ∧ lead + used + (recordings.length - 1) * gap ≤ max used low := by
  obtain ⟨lead, gap, hdistribute, hlead, hgap, hle⟩ :=
    distribute_of flex.spacing recordings.length (le_max_right (low - used) 0)
  refine ⟨lead, gap, ?_, hlead, hgap, ?_⟩
  · rw [placed, range.min_eq, of_sub_of, zero_eq, max_of_of, hdistribute, cross_eq]
  · have hend : max (low - used) 0 + used = max used low := by
      rw [max_add, sub_add_cancel, zero_add, max_comm]
    linarith

/-! ## Rows and columns -/

/-- The lengths of boxes, added up. -/
def total (flex : Flex) (boxes : List (Rect Exact)) : Exact :=
  (boxes.map fun box => flex.axis.main box.size).foldl (· + ·) 0

/-- The boxes of children that are arranged in a row or column of that size. -/
structure Arranged (flex : Flex) (limits : Constraints Exact)
    (laid : List (Child Exact (Recording Exact))) (boxes : List (Rect Exact)) (size : Size Exact) :
    Prop where
  /-- Every child has a box of its own size. -/
  sizes : boxes.map (·.size) = laid.map (·.2.size)
  /-- Together they take up no more than there is. -/
  fits : flex.total boxes ≤ flex.axis.main limits.max
  /-- If one of them is weighted, they take up all of it. -/
  fills : (∃ child ∈ laid, child.1 ≠ none) → flex.total boxes = flex.axis.main limits.max
  gaps : ∃ gap : Exact, 0 ≤ gap ∧ boxes.IsChain fun box next =>
    flex.axis.main next.origin = flex.axis.main box.origin + flex.axis.main box.size + gap
  ordered : boxes.Pairwise fun box later =>
    flex.axis.main box.origin + flex.axis.main box.size ≤ flex.axis.main later.origin
  inside : ∀ box ∈ boxes, box.Inside size

theorem total_of {boxes : List (Rect Exact)} (sizes : boxes.map (·.size) = laid.map (·.2.size))
    (rational : ∀ child ∈ laid, ∃ m, flex.axis.main child.2.size = of m ∧ 0 ≤ m) :
    flex.total boxes = of (laid.map flex.extent).sum := by
  have hrational : ∀ x ∈ laid.map fun child => flex.axis.main child.2.size, ∃ q, x = of q :=
    List.forall_mem_map.mpr fun child hchild => (rational child hchild).imp fun _ h => h.1
  have hmap : (boxes.map fun box => flex.axis.main box.size) =
      laid.map fun child => flex.axis.main child.2.size := by
    simpa [Function.comp_def] using congrArg (List.map flex.axis.main) sizes
  rw [total, hmap, zero_eq, foldl_add_of hrational, List.map_map, zero_add]
  rfl

/-- The weights that children are kept with are positive. -/
theorem Laid.weights_pos {ε : Type} {metrics : TextMetrics Exact}
    {children : List (Child Exact (Draw Exact ε (Size Exact)))}
    (h : flex.Laid metrics limits children laid)
    (kept : ∀ child ∈ children, keepWeight child.1 = child.1) :
    ∀ child ∈ laid, ∀ w, child.1 = some w → 0 < w := by
  intro child hchild w hw
  have hmem : some w ∈ children.map (·.1) := by
    rw [← LaidFrom.weights h, ← hw]
    exact List.mem_map_of_mem hchild
  obtain ⟨asked, hasked, heq⟩ := List.mem_map.mp hmem
  have hkept := kept asked hasked
  rw [heq, keepWeight, Option.filter_eq_some_iff] at hkept
  exact of_decide_eq_true hkept.2

/-- A row or column under finite constraints, whose children keep to the constraints that they are
drawn under: the ops of the children follow one another in the order of the children, each child's
moved by the origin of its box, and the boxes are arranged. -/
theorem draw_arranged {ε : Type} (flex : Flex)
    (children : List (Child Exact (Draw Exact ε (Size Exact)))) (c : Canvas Exact ε)
    (kept : ∀ child ∈ children, keepWeight child.1 = child.1) (sound : c.constraints.Sound)
    (heeds : flex.Heeds c.constraints (flex.recorded children c)) :
    flex.Laid c.metrics c.constraints children (flex.recorded children c) ∧
      ∃ size boxes requests, flex.draw children c = (size, { c with
        requests := requests
        ops := c.ops ++ placedOps c.origin ((flex.recorded children c).map (·.2)) boxes }) ∧
        flex.Arranged c.constraints (flex.recorded children c) boxes size := by
  obtain ⟨hlaid, requests, hdraw⟩ := draw_laid flex children c
  obtain ⟨low, high, hmain⟩ := sound.exists_main flex.axis
  obtain ⟨low', high', hcross⟩ := sound.exists_cross flex.axis
  have hlengths := heeds.lengths (hlaid.weights_pos kept) hmain
  obtain ⟨cross, hwidest, hrange, hwide⟩ := heeds.crossLength hcross
  generalize flex.recorded children c = laid at *
  obtain ⟨lead, gap, hplaced, hlead, hgap, hroom⟩ :=
    placed_of hmain hwidest (laid.map flex.extent).sum
  have hfits : ∀ child ∈ laid, flex.Fits cross child := fun child hchild =>
    ⟨hlengths.rational child hchild, hwide child hchild⟩
  have hsizes : (flex.boxes (of cross) (of gap) (of lead) (laid.map (·.2))).map (·.size) =
      laid.map (·.2.size) := by
    rw [boxes_size, List.map_map]
    rfl
  have htotal := total_of hsizes hlengths.rational
  have hsize := Constraints.constrain_along flex.axis hmain hcross
    ⟨le_max_right (laid.map flex.extent).sum low, max_le hlengths.fits hmain.le⟩ hrange
  simp only [hlengths.length, hmain.min_eq, max_of_of, hwidest, hsize, hplaced] at hdraw
  refine ⟨hlaid, _, _, requests, hdraw, hsizes, ?_, ?_, ⟨of gap, ?_, ?_⟩, ?_, ?_⟩
  · rw [htotal, hmain.max_eq, of_le_of]
    exact hlengths.fits
  · intro hweighted
    rw [htotal, hmain.max_eq, hlengths.fills hweighted]
  · rwa [zero_eq, of_le_of]
  · exact boxes_isChain flex _ _ _ _
  · exact boxes_ordered hgap hfits
  · intro box hbox
    rw [List.length_map] at hroom
    exact (boxes_within hgap hfits hroom box hbox).inside hlead le_rfl

/-- A child that fills the allowed size nearest to `size`. -/
def block (element : String) (size : Size Exact) : Draw Exact Empty (Size Exact) := do
  let limits ← Canvas.limits
  Canvas.paint element (limits.constrain size) (.fill (.ofRgb 0))
  pure (limits.constrain size)

/-- A row of a rigid child between two weighted ones, which differ in weight and height. -/
theorem draw_arranged_mixed :
    let flex : Flex := ⟨.horizontal, .spaceEvenly, .middle⟩
    let children : List (Child Exact (Draw Exact Empty (Size Exact))) :=
      [(some 1, block "left" ⟨0, 20⟩), (none, block "middle" ⟨20, 30⟩),
        (some 3, block "right" ⟨0, 10⟩)]
    let c : Canvas Exact Empty := ⟨⟨⟨50, 10⟩, ⟨100, 40⟩⟩, .standard, Vec.zero, [], []⟩
    flex.Heeds c.constraints (flex.recorded children c) ∧
      ∃ size boxes requests, flex.draw children c = (size, { c with
        requests := requests
        ops := c.ops ++ placedOps c.origin ((flex.recorded children c).map (·.2)) boxes }) ∧
        flex.Arranged c.constraints (flex.recorded children c) boxes size := by
  intro flex children c
  have hkept : ∀ child ∈ children, keepWeight child.1 = child.1 := by
    simp only [children, List.forall_mem_cons]
    exact ⟨by decide +kernel, rfl, by decide +kernel, nofun⟩
  have hsound : c.constraints.Sound := by
    constructor <;> decide +kernel
  have hheeds : flex.Heeds c.constraints (flex.recorded children c) := by
    decide +kernel
  exact ⟨hheeds, (draw_arranged flex children c hkept hsound hheeds).2⟩

end Flex

end Trellis
