import Mathlib.Data.List.Chain
import Mathlib.Data.List.DropRight
import Trellis.Look.Items
import Trellis.Proofs.Layout.Arranged
import Trellis.Proofs.List.Longest

/-!
# What shows of a list

A list draws an item only if all of it is in view. With exact arithmetic and items of finite
lengths, those are the items at the edge that is kept in view, as many as fit.

* `ListLook.line` — all items one after another; `ListLook.shown` — those of them that are in view.
* `ListLook.draw_shown` — drawing adds the ops of what is shown.
* `ListLook.Lengthy.longest_start` — of a line that starts in view, its longest start is in view.
* `ListLook.Lengthy.longest_end` — of a line that ends at the far end, its longest end is.
* `ListLook.draw_shows` — what a list shows, in either mode.
-/

namespace Trellis

open Exact

namespace ListLook

variable {α ε : Type} [Number α]

/-- The list in the given mode. -/
def inMode (look : ListLook α ε) (scrollToEnd : Bool) : ListLook α ε :=
  { look with scrollToEnd := scrollToEnd }

/-! ## All items, and those in view -/

/-- The constraints that an item is drawn under. -/
def itemLimits (look : ListLook α ε) (limits : Constraints α) : Constraints α :=
  ⟨look.axis.along 0 (look.axis.cross limits.min),
    look.axis.along Number.infinity (look.axis.cross limits.max)⟩

/-- The recordings that measuring makes. -/
def recorded (look : ListLook α ε) (items : List (Draw α ε (Size α))) (c : Canvas α ε) :
    List (Recording α) :=
  (look.measure c.constraints items c).1

/-- What the items request while they are recorded, after what is requested already. -/
def requested (look : ListLook α ε) (items : List (Draw α ε (Size α))) (c : Canvas α ε) : List ε :=
  (look.measure c.constraints items c).2.requests

/-- The lengths of recordings. -/
def lengths (look : ListLook α ε) (recordings : List (Recording α)) : List α :=
  recordings.map fun r => look.axis.main r.size

/-- The length of recordings that stand one after another. -/
def length (look : ListLook α ε) (recordings : List (Recording α)) : α :=
  (look.lengths recordings).foldl (· + ·) 0

/-- The length that is visible of the recordings. -/
def visible (look : ListLook α ε) (limits : Constraints α) (recordings : List (Recording α)) : α :=
  Number.min (look.length recordings) (look.axis.main limits.max)

/-- The width of the widest recording, but at least the minimum. -/
def width (look : ListLook α ε) (limits : Constraints α) (recordings : List (Recording α)) : α :=
  (recordings.map fun r => look.axis.cross r.size).foldl Number.max (look.axis.cross limits.min)

/-- The box of a recording that starts at `main`. -/
def boxAt (look : ListLook α ε) (cross main : α) (item : Recording α) : Rect α :=
  ⟨look.axis.along main (look.alignment.shift (cross - look.axis.cross item.size)), item.size⟩

/-- The recordings one after another, the first at `main`, each with its box. -/
def line (look : ListLook α ε) (cross main : α) :
    List (Recording α) → List (Recording α × Rect α)
  | [] => []
  | item :: rest =>
    (item, look.boxAt cross main item) :: line look cross (main + look.axis.main item.size) rest

/-- The box stands out of the visible length by no more than the slack. -/
def InView (look : ListLook α ε) (visible : α) (box : Rect α) : Prop :=
  0 - slack ≤ look.axis.main box.origin ∧
    look.axis.main box.origin + look.axis.main box.size ≤ visible + slack

instance (look : ListLook α ε) (visible : α) : DecidablePred (look.InView visible) := fun _ =>
  inferInstanceAs (Decidable (_ ∧ _))

/-- What is in view of a line. -/
def seen (look : ListLook α ε) (visible cross main : α) (recordings : List (Recording α)) :
    List (Recording α × Rect α) :=
  (look.line cross main recordings).filter fun item => look.InView visible item.2

/-- The recordings that show, with their boxes. -/
def shown (look : ListLook α ε) (limits : Constraints α) (recordings : List (Recording α)) :
    List (Recording α × Rect α) :=
  let visible := look.visible limits recordings
  look.seen visible (look.width limits recordings)
    (if look.scrollToEnd then visible - look.length recordings else 0) recordings

/-- The ops of recordings that are placed in boxes, as seen from the origin. -/
def shownOps (origin : Point α) (shown : List (Recording α × Rect α)) : List (DrawOp α) :=
  shown.flatMap fun (recording, box) => recording.ops.map (·.translate (origin + box.origin))

@[simp] theorem main_boxAt (look : ListLook α ε) (cross main : α) (item : Recording α) :
    look.axis.main (look.boxAt cross main item).origin = main :=
  Axis.main_along _ _ _

@[simp] theorem boxAt_size (look : ListLook α ε) (cross main : α) (item : Recording α) :
    (look.boxAt cross main item).size = item.size := rfl

theorem line_cons (look : ListLook α ε) (cross main : α) (item : Recording α)
    (rest : List (Recording α)) : look.line cross main (item :: rest) =
      (item, look.boxAt cross main item) ::
        look.line cross (main + look.axis.main item.size) rest := rfl

theorem seen_cons (look : ListLook α ε) (visible cross main : α) (item : Recording α)
    (rest : List (Recording α)) : look.seen visible cross main (item :: rest) =
      if look.InView visible (look.boxAt cross main item) then
        (item, look.boxAt cross main item) ::
          look.seen visible cross (main + look.axis.main item.size) rest
      else look.seen visible cross (main + look.axis.main item.size) rest := by
  rw [seen, line_cons, List.filter_cons]
  simp only [decide_eq_true_eq]
  rfl

theorem line_fst (look : ListLook α ε) (cross main : α) (recordings : List (Recording α)) :
    (look.line cross main recordings).map (·.1) = recordings := by
  induction recordings generalizing main with
  | nil => rfl
  | cons item rest ih => rw [line_cons, List.map_cons, ih]

theorem line_size (look : ListLook α ε) (cross main : α) (recordings : List (Recording α)) :
    ∀ item ∈ look.line cross main recordings, item.2.size = item.1.size := by
  induction recordings generalizing main with
  | nil => exact nofun
  | cons item rest ih => exact List.forall_mem_cons.mpr ⟨rfl, ih _⟩

/-- Every item starts where the one before it ends. -/
theorem line_isChain (look : ListLook α ε) (cross main : α) (recordings : List (Recording α)) :
    (look.line cross main recordings).IsChain fun item next =>
      look.axis.main next.2.origin =
        look.axis.main item.2.origin + look.axis.main item.2.size := by
  induction recordings generalizing main with
  | nil => exact .nil
  | cons item rest ih =>
      cases rest with
      | nil => exact .singleton _
      | cons next rest =>
          refine .cons_cons ?_ (ih _)
          rw [main_boxAt, main_boxAt, boxAt_size]

theorem line_inMode (look : ListLook α ε) (scrollToEnd : Bool) (cross main : α)
    (recordings : List (Recording α)) :
    (look.inMode scrollToEnd).line cross main recordings = look.line cross main recordings := by
  induction recordings generalizing main with
  | nil => rfl
  | cons item rest ih => exact congrArg _ (ih _)

/-! ## Drawing -/

theorem measure_inMode (look : ListLook α ε) (scrollToEnd : Bool) (limits : Constraints α)
    (items : List (Draw α ε (Size α))) :
    (look.inMode scrollToEnd).measure limits items = look.measure limits items := by
  induction items with
  | nil => rfl
  | cons item rest ih =>
      rw [measure, measure, ih]
      rfl

/-- Measuring records the items in order, and only takes over their requests. -/
theorem measure_recorded (look : ListLook α ε) (items : List (Draw α ε (Size α)))
    (c : Canvas α ε) :
    look.measure c.constraints items c =
        (look.recorded items c, { c with requests := look.requested items c }) ∧
      List.Forall₂ (Canvas.Drawn c.metrics (look.itemLimits c.constraints)) items
        (look.recorded items c) := by
  have hmeasure (limits : Constraints α) (c : Canvas α ε) : ∃ recordings requests,
      look.measure limits items c = (recordings, { c with requests := requests }) ∧
        List.Forall₂ (Canvas.Drawn c.metrics (look.itemLimits limits)) items recordings := by
    induction items generalizing c with
    | nil => exact ⟨[], c.requests, rfl, .nil⟩
    | cons item rest ih =>
        obtain ⟨recording, requests, hrecord, hdrawn⟩ :=
          Canvas.record_drawn (look.itemLimits limits) item c
        obtain ⟨recordings, requests', hrest, hothers⟩ := ih { c with requests := requests }
        exact ⟨recording :: recordings, requests',
          (Draw.bind_run hrecord).trans (Draw.bind_run hrest), .cons hdrawn hothers⟩
  obtain ⟨recordings, requests, hrun, hdrawn⟩ := hmeasure c.constraints c
  rw [recorded, requested, hrun]
  exact ⟨rfl, hdrawn⟩

/-- Placing adds the ops of what is in view. The induction is on the recordings. -/
theorem place_run (look : ListLook α ε) (visible cross main : α)
    (recordings : List (Recording α)) (c : Canvas α ε) :
    look.place visible cross main recordings c = ((), { c with
      ops := c.ops ++ shownOps c.origin (look.seen visible cross main recordings) }) := by
  induction recordings generalizing main c with
  | nil => exact Prod.ext rfl (congrArg ({ c with ops := · }) (List.append_nil c.ops).symm)
  | cons item rest ih =>
      have hview : look.InView visible (look.boxAt cross main item) ↔
          0 - slack ≤ main ∧ main + look.axis.main item.size ≤ visible + slack := by
        rw [InView, main_boxAt, boxAt_size]
      rw [place, seen_cons]
      simp only [hview]
      split
      · refine (Draw.bind_run rfl).trans ((ih _ _).trans ?_)
        rw [List.append_assoc]
        rfl
      · exact ih _ _

/-- Drawing adds the ops of what is shown of the items. -/
theorem draw_shown (look : ListLook α ε) {items : List (Draw α ε (Size α))}
    (bound : look.items = some items) (c : Canvas α ε) :
    let recordings := look.recorded items c
    look.draw c =
      (c.constraints.constrain (look.axis.along (look.visible c.constraints recordings)
        (look.width c.constraints recordings)),
        { c with
          requests := look.requested items c
          ops := c.ops ++ shownOps c.origin (look.shown c.constraints recordings) }) := by
  have hlimits : (Canvas.limits : Draw α ε (Constraints α)) c = (c.constraints, c) := rfl
  refine (Draw.bind_run hlimits).trans ?_
  rw [bound]
  exact (Draw.bind_run (look.measure_recorded items c).1).trans
    (Draw.bind_run (look.place_run _ _ _ _ _))

/-! ## Lengths of items -/

/-- The length of a recording. -/
def extent (look : ListLook Exact ε) (recording : Recording Exact) : ℚ :=
  (look.axis.main recording.size).val

/-- The lengths of all recordings, added up. -/
def extents (look : ListLook Exact ε) (recordings : List (Recording Exact)) : ℚ :=
  (recordings.map look.extent).sum

/-- The recordings have lengths, none of which is negative. -/
def Lengthy (look : ListLook Exact ε) (recordings : List (Recording Exact)) : Prop :=
  ∀ recording ∈ recordings, look.axis.main recording.size = of (look.extent recording) ∧
    0 ≤ look.extent recording

variable {look : ListLook Exact ε} {recordings : List (Recording Exact)}

/-- These are the finite lengths that are not negative. -/
theorem lengthy_iff : look.Lengthy recordings ↔
    ∀ length ∈ look.lengths recordings, 0 ≤ length ∧ Number.isFinite length = true := by
  rw [lengths, List.forall_mem_map]
  refine forall₂_congr fun recording _ => ?_
  rw [extent]
  cases look.axis.main recording.size with
  | of q => simp [Number.isFinite]
  | infinite _ | undefined => simp [Number.isFinite]

/-- How far an item may stand out. -/
def slackWidth : ℚ := 1 / 10 ^ 9

theorem slack_eq : (slack : Exact) = of slackWidth := by decide +kernel

theorem slackWidth_nonneg : 0 ≤ slackWidth := by decide +kernel

theorem extents_cons (item : Recording Exact) (rest : List (Recording Exact)) :
    look.extents (item :: rest) = look.extent item + look.extents rest := by
  rw [extents, List.map_cons, List.sum_cons, extents]

theorem Lengthy.cons {item : Recording Exact} {rest : List (Recording Exact)}
    (h : look.Lengthy (item :: rest)) :
    (look.axis.main item.size = of (look.extent item) ∧ 0 ≤ look.extent item) ∧
      look.Lengthy rest :=
  List.forall_mem_cons.mp h

theorem Lengthy.subset {part : List (Recording Exact)} (h : look.Lengthy recordings)
    (subset : part ⊆ recordings) : look.Lengthy part :=
  fun recording mem => h recording (subset mem)

theorem Lengthy.extents_nonneg (h : look.Lengthy recordings) : 0 ≤ look.extents recordings := by
  refine List.sum_nonneg fun m hm => ?_
  obtain ⟨recording, hrecording, rfl⟩ := List.mem_map.mp hm
  exact (h recording hrecording).2

theorem Lengthy.length_eq (h : look.Lengthy recordings) :
    look.length recordings = of (look.extents recordings) := by
  have hrational : ∀ x ∈ look.lengths recordings, ∃ q, x = of q :=
    List.forall_mem_map.mpr fun recording mem => ⟨_, (h recording mem).1⟩
  rw [length, zero_eq, foldl_add_of hrational, lengths, List.map_map, zero_add]
  rfl

/-! ## What is in view of a line -/

variable {cross : Exact} {v p : ℚ}

theorem inView_of {item : Recording Exact}
    (main_eq : look.axis.main item.size = of (look.extent item)) :
    look.InView (of v) (look.boxAt cross (of p) item) ↔
      -slackWidth ≤ p ∧ p + look.extent item ≤ v + slackWidth := by
  rw [InView, main_boxAt, boxAt_size, main_eq, slack_eq, zero_eq, of_sub_of, of_add_of, of_add_of,
    of_le_of, of_le_of, zero_sub]

/-- The items of a line stand between its start and its end. -/
theorem Lengthy.between (h : look.Lengthy recordings) :
    ∀ item ∈ look.line cross (of p) recordings, ∃ q m,
      look.axis.main item.2.origin = of q ∧ look.axis.main item.2.size = of m ∧
        p ≤ q ∧ 0 ≤ m ∧ q + m ≤ p + look.extents recordings := by
  induction recordings generalizing p with
  | nil => exact fun _ hitem => absurd hitem List.not_mem_nil
  | cons item rest ih =>
      obtain ⟨⟨hmain, hnonneg⟩, hrest⟩ := h.cons
      have hlater := hrest.extents_nonneg
      rw [line_cons, hmain, of_add_of, extents_cons]
      refine List.forall_mem_cons.mpr ⟨⟨p, _, main_boxAt .., hmain, le_rfl, hnonneg, ?_⟩, ?_⟩
      · linarith
      · intro later hlater
        obtain ⟨q, m, horigin, hsize, hq, hm, hend⟩ := ih hrest later hlater
        exact ⟨q, m, horigin, hsize, by linarith, hm, by linarith⟩

/-- Nothing that starts beyond the far end is in view. -/
theorem Lengthy.seen_nil (h : look.Lengthy recordings) (beyond : v + slackWidth < p) :
    look.seen (of v) cross (of p) recordings = [] := by
  refine List.filter_eq_nil_iff.mpr fun item hitem => ?_
  obtain ⟨q, m, horigin, hsize, hq, hm, -⟩ := h.between item hitem
  simp only [InView, horigin, hsize, slack_eq, of_add_of, of_le_of, decide_eq_true_eq]
  rintro ⟨-, hend⟩
  linarith

/-- All of a line that is between the ends is in view. -/
theorem Lengthy.seen_all (h : look.Lengthy recordings) (near : -slackWidth ≤ p)
    (far : p + look.extents recordings ≤ v + slackWidth) :
    look.seen (of v) cross (of p) recordings = look.line cross (of p) recordings := by
  refine List.filter_eq_self.mpr fun item hitem => ?_
  obtain ⟨q, m, horigin, hsize, hq, -, hend⟩ := h.between item hitem
  simp only [InView, horigin, hsize, slack_eq, zero_eq, of_sub_of, of_add_of, of_le_of,
    decide_eq_true_eq]
  exact ⟨by linarith, by linarith⟩

/-- Part of a line has a length, too. -/
theorem Lengthy.part {atEnd : Bool} {main : Exact} {part : List (Recording Exact × Rect Exact)}
    (h : look.Lengthy recordings) (outer : Outer atEnd part (look.line cross main recordings)) :
    look.Lengthy (part.map (·.1)) := by
  refine h.subset ?_
  conv_rhs => rw [← look.line_fst cross main recordings]
  exact List.map_subset _ outer.subset

/-- Of a line that starts in view, its longest start up to the far end is in view. The induction is
on the recordings: what follows the first item that is cut off starts beyond the far end. -/
theorem Lengthy.longest_start (h : look.Lengthy recordings) (near : -slackWidth ≤ p)
    (le : p ≤ v + slackWidth) :
    Longest false (fun other => p + look.extents (other.map (·.1)) ≤ v + slackWidth)
      (look.seen (of v) cross (of p) recordings) (look.line cross (of p) recordings) := by
  induction recordings generalizing p with
  | nil => exact ⟨List.prefix_rfl, by simpa [seen, line, extents], fun _ h _ => h.length_le⟩
  | cons item rest ih =>
      obtain ⟨⟨hmain, hnonneg⟩, hrest⟩ := h.cons
      rw [seen_cons, line_cons, hmain, of_add_of]
      by_cases hend : p + look.extent item ≤ v + slackWidth
      · rw [if_pos ((inView_of hmain).mpr ⟨near, hend⟩)]
        refine Longest.cons ((ih hrest (by linarith) hend).congr fun other _ => ?_)
        rw [List.map_cons, extents_cons, add_assoc]
      · rw [if_neg fun hview => hend ((inView_of hmain).mp hview).2,
          hrest.seen_nil (not_le.mp hend)]
        refine ⟨List.nil_prefix, by simpa [extents], fun other houter hfits => ?_⟩
        rcases List.prefix_cons_iff.mp houter with rfl | ⟨later, rfl, hlater⟩
        · exact le_rfl
        · -- The item alone is too long, and nothing makes up for it.
          have hpart : Outer false later _ := hlater
          have hmore := (hrest.part hpart).extents_nonneg
          rw [List.map_cons, extents_cons] at hfits
          exact absurd (by linarith) hend

/-- Of a line that ends at the far end, its longest end that fits is in view. The induction is on
the recordings: from the first item that is not cut off, all of the line is in view. -/
theorem Lengthy.longest_end (h : look.Lengthy recordings) (nonneg : 0 ≤ v)
    (stop : p + look.extents recordings = v) :
    Longest true (fun other => look.extents (other.map (·.1)) ≤ v + slackWidth)
      (look.seen (of v) cross (of p) recordings) (look.line cross (of p) recordings) := by
  have hslack := slackWidth_nonneg
  induction recordings generalizing p with
  | nil =>
      refine ⟨List.suffix_rfl, ?_, fun _ houter _ => houter.length_le⟩
      simpa [seen, line, extents] using add_nonneg nonneg hslack
  | cons item rest ih =>
      obtain ⟨⟨hmain, -⟩, hrest⟩ := h.cons
      by_cases hnear : -slackWidth ≤ p
      · rw [h.seen_all hnear (by linarith)]
        refine ⟨List.suffix_rfl, ?_, fun _ houter _ => houter.length_le⟩
        rw [line_fst]
        linarith
      · have hlater := ih hrest (p := p + look.extent item) (by rw [← stop, extents_cons]; ring)
        rw [seen_cons, line_cons, hmain, of_add_of,
          if_neg fun hview => hnear ((inView_of hmain).mp hview).1]
        refine ⟨List.IsSuffix.trans hlater.outer (List.suffix_cons _ _), hlater.part_fits,
          fun other houter hfits => ?_⟩
        rcases List.suffix_cons_iff.mp houter with rfl | hother
        · -- The whole line is too long.
          rw [List.map_cons, line_fst] at hfits
          linarith
        · exact hlater.longest other hother hfits

/-! ## What a list shows -/

variable {limits : Constraints Exact}

/-- What is visible is a length, and that of all items if there is room. -/
theorem Lengthy.visible_of (h : look.Lengthy recordings) (room : 0 ≤ look.axis.main limits.max) :
    ∃ v, look.visible limits recordings = of v ∧ 0 ≤ v ∧
      (look.length recordings ≤ look.axis.main limits.max → v = look.extents recordings) := by
  have hnonneg := h.extents_nonneg
  rw [visible, h.length_eq]
  rcases nonneg_cases room with ⟨m, hmax, hm⟩ | hmax
  · rw [hmax]
    exact ⟨_, min_of_of _ _, le_min hnonneg hm, fun hle => min_eq_left (of_le_of.mp hle)⟩
  · rw [hmax]
    exact ⟨look.extents recordings, rfl, hnonneg, fun _ => rfl⟩

/-- The recordings fit into what is visible of the list. -/
def Fits (look : ListLook Exact ε) (limits : Constraints Exact)
    (recordings part : List (Recording Exact)) : Prop :=
  look.length part ≤ look.visible limits recordings + slack

/-- What a list shows of its items. -/
structure Shows (look : ListLook Exact ε) (limits : Constraints Exact)
    (recordings : List (Recording Exact)) (shown : List (Recording Exact × Rect Exact)) : Prop where
  /-- It is the longest start that fits, or with `scrollToEnd` the longest end. -/
  longest : Longest look.scrollToEnd (look.Fits limits recordings) (shown.map (·.1)) recordings
  /-- Every recording has a box of its own size. -/
  sizes : ∀ item ∈ shown, item.2.size = item.1.size
  /-- Every box starts where the one before it ends. -/
  adjoining : shown.IsChain fun item next =>
    look.axis.main next.2.origin = look.axis.main item.2.origin + look.axis.main item.2.size
  inView : ∀ item ∈ shown, look.InView (look.visible limits recordings) item.2

/-- What is shown is the longest start of a line, or its longest end. -/
theorem Lengthy.shown_longest (h : look.Lengthy recordings)
    (room : 0 ≤ look.axis.main limits.max) : ∃ main,
      Longest look.scrollToEnd (fun other => look.Fits limits recordings (other.map (·.1)))
        (look.shown limits recordings)
        (look.line (look.width limits recordings) main recordings) := by
  obtain ⟨v, hvisible, hnonneg, -⟩ := h.visible_of room
  have hslack := slackWidth_nonneg
  have hfits {atEnd : Bool} {main : Exact} (other : List (Recording Exact × Rect Exact))
      (houter : Outer atEnd other (look.line (look.width limits recordings) main recordings)) :
      look.extents (other.map (·.1)) ≤ v + slackWidth ↔
        look.Fits limits recordings (other.map (·.1)) := by
    rw [Fits, (h.part houter).length_eq, hvisible, slack_eq, of_add_of, of_le_of]
  rw [shown, hvisible]
  cases look.scrollToEnd with
  | false =>
      refine ⟨of 0, Longest.congr ?_ hfits⟩
      simpa [zero_eq] using h.longest_start (p := 0) (v := v) (by linarith) (by linarith)
  | true =>
      refine ⟨of (v - look.extents recordings), Longest.congr ?_ hfits⟩
      rw [if_pos rfl, h.length_eq, of_sub_of]
      exact h.longest_end hnonneg (by ring)

theorem Lengthy.shows (h : look.Lengthy recordings) (room : 0 ≤ look.axis.main limits.max) :
    look.Shows limits recordings (look.shown limits recordings) := by
  obtain ⟨main, hlongest⟩ := h.shown_longest room
  refine ⟨?_, ?_, hlongest.outer.isChain (look.line_isChain _ _ _), ?_⟩
  · have hmap := hlongest.map
    rwa [line_fst] at hmap
  · exact fun item hitem => look.line_size _ _ _ item (hlongest.outer.subset hitem)
  · exact fun item hitem => of_decide_eq_true (List.mem_filter.mp hitem).2

/-- If there is room for all items, they show, wherever the list is scrolled to. -/
theorem Lengthy.shown_all (h : look.Lengthy recordings) (room : 0 ≤ look.axis.main limits.max)
    (fits : look.length recordings ≤ look.axis.main limits.max) :
    look.shown limits recordings = look.line (look.width limits recordings) 0 recordings := by
  obtain ⟨v, hvisible, -, hall⟩ := h.visible_of room
  have hv := hall fits
  have hslack := slackWidth_nonneg
  have hstart : (if look.scrollToEnd then of v - look.length recordings else 0) = of 0 := by
    rw [h.length_eq, hv, of_sub_of, sub_self, zero_eq, ite_self]
  rw [shown, hvisible, hstart, zero_eq]
  exact h.seen_all (by linarith) (by linarith)

/-! ## The list in reverse -/

theorem length_reverse (look : ListLook Exact ε) {recordings others : List (Recording Exact)}
    (reverse : look.lengths others = (look.lengths recordings).reverse) :
    look.length others = look.length recordings := by
  have : RightCommutative fun x y : Exact => x + y := ⟨fun x y z => by
    rw [ExactSum.add_assoc, ExactSum.add_comm y z, ExactSum.add_assoc]⟩
  rw [length, reverse, length]
  exact (List.reverse_perm _).foldl_eq 0

/-- The first of the others have the lengths of the last recordings. -/
theorem lengths_take {others : List (Recording Exact)}
    (reverse : look.lengths others = (look.lengths recordings).reverse) (count : ℕ) :
    look.lengths (others.take count) = (look.lengths (recordings.rtake count)).reverse := by
  rw [lengths, List.map_take, ← lengths, reverse, List.rtake_eq_reverse_take_reverse, lengths,
    lengths, List.map_reverse, List.reverse_reverse, List.map_take, List.map_reverse]

/-- As many items show at the end of a list as at the start of the reversed one. -/
theorem Shows.reverse {others : List (Recording Exact)}
    {shown shown' : List (Recording Exact × Rect Exact)}
    (h : (look.inMode true).Shows limits recordings shown)
    (h' : (look.inMode false).Shows limits others shown')
    (reverse : look.lengths others = (look.lengths recordings).reverse) :
    ∃ count, shown.map (·.1) = recordings.rtake count ∧ shown'.map (·.1) = others.take count := by
  refine ⟨_, h.longest.eq_rtake_take h'.longest ?_ fun count => ?_⟩
  · simpa [lengths] using congrArg List.length reverse
  · have hpart := look.length_reverse (lengths_take reverse count)
    have hall := look.length_reverse reverse
    have hfits : look.Fits limits others (others.take count) ↔
        look.Fits limits recordings (recordings.rtake count) := by
      rw [Fits, Fits, visible, visible, hpart, hall]
    exact hfits

/-- What a list draws of items of finite lengths that are not negative: the longest start of them
that fits into what is visible, give or take the slack, or with `scrollToEnd` the longest end, one
after another. If there is room for all of them, both modes draw the same. A list that is scrolled
to the end shows as many of its last items as one of the reversed lengths shows of its first. -/
theorem draw_shows (look : ListLook Exact ε) {items : List (Draw Exact ε (Size Exact))}
    (bound : look.items = some items) (c : Canvas Exact ε)
    (room : 0 ≤ look.axis.main c.constraints.max)
    (finite : ∀ length ∈ look.lengths (look.recorded items c),
      0 ≤ length ∧ Number.isFinite length = true) :
    let recordings := look.recorded items c
    let shown := look.shown c.constraints recordings
    List.Forall₂ (Canvas.Drawn c.metrics (look.itemLimits c.constraints)) items recordings ∧
    look.draw c =
      (c.constraints.constrain (look.axis.along (look.visible c.constraints recordings)
        (look.width c.constraints recordings)),
        { c with
          requests := look.requested items c
          ops := c.ops ++ shownOps c.origin shown }) ∧
    look.Shows c.constraints recordings shown ∧
    (look.length recordings ≤ look.axis.main c.constraints.max →
      shown.map (·.1) = recordings ∧
      ∀ scrollToEnd, (look.inMode scrollToEnd).draw c = look.draw c) ∧
    ∀ others, look.lengths (look.recorded others c) = (look.lengths recordings).reverse →
      ∃ count,
        ((look.inMode true).shown c.constraints recordings).map (·.1) =
          recordings.rtake count ∧
        ((look.inMode false).shown c.constraints (look.recorded others c)).map (·.1) =
          (look.recorded others c).take count := by
  intro recordings shown
  have hlengthy : look.Lengthy recordings := lengthy_iff.mpr finite
  have hdraw := look.draw_shown bound c
  refine ⟨(look.measure_recorded items c).2, hdraw, hlengthy.shows room, ?_, ?_⟩
  · intro hfits
    have hall := hlengthy.shown_all room hfits
    refine ⟨(congrArg (List.map (·.1)) hall).trans (look.line_fst _ _ _), fun scrollToEnd => ?_⟩
    have hmode : (look.inMode scrollToEnd).Lengthy recordings := hlengthy
    have hshown : (look.inMode scrollToEnd).shown c.constraints recordings = shown :=
      (hmode.shown_all room hfits).trans ((line_inMode ..).trans hall.symm)
    have hdraw' := (look.inMode scrollToEnd).draw_shown bound c
    simp only [recorded, requested, measure_inMode] at hdraw'
    rw [← recorded, hshown] at hdraw'
    exact hdraw'.trans hdraw.symm
  · intro others hreverse
    have hothers : look.Lengthy (look.recorded others c) := by
      refine lengthy_iff.mpr fun length hlength => finite length ?_
      rwa [hreverse, List.mem_reverse] at hlength
    have hend : (look.inMode true).Lengthy recordings := hlengthy
    have hstart : (look.inMode false).Lengthy (look.recorded others c) := hothers
    exact (hend.shows room).reverse (hstart.shows room) hreverse

/-- A column of height 25 that is scrolled to the end of items of heights 10, 0, 10, 0 and 10: the
first one is cut off. -/
theorem draw_shows_cut :
    let item (height : Exact) : Draw Exact Empty (Size Exact) := Flex.block "row" ⟨50, height⟩
    let items := [item 10, item 0, item 10, item 0, item 10]
    let look : ListLook Exact Empty := ⟨.vertical, .start, true, some items⟩
    let c : Canvas Exact Empty := ⟨.loose ⟨100, 25⟩, .standard, Vec.zero, [], []⟩
    let shown := look.shown c.constraints (look.recorded items c)
    look.lengths (look.recorded items c) = [10, 0, 10, 0, 10] ∧
      look.Shows c.constraints (look.recorded items c) shown ∧
      shown.map (·.2.origin.y) = [5, 5, 15, 15] ∧
      ∃ count,
        ((look.inMode true).shown c.constraints (look.recorded items c)).map (·.1) =
          (look.recorded items c).rtake count ∧
        ((look.inMode false).shown c.constraints (look.recorded items.reverse c)).map (·.1) =
          (look.recorded items.reverse c).take count := by
  intro item items look c shown
  have hlengths : look.lengths (look.recorded items c) = [10, 0, 10, 0, 10] := by decide +kernel
  have hroom : 0 ≤ look.axis.main c.constraints.max := by decide +kernel
  have hfinite : ∀ length ∈ look.lengths (look.recorded items c),
      0 ≤ length ∧ Number.isFinite length = true := by
    rw [hlengths]
    decide +kernel
  have hreverse : look.lengths (look.recorded items.reverse c) =
      (look.lengths (look.recorded items c)).reverse := by decide +kernel
  obtain ⟨-, -, hshows, -, hothers⟩ := draw_shows look rfl c hroom hfinite
  exact ⟨hlengths, hshows, by decide +kernel, hothers items.reverse hreverse⟩

end ListLook

end Trellis
