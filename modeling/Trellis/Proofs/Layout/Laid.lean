import Trellis.Layout.Flex

/-!
# What a row or column does

Measuring records every child under constraints of its own, and placing gives every recording a box.
Here both are told in the order of the children, though the rigid ones are measured first.

* `Flex.offer` — the constraints that a child is drawn under.
* `Flex.Laid` — the recordings of children that were drawn under their offers; `Flex.Heeds` — none
  of them is of a size that its offer does not allow.
* `Flex.boxes` — where the recordings are placed.
* `Flex.draw_laid` — drawing is laying out and placing.
-/

namespace Trellis

variable {α ε : Type} [Number α]

/-- Size within the limits. -/
structure Constraints.Allows (limits : Constraints α) (size : Size α) : Prop where
  min_x : limits.min.x ≤ size.x
  min_y : limits.min.y ≤ size.y
  max_x : size.x ≤ limits.max.x
  max_y : size.y ≤ limits.max.y

instance (limits : Constraints α) (size : Size α) : Decidable (limits.Allows size) :=
  decidable_of_iff (limits.min.x ≤ size.x ∧ limits.min.y ≤ size.y ∧
      size.x ≤ limits.max.x ∧ size.y ≤ limits.max.y)
    ⟨fun ⟨hx, hy, hx', hy'⟩ => ⟨hx, hy, hx', hy'⟩, fun ⟨hx, hy, hx', hy'⟩ => ⟨hx, hy, hx', hy'⟩⟩

/-- The recording is what a drawing makes under the constraints. -/
def Canvas.Drawn (metrics : TextMetrics α) (limits : Constraints α) (drawing : Draw α ε (Size α))
    (recording : Recording α) : Prop :=
  ∃ requests after, drawing ⟨limits, metrics, Vec.zero, [], requests⟩ = (recording.size, after) ∧
    after.ops = recording.ops

/-- Recording only takes over the requests. -/
theorem Canvas.record_drawn (limits : Constraints α) (drawing : Draw α ε (Size α))
    (c : Canvas α ε) : ∃ recording requests,
      Canvas.record limits drawing c = (recording, { c with requests := requests }) ∧
        Canvas.Drawn c.metrics limits drawing recording := by
  let run := drawing ⟨limits, c.metrics, Vec.zero, [], c.requests⟩
  exact ⟨⟨run.1, run.2.ops⟩, run.2.requests, rfl, c.requests, run.2, rfl, rfl⟩

omit [Number α] in
theorem Draw.bind_run {β γ : Type} {part : Draw α ε β} {next : β → Draw α ε γ}
    {c c' : Canvas α ε} {b : β} (first : part c = (b, c')) : (part >>= next) c = next b c' := by
  show next (part c).1 (part c).2 = next b c'
  rw [first]

namespace Flex

variable (flex : Flex)

/-! ## Measuring -/

/-- The length that rigid children take up, one child later. -/
def addRigid (used : α) (child : Child α (Recording α)) : α :=
  match child.1 with
  | none => used + flex.axis.main child.2.size
  | some _ => used

/-- The length that weighted children take up, too, one child later. -/
def addWeighted (used : α) (child : Child α (Recording α)) : α :=
  match child.1 with
  | none => used
  | some _ => used + flex.axis.main child.2.size

/-- The length that the rigid children take up. -/
def rigidLength (laid : List (Child α (Recording α))) : α := laid.foldl flex.addRigid 0

/-- The length that all children take up. -/
def length (laid : List (Child α (Recording α))) : α :=
  laid.foldl flex.addWeighted (flex.rigidLength laid)

/-- The space that the weighted children share. -/
def space (limits : Constraints α) (laid : List (Child α (Recording α))) : α :=
  if Number.isFinite (flex.axis.main limits.max) then
    Number.max (flex.axis.main limits.max - flex.rigidLength laid) 0
  else 0

/-- The constraints that a child is drawn under. A rigid child gets what the rigid ones before it,
which take up `used`, have left; a weighted one has to fill its share of `space`. -/
def offer (limits : Constraints α) (space total used : α) : Option α → Constraints α
  | none =>
    ⟨flex.axis.along 0 (flex.axis.cross limits.min),
      flex.axis.along (Number.max (flex.axis.main limits.max - used) 0)
        (flex.axis.cross limits.max)⟩
  | some weight =>
    let share := space * weight / total
    ⟨flex.axis.along share (flex.axis.cross limits.min),
      flex.axis.along share (flex.axis.cross limits.max)⟩

/-- Every child is drawn under its offer, the rigid ones taking up `used` so far. -/
inductive LaidFrom (metrics : TextMetrics α) (limits : Constraints α) (space total : α) :
    α → List (Child α (Draw α ε (Size α))) → List (Child α (Recording α)) → Prop
  | nil (used : α) : LaidFrom metrics limits space total used [] []
  | cons {used : α} {weight : Option α} {child : Draw α ε (Size α)} {recording : Recording α}
      {children : List (Child α (Draw α ε (Size α)))} {laid : List (Child α (Recording α))}
      (drawn : Canvas.Drawn metrics (flex.offer limits space total used weight) child recording)
      (rest : LaidFrom metrics limits space total (flex.addRigid used (weight, recording))
        children laid) :
      LaidFrom metrics limits space total used ((weight, child) :: children)
        ((weight, recording) :: laid)

/-- These are the recordings of the children, with their weights. -/
def Laid (metrics : TextMetrics α) (limits : Constraints α)
    (children : List (Child α (Draw α ε (Size α)))) (laid : List (Child α (Recording α))) : Prop :=
  flex.LaidFrom metrics limits (flex.space limits laid) (totalWeight laid) 0 children laid

/-- Every child takes a size that its offer allows, the rigid ones taking up `used` so far. -/
def HeedsFrom (limits : Constraints α) (space total : α) : α → List (Child α (Recording α)) → Prop
  | _, [] => True
  | used, child :: laid =>
    (flex.offer limits space total used child.1).Allows child.2.size ∧
      HeedsFrom limits space total (flex.addRigid used child) laid

instance decidableHeedsFrom (limits : Constraints α) (space total : α) :
    (used : α) → (laid : List (Child α (Recording α))) →
      Decidable (flex.HeedsFrom limits space total used laid)
  | _, [] => inferInstanceAs (Decidable True)
  | used, child :: laid =>
    have := decidableHeedsFrom limits space total (flex.addRigid used child) laid
    inferInstanceAs (Decidable (_ ∧ _))

/-- Every child takes a size within the constraints that it is drawn under. -/
def Heeds (limits : Constraints α) (laid : List (Child α (Recording α))) : Prop :=
  flex.HeedsFrom limits (flex.space limits laid) (totalWeight laid) 0 laid

instance (limits : Constraints α) (laid : List (Child α (Recording α))) :
    Decidable (flex.Heeds limits laid) :=
  decidableHeedsFrom flex _ _ _ _ _

variable {flex} {metrics : TextMetrics α} {limits : Constraints α} {space total used : α}
  {children : List (Child α (Draw α ε (Size α)))} {laid : List (Child α (Recording α))}

theorem LaidFrom.weights (h : flex.LaidFrom metrics limits space total used children laid) :
    laid.map (·.1) = children.map (·.1) := by
  induction h with
  | nil => rfl
  | cons _ _ ih => rw [List.map_cons, List.map_cons, ih]

/-- The total depends on the weights only. -/
theorem totalWeight_congr {τ υ : Type} {children : List (Child α τ)} {others : List (Child α υ)}
    (weights : children.map (·.1) = others.map (·.1)) :
    totalWeight children = totalWeight others := by
  have hweights {τ : Type} (children : List (Child α τ)) :
      totalWeight children = ((children.map (·.1)).filterMap id).foldl Number.addSingle 0 := by
    rw [List.filterMap_map]
    rfl
  rw [hweights, hweights, weights]

/-- Both passes over the children. The induction is on the children. -/
theorem measure_laidFrom (flex : Flex) (limits : Constraints α)
    (children : List (Child α (Draw α ε (Size α)))) (used : α) (c : Canvas α ε) :
    ∃ used' measured requests,
      measureRigid flex limits used children c =
        ((used', measured), { c with requests := requests }) ∧
      measured.map (·.1) = children.map (·.1) ∧
      ∀ (space total taken : α) (c' : Canvas α ε), c'.metrics = c.metrics → ∃ laid requests,
        measureWeighted flex limits space total taken measured c' =
          ((laid.foldl flex.addWeighted taken, laid.map (·.2)), { c' with requests := requests }) ∧
        flex.LaidFrom c.metrics limits space total used children laid ∧
        used' = laid.foldl flex.addRigid used := by
  induction children generalizing used c with
  | nil =>
      exact ⟨used, [], c.requests, rfl, rfl, fun _ _ _ c' _ => ⟨[], c'.requests, rfl, .nil _, rfl⟩⟩
  | cons head children ih =>
      obtain ⟨weight, child⟩ := head
      cases weight with
      | none =>
          -- A rigid child is drawn now, and the second pass finds its recording.
          obtain ⟨recording, requests, hrecord, hdrawn⟩ :=
            Canvas.record_drawn (flex.offer limits used used used none) child c
          obtain ⟨used', measured, requests', hrigid, hweights, hlater⟩ :=
            ih (used + flex.axis.main recording.size) { c with requests := requests }
          refine ⟨used', (none, .inr recording) :: measured, requests',
            (Draw.bind_run hrecord).trans (Draw.bind_run hrigid), ?_, ?_⟩
          · rw [List.map_cons, List.map_cons, hweights]
          · intro space total taken c' hmetrics
            obtain ⟨laid, last, hrun, hlaid, hused⟩ := hlater space total taken c' hmetrics
            exact ⟨(none, recording) :: laid, last, Draw.bind_run hrun, .cons hdrawn hlaid, hused⟩
      | some weight =>
          -- A weighted one is left to the second pass.
          obtain ⟨used', measured, requests, hrigid, hweights, hlater⟩ := ih used c
          refine ⟨used', (some weight, .inl child) :: measured, requests, Draw.bind_run hrigid,
            ?_, ?_⟩
          · rw [List.map_cons, List.map_cons, hweights]
          · intro space total taken c' hmetrics
            obtain ⟨recording, requests', hrecord, hdrawn⟩ :=
              Canvas.record_drawn (flex.offer limits space total used (some weight)) child c'
            obtain ⟨laid, last, hrun, hlaid, hused⟩ :=
              hlater space total (taken + flex.axis.main recording.size)
                { c' with requests := requests' } hmetrics
            rw [hmetrics] at hdrawn
            exact ⟨(some weight, recording) :: laid, last,
              (Draw.bind_run hrecord).trans (Draw.bind_run hrun), .cons hdrawn hlaid, hused⟩

/-- Measuring lays out the children. -/
theorem measure_laid (flex : Flex) (limits : Constraints α)
    (children : List (Child α (Draw α ε (Size α)))) (c : Canvas α ε) : ∃ laid requests,
      measure flex limits children c =
        ((flex.length laid, laid.map (·.2)), { c with requests := requests }) ∧
      flex.Laid c.metrics limits children laid := by
  obtain ⟨used, measured, requests, hrigid, hweights, hlater⟩ :=
    measure_laidFrom flex limits children 0 c
  let space := if Number.isFinite (flex.axis.main limits.max) then
    Number.max (flex.axis.main limits.max - used) 0 else 0
  obtain ⟨laid, last, hrun, hlaid, rfl⟩ :=
    hlater space (totalWeight measured) used { c with requests := requests } rfl
  refine ⟨laid, last, (Draw.bind_run hrigid).trans hrun, ?_⟩
  rw [totalWeight_congr (hweights.trans hlaid.weights.symm)] at hlaid
  exact hlaid

/-! ## Placing -/

/-- The boxes of recordings that are placed one after another, the first at `main`. -/
def boxes (flex : Flex) (cross gap : α) (main : α) : List (Recording α) → List (Rect α)
  | [] => []
  | recording :: rest =>
    ⟨flex.axis.along main (flex.alignment.shift (cross - flex.axis.cross recording.size)),
      recording.size⟩ ::
    boxes flex cross gap (main + flex.axis.main recording.size + gap) rest

/-- The ops of recordings that are placed in boxes, as seen from the origin. -/
def placedOps (origin : Point α) (recordings : List (Recording α)) (boxes : List (Rect α)) :
    List (DrawOp α) :=
  (recordings.zip boxes).flatMap fun (recording, box) =>
    recording.ops.map (·.translate (origin + box.origin))

/-- Placing only adds the ops. The induction is on the recordings. -/
theorem place_run (flex : Flex) (cross gap main : α) (recordings : List (Recording α))
    (c : Canvas α ε) :
    place flex cross gap main recordings c = ((), { c with
      ops := c.ops ++ placedOps c.origin recordings (flex.boxes cross gap main recordings) }) := by
  induction recordings generalizing main c with
  | nil => exact Prod.ext rfl (congrArg ({ c with ops := · }) (List.append_nil c.ops).symm)
  | cons recording rest ih =>
      let next := main + flex.axis.main recording.size
      let offset := flex.axis.along main
        (flex.alignment.shift (cross - flex.axis.cross recording.size))
      let c' : Canvas α ε :=
        { c with ops := c.ops ++ recording.ops.map (·.translate (c.origin + offset)) }
      have hreplay : Canvas.replay recording offset c = ((), c') := rfl
      have hrest : flex.boxes cross gap (if rest.isEmpty then next else next + gap) rest =
          flex.boxes cross gap (next + gap) rest := by
        cases rest <;> rfl
      refine (Draw.bind_run hreplay).trans ((ih _ c').trans ?_)
      rw [hrest, List.append_assoc]
      rfl

/-! ## Drawing -/

/-- The width of the widest recording across the axis, but at least the minimum. -/
def crossLength (flex : Flex) (limits : Constraints α) (recordings : List (Recording α)) : α :=
  (recordings.map fun r => flex.axis.cross r.size).foldl Number.max (flex.axis.cross limits.min)

/-- The boxes of recordings that take up `used` together. -/
def placed (flex : Flex) (limits : Constraints α) (used : α) (recordings : List (Recording α)) :
    List (Rect α) :=
  let (lead, gap) := distribute flex.spacing recordings.length
    (Number.max (flex.axis.main limits.min - used) 0)
  flex.boxes (flex.crossLength limits recordings) gap lead recordings

/-- The recordings that measuring makes, with the weights of the children. -/
def recorded (flex : Flex) (children : List (Child α (Draw α ε (Size α)))) (c : Canvas α ε) :
    List (Child α (Recording α)) :=
  (children.map (·.1)).zip (flex.measure c.constraints children c).1.2

/-- Drawing lays out the children and places their recordings. -/
theorem draw_laid (flex : Flex) (children : List (Child α (Draw α ε (Size α)))) (c : Canvas α ε) :
    let laid := flex.recorded children c
    let recordings := laid.map (·.2)
    let used := flex.length laid
    flex.Laid c.metrics c.constraints children laid ∧ ∃ requests,
      flex.draw children c =
        (c.constraints.constrain (flex.axis.along
          (Number.max used (flex.axis.main c.constraints.min))
          (flex.crossLength c.constraints recordings)),
        { c with
          requests := requests
          ops := c.ops ++
            placedOps c.origin recordings (flex.placed c.constraints used recordings) }) := by
  obtain ⟨laid, requests, hmeasure, hlaid⟩ := measure_laid flex c.constraints children c
  have hrecorded : flex.recorded children c = laid := by
    rw [recorded, hmeasure, ← hlaid.weights]
    exact List.zip_map'.trans (List.map_id laid)
  simp only [hrecorded]
  have hcount : (laid.map (·.2)).length = children.length := by
    simpa using congrArg List.length hlaid.weights
  refine ⟨hlaid, requests, ?_⟩
  have hlimits : (Canvas.limits : Draw α ε (Constraints α)) c = (c.constraints, c) := rfl
  refine (Draw.bind_run hlimits).trans ((Draw.bind_run hmeasure).trans ?_)
  rw [placed, hcount]
  exact Draw.bind_run (place_run flex _ _ _ _ _)

end Flex

end Trellis
