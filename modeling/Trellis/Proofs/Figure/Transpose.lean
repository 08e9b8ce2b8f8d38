import Trellis.Proofs.Canvas.Related
import Trellis.Proofs.Figure.Tree

/-!
# Layouts treat across and down alike

The mirror image of a figure has rows for columns and widths for heights. Drawing it under mirrored
limits gives the mirror image of the drawing, to the last bit of every number: no law of arithmetic
is used, so this holds of `Float` as it does of exact numbers.

* `Figure.transpose` — the mirror image of a figure.
* `Figure.draw_transpose` — its drawing, as an equation of drawings.
* `Figure.transpose_drawn` — the same for a given context, and for leaves that fill their space.
-/

namespace Trellis

variable {α ε : Type}

/-- The context with across and down exchanged. -/
def Canvas.transpose (c : Canvas α ε) : Canvas α ε :=
  { c with
    constraints := c.constraints.transpose
    origin := c.origin.transpose
    ops := c.ops.map DrawOp.transpose }

/-- The drawing seen with across and down exchanged. -/
def Draw.transpose (drawing : Draw α ε (Size α)) : Draw α ε (Size α) := fun c =>
  ((drawing c.transpose).1.transpose, (drawing c.transpose).2.transpose)

/-- The edges with top and left, and bottom and right, exchanged. -/
def Edges.transpose (edges : Edges α) : Edges α where
  top := edges.left
  bottom := edges.right
  left := edges.top
  right := edges.bottom

/-- Takes up a size within the limits and fills it. -/
def Canvas.fillUp [Number α] (element : String) (size : Size α) (ink : Ink α) :
    Draw α ε (Size α) := do
  let size := (← Canvas.limits).constrain size
  Canvas.paint element size ink
  pure size

variable [Number α]

/-- The leaf with across and down exchanged. A widget that is no mere space has no mirror image among
the widgets, so it becomes a drawing. -/
def Look.transpose : Look α ε → Look α ε
  | .spacer size => .spacer size.transpose
  | .block id size => .block id size.transpose
  | look => .graphic look.draw.transpose

mutual

/-- The figure with across and down exchanged. -/
def Figure.transpose : Figure α ε → Figure α ε
  | .flex settings children =>
    .flex { settings with axis := settings.axis.flip } (transposeWeighted children)
  | .inset edges child => .inset edges.transpose (transposeChild child)
  | .minSize minimum child => .minSize minimum.transpose (transposeChild child)
  | .stack children => .stack (transposeEach children)
  | .leaf look => .leaf look.transpose

/-- Weighted children with across and down exchanged. -/
def Figure.transposeWeighted : List (Option α × Figure α ε) → List (Option α × Figure α ε)
  | [] => []
  | (weight, figure) :: rest => (weight, figure.transpose) :: transposeWeighted rest

/-- A child that may be missing, with across and down exchanged. -/
def Figure.transposeChild : Option (Figure α ε) → Option (Figure α ε)
  | none => none
  | some figure => some figure.transpose

/-- Several children with across and down exchanged. -/
def Figure.transposeEach : List (Figure α ε) → List (Figure α ε)
  | [] => []
  | figure :: rest => figure.transpose :: transposeEach rest

end

namespace Canvas

omit [Number α] in
@[simp] theorem transpose_transpose (c : Canvas α ε) : c.transpose.transpose = c := by
  have hops : (c.ops.map DrawOp.transpose).map DrawOp.transpose = c.ops := by
    rw [List.map_map]
    exact List.map_id c.ops
  exact congrArg (fun ops => ({ c with ops := ops } : Canvas α ε)) hops

end Canvas

/-! ## Corresponding drawings -/

namespace Draw

/-- The second drawing is the mirror image of the first one. -/
abbrev Mirrors (d d' : Draw α ε (Size α)) : Prop :=
  Related (fun c c' => c' = c.transpose) (fun s s' => s' = s.transpose) d d'

omit [Number α] in
theorem mirrors_transpose (d : Draw α ε (Size α)) : Mirrors d d.transpose := by
  rintro c _ rfl
  rw [transpose, Canvas.transpose_transpose]
  exact ⟨rfl, rfl⟩

omit [Number α] in
theorem Mirrors.eq_transpose {d d' : Draw α ε (Size α)} (h : Mirrors d d') : d' = d.transpose := by
  funext c
  have hc := h (c := c.transpose) rfl
  rw [Canvas.transpose_transpose] at hc
  exact Prod.ext hc.1 hc.2

theorem Mirrors.records {d d' : Draw α ε (Size α)} (h : Mirrors d d') :
    Aspect.transposed.Records (fun c c' => c' = c.transpose) d d' := by
  rintro limits c _ rfl
  obtain ⟨hsize, hafter⟩ :=
    h (c := { c with constraints := limits, origin := Vec.zero, ops := [] }) rfl
  -- both scratch contexts start empty at the origin, which is its own mirror image
  refine ⟨?_, ?_⟩
  · show (⟨_, _⟩ : Recording α) = Recording.transpose ⟨_, _⟩
    rw [Recording.transpose]
    exact congrArg₂ Recording.mk hsize (congrArg Canvas.ops hafter)
  · exact congrArg (fun after : Canvas α ε => { c.transpose with requests := after.requests }) hafter

theorem Mirrors.withOffset {d d' : Draw α ε (Size α)} (h : Mirrors d d') (offset : Vec α) :
    Mirrors (Canvas.withOffset offset d) (Canvas.withOffset offset.transpose d') := by
  rintro c _ rfl
  obtain ⟨hsize, hafter⟩ := h (c := { c with origin := c.origin + offset }) rfl
  refine ⟨hsize, ?_⟩
  exact congrArg (fun after : Canvas α ε => { after with origin := c.origin.transpose }) hafter

omit [Number α] in
theorem Mirrors.withConstraints {d d' : Draw α ε (Size α)} (h : Mirrors d d')
    (limits : Constraints α) :
    Mirrors (Canvas.withConstraints limits d) (Canvas.withConstraints limits.transpose d') := by
  rintro c _ rfl
  obtain ⟨hsize, hafter⟩ := h (c := { c with constraints := limits }) rfl
  refine ⟨hsize, ?_⟩
  exact congrArg (fun after : Canvas α ε => { after with constraints := c.constraints.transpose })
    hafter

omit [Number α] in
theorem limits_mirrors :
    Related (fun c c' => c' = c.transpose) (fun l l' => l' = l.transpose)
      (Canvas.limits : Draw α ε (Constraints α)) Canvas.limits := by
  rintro c _ rfl
  exact ⟨rfl, rfl⟩

/-- Replaying commutes with exchanging across and down. -/
theorem keeps_transposed :
    Aspect.transposed.Keeps (fun c c' : Canvas α ε => c' = c.transpose) where
  limits := limits_mirrors
  replay recording offset := by
    rintro c _ rfl
    refine ⟨rfl, ?_⟩
    have hops : c.transpose.ops ++ recording.transpose.ops.map
        (·.translate (c.transpose.origin + offset.transpose)) =
          (c.ops ++ recording.ops.map (·.translate (c.origin + offset))).map DrawOp.transpose := by
      show c.ops.map _ ++ (recording.ops.map _).map _ = _
      rw [List.map_append, List.map_map, List.map_map]
      rfl
    exact congrArg (fun ops => ({ c.transpose with ops := ops } : Canvas α ε)) hops

theorem fillUp_mirrors (id : String) (size : Size α) (ink : Ink α) :
    Mirrors (Canvas.fillUp id size ink : Draw α ε (Size α))
      (Canvas.fillUp id size.transpose ink) := by
  rintro c _ rfl
  refine ⟨rfl, ?_⟩
  let op : DrawOp α := ⟨id, ⟨c.origin, c.constraints.constrain size⟩, ink⟩
  have hops : c.transpose.ops ++ [op.transpose] = (c.ops ++ [op]).map DrawOp.transpose := by
    rw [List.map_append]
    rfl
  exact congrArg (fun ops => ({ c.transpose with ops := ops } : Canvas α ε)) hops

end Draw

/-! ## Corresponding layouts -/

open Draw

theorem Look.mirrors_transpose (look : Look α ε) : Mirrors look.draw look.transpose.draw := by
  cases look with
  | spacer size =>
      refine limits_mirrors.bind fun l l' hl => ?_
      subst hl
      exact .pure rfl
  | block id size => exact fillUp_mirrors id size (.fill .clear)
  | _ => exact Draw.mirrors_transpose _

theorem drawOptional_mirrors {child child' : Option (Draw α ε (Size α))}
    (h : Option.Rel Mirrors child child') : Mirrors (drawOptional child) (drawOptional child') := by
  cases h with
  | none => exact .pure rfl
  | some hd => exact hd

theorem Edges.draw_mirrors (edges : Edges α) {child child' : Option (Draw α ε (Size α))}
    (h : Option.Rel Mirrors child child') : Mirrors (edges.draw child) (edges.transpose.draw child') := by
  refine limits_mirrors.bind fun l l' hl => ?_
  subst hl
  have hchild := ((drawOptional_mirrors h).withConstraints (l.shrink edges.total)).withOffset
    ⟨edges.left, edges.top⟩
  refine hchild.bind fun s s' hs => ?_
  subst hs
  exact .pure rfl

theorem drawAtLeast_mirrors (minimum : Size α) {child child' : Option (Draw α ε (Size α))}
    (h : Option.Rel Mirrors child child') :
    Mirrors (drawAtLeast minimum child) (drawAtLeast minimum.transpose child') := by
  refine limits_mirrors.bind fun l l' hl => ?_
  subst hl
  exact (drawOptional_mirrors h).withConstraints (l.raise minimum)

omit [Number α] in
theorem drawStack_mirrors {children children' : List (Draw α ε (Size α))}
    (h : List.Forall₂ Mirrors children children') :
    Mirrors (drawStack children) (drawStack children') := by
  induction h with
  | nil =>
      refine limits_mirrors.bind fun l l' hl => ?_
      subst hl
      exact .pure rfl
  | cons hd _ ih => exact hd.bind fun _ _ _ => ih

namespace Figure

theorem transposeWeighted_eq (children : List (Option α × Figure α ε)) :
    transposeWeighted children = children.map fun child => (child.1, child.2.transpose) := by
  induction children with
  | nil => simp [transposeWeighted]
  | cons child rest ih =>
      obtain ⟨weight, figure⟩ := child
      rw [transposeWeighted, ih, List.map_cons]

theorem transposeChild_eq (child : Option (Figure α ε)) :
    transposeChild child = child.map transpose := by
  cases child <;> simp [transposeChild]

theorem transposeEach_eq (children : List (Figure α ε)) :
    transposeEach children = children.map transpose := by
  induction children with
  | nil => simp [transposeEach]
  | cons figure rest ih => rw [transposeEach, ih, List.map_cons]

theorem drawChild_mirrors {child : Option (Figure α ε)}
    (ih : ∀ figure ∈ child, Mirrors figure.draw figure.transpose.draw) :
    Option.Rel Mirrors (drawChild child) (drawChild (transposeChild child)) := by
  rw [drawChild_eq, drawChild_eq, transposeChild_eq]
  cases child with
  | none => exact .none
  | some figure => exact .some (ih figure rfl)

/-- The mirror image of a figure is drawn as the mirror image of its drawing. The induction is on
the tree. -/
theorem mirrors_transpose (figure : Figure α ε) : Mirrors figure.draw figure.transpose.draw := by
  induction figure using Figure.induction with
  | flex settings children ih =>
      rw [transpose, Figure.draw, Figure.draw, drawWeighted_eq, drawWeighted_eq,
        transposeWeighted_eq, List.map_map]
      refine Flex.draw_related keeps_transposed settings ?_
      rw [List.forall₂_map_left_iff, List.forall₂_map_right_iff]
      exact List.forall₂_same.mpr fun child hchild => ⟨rfl, (ih child hchild).records⟩
  | inset edges child ih =>
      rw [transpose, Figure.draw, Figure.draw]
      exact edges.draw_mirrors (drawChild_mirrors ih)
  | minSize minimum child ih =>
      rw [transpose, Figure.draw, Figure.draw]
      exact drawAtLeast_mirrors minimum (drawChild_mirrors ih)
  | stack children ih =>
      rw [transpose, Figure.draw, Figure.draw, drawEach_eq, drawEach_eq, transposeEach_eq,
        List.map_map]
      refine drawStack_mirrors ?_
      rw [List.forall₂_map_left_iff, List.forall₂_map_right_iff]
      exact List.forall₂_same.mpr ih
  | leaf look =>
      rw [transpose, Figure.draw, Figure.draw]
      exact look.mirrors_transpose

theorem draw_transpose (figure : Figure α ε) : figure.transpose.draw = figure.draw.transpose :=
  figure.mirrors_transpose.eq_transpose

/-- To draw the mirror image of a figure in the mirror image of a context gives the mirror image of
the size and of every op, in the same order. Of a leaf that fills up the size it is given, the mirror
image fills up the mirrored size. -/
theorem transpose_drawn (figure : Figure α ε) :
    (∀ c, figure.transpose.draw c.transpose =
      ((figure.draw c).1.transpose, (figure.draw c).2.transpose)) ∧
    ∀ id size ink, Figure.transpose (.leaf (.graphic (Canvas.fillUp id size ink))) =
      (.leaf (.graphic (Canvas.fillUp id size.transpose ink)) : Figure α ε) := by
  refine ⟨fun c => ?_, fun id size ink => ?_⟩
  · rw [draw_transpose, Draw.transpose, Canvas.transpose_transpose]
  · rw [(fillUp_mirrors id size ink).eq_transpose]
    rfl

end Figure

end Trellis
