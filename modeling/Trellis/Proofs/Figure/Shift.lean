import Trellis.Proofs.Canvas.Moved
import Trellis.Proofs.Figure.Tree

/-!
# Trees are drawn the same everywhere

Layouts place children in two ways: a child is drawn under a moved origin, or it is recorded at the
origin and replayed at an offset. With exact arithmetic both put every op where it belongs, however
they are nested.

* `Look.draw_follows` — the widgets, but for drawings of the application, keep their distance.
* `Figure.Part` — the trees below a figure.
* `Figure.draw_shifts` — a tree draws wherever it starts what it would draw at the origin.
-/

namespace Trellis

variable {α ε : Type} [Number α] [ExactSum α] {limits : Constraints α} {home : Point α}
  {offset : Vec α} {before : List (DrawOp α)}

open Draw

/-! ## Text -/

/-- The lines of a text keep their distance to its corner. -/
theorem TextStyle.lineOps_translate (style : TextStyle α) (metrics : TextMetrics α) (id : String)
    (width : α) (lines : List (List Char)) :
    style.lineOps metrics id (home + offset) width lines =
      (style.lineOps metrics id home width lines).map (·.translate offset) := by
  rw [lineOps, lineOps]
  refine List.ext_getElem? fun i => ?_
  simp only [List.getElem?_map, List.getElem?_mapIdx, Option.map_map]
  refine congrArg (Option.map · lines[i]?) (funext fun line => ?_)
  exact congrArg (fun corner => DrawOp.mk id ⟨corner, _⟩ _) (Vec.add_right_comm home offset _)

theorem TextStyle.draw_follows (style : TextStyle α) (id text : String) :
    Follows limits home offset before Eq (style.draw id text : Draw α ε (Size α))
      (style.draw id text) := by
  refine .bind .textMetrics fun metrics => .limits_bind ?_
  refine Related.bind (Follows.rect _) fun r r' h => ?_
  obtain ⟨rfl, rfl⟩ := h
  rw [TextStyle.lineOps_translate]
  exact Follows.bind (.push _) fun _ => .pure _

/-! ## Widgets -/

theorem ButtonLook.draw_follows (look : ButtonLook α) :
    Follows limits home offset before Eq (look.draw : Draw α ε (Size α)) look.draw := by
  refine .limits_bind (.bind .textMetrics fun metrics => ?_)
  refine .bind (.paint _ _ _) fun _ => ?_
  exact .bind (.withOffset (.withConstraints (TextStyle.draw_follows _ _ _))) fun _ => .pure _

theorem IconButtonLook.draw_follows (look : IconButtonLook α) :
    Follows limits home offset before Eq (look.draw : Draw α ε (Size α)) look.draw := by
  refine .limits_bind (.bind (.paint _ _ _) fun _ => ?_)
  cases look.icon with
  | none => exact .bind (.pure _) fun _ => .pure _
  | some icon => exact .bind (.withOffset (.paint _ _ _)) fun _ => .pure _

theorem CheckboxLook.draw_follows (look : CheckboxLook α) :
    Follows limits home offset before Eq (look.draw : Draw α ε (Size α)) look.draw := by
  refine .limits_bind (.bind .textMetrics fun metrics => ?_)
  refine .bind (.withOffset ?_) fun _ =>
    .bind (.withOffset (TextStyle.draw_follows _ _ _)) fun _ => .pure _
  refine Related.bind (Follows.rect _) fun r r' h => ?_
  obtain ⟨rfl, rfl⟩ := h
  refine Follows.bind (.push [_]) fun _ => ?_
  split
  · refine Eq.mp (congrArg (Follows _ _ _ _ _ · _) ?_) (Follows.push [_])
    exact congrArg (fun mark => Canvas.push [DrawOp.mk look.id mark _])
      (Rect.inset_translate _ offset 4 4 4 4).symm
  · exact Follows.pure _

theorem InputLook.draw_follows (look : InputLook) :
    Follows limits home offset before Eq (look.draw : Draw α ε (Size α)) look.draw := by
  refine .limits_bind ?_
  refine .bind (.withOffset (.withConstraints (TextStyle.draw_follows _ _ _))) fun content => ?_
  exact .bind (.paint _ _ _) fun _ => .pure _

theorem ListLook.draw_follows (look : ListLook α ε) :
    Follows limits home offset before Eq look.draw look.draw := by
  have hmeasure (inner : Constraints α) (items : List (Draw α ε (Size α))) :
      Follows limits home offset before Eq (look.measure inner items) (look.measure inner items) := by
    induction items with
    | nil => exact .pure _
    | cons item rest ih => exact .bind (.record _ _) fun r => .bind ih fun rs => .pure _
  have hplace (visible cross main : α) (recordings : List (Recording α)) :
      Follows limits home offset before Eq
        (look.place visible cross main recordings : Draw α ε Unit)
        (look.place visible cross main recordings) := by
    induction recordings generalizing main with
    | nil => exact .pure _
    | cons r rest ih =>
        rw [ListLook.place]
        split
        · exact .bind (.replay _ _) fun _ => ih _
        · exact ih _
  refine .limits_bind ?_
  cases look.items with
  | none => exact .pure _
  | some items => exact .bind (hmeasure _ _) fun rs => .bind (hplace _ _ _ _) fun _ => .pure _

omit [ExactSum α] in
theorem LoaderLook.draw_follows (look : LoaderLook α ε) :
    Follows limits home offset before Eq look.draw look.draw := by
  refine .limits_bind (.bind (.paint _ _ _) fun _ => ?_)
  cases look.again with
  | none => exact .bind (.pure _) fun _ => .pure _
  | some r => exact .bind (.request r) fun _ => .pure _

omit [ExactSum α] in
theorem ProgressBarLook.draw_follows (look : ProgressBarLook α) :
    Follows limits home offset before Eq (look.draw : Draw α ε (Size α)) look.draw :=
  .limits_bind (.bind (.paint _ _ _) fun _ => .bind (.paint _ _ _) fun _ => .pure _)

theorem SliderLook.draw_follows (look : SliderLook α) :
    Follows limits home offset before Eq (look.draw : Draw α ε (Size α)) look.draw := by
  refine .limits_bind (.bind (.withOffset ?_) fun _ => ?_)
  · exact .bind (.paint _ _ _) fun _ => .paint _ _ _
  · exact .bind (.withOffset (.paint _ _ _)) fun _ => .pure _

/-- A widget keeps its distance, unless the application draws it. -/
theorem Look.draw_follows {look : Look α ε} (own : ∀ drawing, look ≠ .graphic drawing) :
    Follows limits home offset before Eq look.draw look.draw := by
  cases look with
  | button look => exact look.draw_follows
  | checkbox look => exact look.draw_follows
  | iconButton look => exact look.draw_follows
  | input look => exact look.draw_follows
  | label look => exact look.style.draw_follows _ _
  | list look => exact look.draw_follows
  | loader look => exact look.draw_follows
  | progressBar look => exact look.draw_follows
  | slider look => exact look.draw_follows
  | spacer size => exact .limits_bind (.pure _)
  | graphic drawing => exact absurd rfl (own drawing)
  | block id size => exact .limits_bind (.bind (.paint _ _ _) fun _ => .pure _)

/-! ## Trees -/

namespace Figure

/-- The first figure is the second one or a tree below it. -/
inductive Part : Figure α ε → Figure α ε → Prop
  | self (figure : Figure α ε) : Part figure figure
  | flex {part : Figure α ε} (settings : Flex) {children : List (Option α × Figure α ε)}
      {child : Option α × Figure α ε} (mem : child ∈ children) (h : Part part child.2) :
      Part part (.flex settings children)
  | inset {part child : Figure α ε} (edges : Edges α) (h : Part part child) :
      Part part (.inset edges (some child))
  | minSize {part child : Figure α ε} (minimum : Size α) (h : Part part child) :
      Part part (.minSize minimum (some child))
  | stack {part child : Figure α ε} {children : List (Figure α ε)} (mem : child ∈ children)
      (h : Part part child) : Part part (.stack children)

/-- The tree consists of the layouts and widgets of the library: no children share a spot. -/
def Standard (figure : Figure α ε) : Prop := ∀ children, ¬ Part (.stack children) figure

/-- Wherever they start, the drawings of the application in the tree do as at the origin. -/
def GraphicsShift (figure : Figure α ε) : Prop :=
  ∀ drawing, Part (.leaf (.graphic drawing)) figure → drawing.Shifts

/-- A child that may be missing takes no space if it is. -/
theorem drawOptional_shifts {child : Option (Figure α ε)}
    (h : ∀ figure ∈ child, figure.draw.Shifts) : (drawOptional (drawChild child)).Shifts := by
  rw [drawChild_eq]
  cases child with
  | none => exact .of_follows fun _ _ _ _ => .pure _
  | some figure => exact h figure rfl

/-- A tree of layouts and widgets draws wherever it starts what it would draw at the origin, moved to
where it starts, and takes up the same size. The induction is on the tree: under insets and minimum
sizes it goes down to the child, while rows, columns and lists draw all they show at the origin. -/
theorem draw_shifts (figure : Figure α ε) (standard : figure.Standard)
    (graphics : figure.GraphicsShift) : figure.draw.Shifts := by
  induction figure using Figure.induction with
  | flex settings children =>
      rw [Figure.draw]
      exact .of_follows fun _ _ _ _ => .flex _ _
  | inset edges child ih =>
      rw [Figure.draw]
      have hchild : (drawOptional (drawChild child)).Shifts := by
        refine drawOptional_shifts fun figure hfigure => ?_
        cases hfigure
        exact ih figure rfl (fun children part => standard children (.inset edges part))
          fun drawing part => graphics drawing (.inset edges part)
      exact .limits_bind fun limits => .map (.withOffset (.withConstraints hchild _) _) _
  | minSize minimum child ih =>
      rw [Figure.draw]
      have hchild : (drawOptional (drawChild child)).Shifts := by
        refine drawOptional_shifts fun figure hfigure => ?_
        cases hfigure
        exact ih figure rfl (fun children part => standard children (.minSize minimum part))
          fun drawing part => graphics drawing (.minSize minimum part)
      exact .limits_bind fun limits => .withConstraints hchild _
  | stack children => exact absurd (.self _) (standard children)
  | leaf look =>
      rw [Figure.draw]
      by_cases hown : ∃ drawing, look = .graphic drawing
      · obtain ⟨drawing, rfl⟩ := hown
        exact graphics drawing (.self _)
      · exact .of_follows fun _ _ _ _ => look.draw_follows fun drawing h => hown ⟨drawing, h⟩

/-- A painted square in a row with a margin. Started elsewhere, the square is recorded at the origin
and placed behind the margin. -/
theorem draw_shifts_framed :
    let painter : Draw Exact Unit (Size Exact) := do
      Canvas.paint "square" ⟨3, 3⟩ (.fill .clear)
      pure ⟨3, 3⟩
    let row : Figure Exact Unit :=
      .flex ⟨.horizontal, .spaceEvenly, .stop⟩ [(none, .leaf (.graphic painter))]
    let figure : Figure Exact Unit := .inset ⟨1, 1, 2, 2⟩ (some row)
    figure.Standard ∧ figure.GraphicsShift ∧ figure.draw.Shifts ∧
      (figure.draw { (Canvas.ofSize ⟨9, 7⟩ : Canvas Exact Unit) with origin := ⟨10, 20⟩ }).2.ops =
        [⟨"square", ⟨⟨13, 23⟩, ⟨3, 3⟩⟩, .fill .clear⟩] := by
  intro painter row figure
  have standard : figure.Standard := by
    intro children part
    dsimp only [figure, row] at part
    cases part with
    | inset edges part =>
        cases part with
        | flex settings mem part =>
            cases List.mem_singleton.mp mem
            cases part
  have graphics : figure.GraphicsShift := by
    intro drawing part
    dsimp only [figure, row] at part
    cases part with
    | inset edges part =>
        cases part with
        | flex settings mem part =>
            cases List.mem_singleton.mp mem
            cases part
            exact .of_follows fun _ _ _ _ => .bind (.paint _ _ _) fun _ => .pure _
  exact ⟨standard, graphics, draw_shifts figure standard graphics, by decide +kernel⟩

end Figure

end Trellis
