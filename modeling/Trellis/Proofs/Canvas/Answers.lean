import Trellis.Figure

/-!
# What a drawing answers

Whatever an element draws, it answers a size that it has moved between the limits it was given, and
leaves these limits to the next one.

* `Draw.Answers` — what is known of the answer of a drawing that starts under some limits and
  restores them, with one rule for each primitive.
* `Flex.draw_answers`, `Edges.draw_answers`, `Look.draw_answers` — layouts and widgets constrain
  their sizes.
-/

namespace Trellis

/-- Under these limits, the answer has the property, and the limits are still there afterwards. -/
def Draw.Answers {α ε β : Type} (limits : Constraints α) (P : β → Prop) (d : Draw α ε β) : Prop :=
  ∀ c, c.constraints = limits → P (d c).1 ∧ (d c).2.constraints = limits

namespace Draw.Answers

variable {α ε β γ : Type} {limits : Constraints α} {P : β → Prop} {Q : γ → Prop}

/-! ## The primitives -/

theorem pure {a : β} (h : P a) : Answers limits P (pure a : Draw α ε β) :=
  fun _ hc => ⟨h, hc⟩

theorem bind {d : Draw α ε β} {k : β → Draw α ε γ} (hd : Answers limits P d)
    (hk : ∀ a, P a → Answers limits Q (k a)) : Answers limits Q (d >>= k) := by
  intro c hc
  obtain ⟨hanswer, hafter⟩ := hd c hc
  exact hk _ hanswer _ hafter

theorem mono {R : β → Prop} {d : Draw α ε β} (hd : Answers limits P d) (h : ∀ a, P a → R a) :
    Answers limits R d :=
  fun c hc => ⟨h _ (hd c hc).1, (hd c hc).2⟩

/-- Nothing needs to be known of the answer of the first part. -/
theorem seq {d : Draw α ε β} {k : β → Draw α ε γ} (hd : Answers limits (fun _ => True) d)
    (hk : ∀ a, Answers limits Q (k a)) : Answers limits Q (d >>= k) :=
  hd.bind fun a _ => hk a

theorem limits_bind {k : Constraints α → Draw α ε γ} (hk : Answers limits Q (k limits)) :
    Answers limits Q (Canvas.limits >>= k) := by
  refine bind (P := (· = limits)) (fun c hc => ⟨hc, hc⟩) fun a ha => ?_
  rw [ha]
  exact hk

theorem textMetrics : Answers limits (fun _ => True) (Canvas.textMetrics : Draw α ε _) :=
  fun _ hc => ⟨trivial, hc⟩

theorem request (r : ε) : Answers limits (fun _ => True) (Canvas.request r : Draw α ε Unit) :=
  fun _ hc => ⟨trivial, hc⟩

/-- Limits that are changed for a part are restored, whatever it does. -/
theorem withConstraints {inner : Constraints α} {d : Draw α ε β}
    (h : ∀ c, c.constraints = inner → P (d c).1) :
    Answers limits P (Canvas.withConstraints inner d) :=
  fun _ hc => ⟨h _ rfl, hc⟩

theorem rect (size : Size α) : Answers limits (fun _ => True) (Canvas.rect size : Draw α ε _) :=
  fun _ hc => ⟨trivial, hc⟩

theorem push (ops : List (DrawOp α)) :
    Answers limits (fun _ => True) (Canvas.push ops : Draw α ε Unit) :=
  fun _ hc => ⟨trivial, hc⟩

theorem paint (id : String) (size : Size α) (ink : Ink α) :
    Answers limits (fun _ => True) (Canvas.paint id size ink : Draw α ε Unit) :=
  (rect size).seq fun _ => push _

variable [Number α]

theorem withOffset {offset : Vec α} {d : Draw α ε β} (h : Answers limits P d) :
    Answers limits P (Canvas.withOffset offset d) :=
  fun _ hc => h _ hc

/-- A recording leaves the limits, whatever is recorded. -/
theorem record (inner : Constraints α) (d : Draw α ε (Size α)) :
    Answers limits (fun _ => True) (Canvas.record inner d) :=
  fun _ hc => ⟨trivial, hc⟩

theorem replay (recording : Recording α) (offset : Vec α) :
    Answers limits (fun _ => True) (Canvas.replay recording offset : Draw α ε Unit) :=
  fun _ hc => ⟨trivial, hc⟩

end Draw.Answers

open Draw

variable {α ε : Type} [Number α] {limits : Constraints α}

/-- Some size, constrained. -/
def Constraints.Constrained (limits : Constraints α) (size : Size α) : Prop :=
  ∃ natural, size = limits.constrain natural

theorem Draw.Answers.constrained (natural : Size α) :
    Answers limits limits.Constrained (Pure.pure (limits.constrain natural) : Draw α ε (Size α)) :=
  .pure ⟨natural, rfl⟩

/-! ## Layouts -/

namespace Flex

variable {flex : Flex}

theorem measureRigid_answers (inner : Constraints α) (used : α)
    (children : List (Child α (Draw α ε (Size α)))) :
    Answers limits (fun _ => True) (flex.measureRigid inner used children) := by
  induction children generalizing used with
  | nil => exact .pure trivial
  | cons child rest ih =>
      obtain ⟨weight, d⟩ := child
      cases weight with
      | none => exact .seq (.record _ _) fun r => .seq (ih _) fun _ => .pure trivial
      | some weight => exact .seq (ih _) fun _ => .pure trivial

theorem measureWeighted_answers (inner : Constraints α) (space total used : α)
    (children : List (Child α (Draw α ε (Size α) ⊕ Recording α))) :
    Answers limits (fun _ => True) (flex.measureWeighted inner space total used children) := by
  induction children generalizing used with
  | nil => exact .pure trivial
  | cons child rest ih =>
      obtain ⟨weight, item⟩ := child
      cases item with
      | inl d => exact .seq (.record _ _) fun r => .seq (ih _) fun _ => .pure trivial
      | inr recording => exact .seq (ih _) fun _ => .pure trivial

theorem place_answers (cross gap main : α) (recordings : List (Recording α)) :
    Answers limits (fun _ => True) (flex.place cross gap main recordings : Draw α ε Unit) := by
  induction recordings generalizing main with
  | nil => exact .pure trivial
  | cons recording rest ih => exact .seq (.replay _ _) fun _ => ih _

/-- A row or column constrains its size, whatever its children answer. -/
theorem draw_answers (flex : Flex) (children : List (Child α (Draw α ε (Size α)))) :
    Answers limits limits.Constrained (flex.draw children) := by
  have hmeasure : Answers limits (fun _ => True) (flex.measure limits children) :=
    .seq (measureRigid_answers _ _ _) fun _ => measureWeighted_answers _ _ _ _ _
  refine .limits_bind (hmeasure.seq fun _ => ?_)
  exact .seq (place_answers _ _ _ _) fun _ => .constrained _

end Flex

/-- Edges around a child constrain the size of both, whatever the child answers. -/
theorem Edges.draw_answers (edges : Edges α) (child : Option (Draw α ε (Size α))) :
    Answers limits limits.Constrained (edges.draw child) := by
  refine .limits_bind (.seq (.withOffset (.withConstraints fun _ _ => trivial)) fun _ => ?_)
  exact .constrained _

/-! ## Widgets -/

theorem TextStyle.draw_answers (style : TextStyle α) (id text : String) :
    Answers limits limits.Constrained (style.draw id text : Draw α ε (Size α)) := by
  refine .seq .textMetrics fun _ => .limits_bind (.seq (.rect _) fun _ => ?_)
  exact .seq (.push _) fun _ => .constrained _

theorem ButtonLook.draw_answers (look : ButtonLook α) :
    Answers limits limits.Constrained (look.draw : Draw α ε (Size α)) := by
  refine .limits_bind (.seq .textMetrics fun _ => .seq (.paint _ _ _) fun _ => ?_)
  exact .seq (.withOffset (.withConstraints fun _ _ => trivial)) fun _ => .constrained _

theorem IconButtonLook.draw_answers (look : IconButtonLook α) :
    Answers limits limits.Constrained (look.draw : Draw α ε (Size α)) := by
  refine .limits_bind (.seq (.paint _ _ _) fun _ => ?_)
  cases look.icon with
  | none => exact .constrained _
  | some icon => exact .seq (.withOffset (.paint _ _ _)) fun _ => .constrained _

theorem CheckboxLook.draw_answers (look : CheckboxLook α) :
    Answers limits limits.Constrained (look.draw : Draw α ε (Size α)) := by
  have htext (id text : String) (style : TextStyle α) :
      Answers limits (fun _ => True) (style.draw id text : Draw α ε (Size α)) :=
    (style.draw_answers id text).mono fun _ _ => trivial
  refine .limits_bind (.seq .textMetrics fun _ => .seq (.withOffset ?_) fun _ => ?_)
  · refine .seq (.rect _) fun _ => .seq (.push _) fun _ => ?_
    split
    · exact .push _
    · exact .pure trivial
  · exact .seq (.withOffset (htext _ _ _)) fun _ => .constrained _

theorem InputLook.draw_answers (look : InputLook) :
    Answers limits limits.Constrained (look.draw : Draw α ε (Size α)) := by
  refine .limits_bind (.seq (.withOffset (.withConstraints fun _ _ => trivial)) fun _ => ?_)
  exact .seq (.paint _ _ _) fun _ => .constrained _

theorem ListLook.draw_answers (look : ListLook α ε) :
    Answers limits limits.Constrained look.draw := by
  have hmeasure (inner : Constraints α) (items : List (Draw α ε (Size α))) :
      Answers limits (fun _ => True) (look.measure inner items) := by
    induction items with
    | nil => exact .pure trivial
    | cons item rest ih => exact .seq (.record _ _) fun _ => .seq ih fun _ => .pure trivial
  have hplace (visible cross main : α) (recordings : List (Recording α)) :
      Answers limits (fun _ => True)
        (look.place visible cross main recordings : Draw α ε Unit) := by
    induction recordings generalizing main with
    | nil => exact .pure trivial
    | cons recording rest ih =>
        rw [ListLook.place]
        split
        · exact .seq (.replay _ _) fun _ => ih _
        · exact ih _
  refine .limits_bind ?_
  cases look.items with
  | none => exact .constrained _
  | some items => exact .seq (hmeasure _ _) fun _ => .seq (hplace _ _ _ _) fun _ => .constrained _

theorem LoaderLook.draw_answers (look : LoaderLook α ε) :
    Answers limits limits.Constrained look.draw := by
  refine .limits_bind (.seq (.paint _ _ _) fun _ => ?_)
  cases look.again with
  | none => exact .seq (.pure trivial) fun _ => .constrained _
  | some r => exact .seq (.request r) fun _ => .constrained _

theorem ProgressBarLook.draw_answers (look : ProgressBarLook α) :
    Answers limits limits.Constrained (look.draw : Draw α ε (Size α)) :=
  .limits_bind (.seq (.paint _ _ _) fun _ => .seq (.paint _ _ _) fun _ => .constrained _)

theorem SliderLook.draw_answers (look : SliderLook α) :
    Answers limits limits.Constrained (look.draw : Draw α ε (Size α)) := by
  refine .limits_bind (.seq (.withOffset ?_) fun _ => ?_)
  · exact .seq (.paint _ _ _) fun _ => .paint _ _ _
  · exact .seq (.withOffset (.paint _ _ _)) fun _ => .constrained _

/-- A widget constrains its size, unless the application draws it. -/
theorem Look.draw_answers {look : Look α ε} (own : ∀ drawing, look ≠ .graphic drawing) :
    Answers limits limits.Constrained look.draw := by
  cases look with
  | button look => exact look.draw_answers
  | checkbox look => exact look.draw_answers
  | iconButton look => exact look.draw_answers
  | input look => exact look.draw_answers
  | label look => exact look.style.draw_answers _ _
  | list look => exact look.draw_answers
  | loader look => exact look.draw_answers
  | progressBar look => exact look.draw_answers
  | slider look => exact look.draw_answers
  | spacer size => exact .limits_bind (.constrained _)
  | graphic drawing => exact absurd rfl (own drawing)
  | block id size => exact .limits_bind (.seq (.paint _ _ _) fun _ => .constrained _)

end Trellis
