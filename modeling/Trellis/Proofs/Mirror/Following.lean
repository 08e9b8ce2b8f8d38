import Trellis.Proofs.Mirror.Outcome
import Trellis.Proofs.Mirror.Telling

/-!
# What a widget shows

A widget may be bound at any time, also by a callback in the middle of a round. From then on its
mirror is registered with the other binding, so no round that begins later calls it for the old one.
But whom a round calls is settled when it begins: if a round of the old binding is under way and has
yet to call the mirror, it still does.

* `World.Current` — a widget shows the value of the binding that it follows.
* `Scene.overruns` — a widget is bound while a round of another binding has yet to call its mirror.
* `Scene.Following` — what every act keeps.
* `Course.widget_current` — unless it is overrun, the mirror is called for the binding that the
  widget follows only, and the widget stays current.
-/

namespace Trellis

open Machine

variable {κ ρ : Type} [Ordered ρ] {e : ElementId} {x : WatcherId} {kind : Scalar.Kind}
  {b : BindingId} {w w' : World κ ρ} {app : App κ ρ} {ctx : EventContext} {y : WindowId}

/-- An element shows a value through a mirror of its own. Unless that was edited, or the binding
that the element follows is being told of, it is the value of that binding. -/
structure World.Current (w : World κ ρ) (e : ElementId) (x : WatcherId) (kind : Scalar.Kind) :
    Prop where
  widget : w.Widget e x kind
  shows : ∀ b copy, w.followed? e = some b → w.flags b = (false, false) → w.copy? x = some copy →
    copy.edited = false → w.Agrees b copy

/-- The binding for which an act is to call a watcher, now or later. -/
def Act.calls? (x : WatcherId) : Act κ ρ → Option BindingId
  | .duty d => if x ∈ d.yet then d.binding? else none
  | _ => none

namespace Scene

/-- The bindings that overrun an element: it is about to be bound, but not to them, and a round of
theirs that is under way has yet to call the mirror. -/
def overruns (e : ElementId) (x : WatcherId) (c : Scene κ ρ) : List BindingId :=
  match c.acts with
  | .duty (.task (.edit d _ (.bind target) _)) :: rest =>
    if d = e then (rest.filterMap (·.calls? x)).filter (some · ≠ target) else []
  | _ => []

/-- The mirror has yet to take over the value of the binding. -/
def Owes (b : BindingId) (x : WatcherId) (c : Scene κ ρ) : Prop :=
  (c.world.flags b).2 = true ∨ ∃ d, .duty d ∈ c.acts ∧ x ∈ d.yet

/-- The mirror is called for the binding that the element follows, or for one of those that are
stale. As long as none is, the element shows the value of the binding that it follows, or is going
to. -/
structure Following (e : ElementId) (x : WatcherId) (kind : Scalar.Kind)
    (stale : BindingId → Prop) (c : Scene κ ρ) : Prop where
  widget : c.world.Widget e x kind
  avoids : ∀ act ∈ c.acts, act.Avoids x
  sound : c.Sound
  calls : ∀ d b, .duty d ∈ c.acts → x ∈ d.yet → d.binding? = some b →
    c.world.followed? e = some b ∨ stale b
  shows : (∀ b, ¬ stale b) → ∀ b copy, c.world.followed? e = some b → c.world.copy? x = some copy →
    copy.edited = false → c.Owes b x ∨ c.world.Agrees b copy

namespace Following

variable {stale : BindingId → Prop} {c c' : Scene κ ρ} {act : Act κ ρ} {rest left : List (Act κ ρ)}
  {asked made asked' made' : List (Task κ)}

/-- The mirror of a widget that is called takes over the value of the binding it follows. -/
theorem agrees_of_call {program : Program κ ρ Unit} {copy : Mirror ρ} (widget : w'.Widget e x kind)
    (held : w'.watcherHeld x = true) (following : w'.followed? e = some b)
    (run : call app x b w = .ok (program, w')) (shown : w'.copy? x = some copy)
    (unedited : copy.edited = false) : w'.Agrees b copy := by
  have hkind : copy.value.kind = kind := by
    have hshown := widget.shown
    rwa [shown, Option.map_some, Option.some.injEq] at hshown
  have hattached : w'.Attached b x copy :=
    { registered := (widget.registered b).mpr following
      held := held
      shown := shown
      kind := hkind ▸ widget.followed b following }
  exact (Mirror.Accord.of_call run hattached).agrees unedited

/-- What is owed to the mirror stays so, unless it is called. -/
theorem owes_or_agrees {duty : Duty κ ρ} {duties : List (Duty κ ρ)} {copy : Mirror ρ}
    (h : Following e x kind stale ⟨act :: rest, w, asked, made⟩)
    (held : w.watcherHeld x = true) (tells : act.Tells left duty duties w w')
    (other : ∀ b rest, act ≠ .duty (.rounds b (x :: rest))) (fresh : ∀ b, ¬ stale b)
    (following : w.followed? e = some b) (shown : w.copy? x = some copy)
    (unedited : copy.edited = false) :
    (Scene.mk (left ++ rest) w' asked' made').Owes b x ∨ w'.Agrees b copy := by
  have hleft {d : Duty κ ρ} (hd : .duty d ∈ left) : .duty d ∈ left ++ rest :=
    List.mem_append_left _ hd
  rcases h.shows fresh b copy following shown unedited with (hpending | ⟨d, hd, hx⟩) | hagrees
  · have hregistered := (h.widget.registered b).mpr following
    rcases tells.pending hregistered held hpending with hpending' | ⟨d, hd, hx⟩
    · exact .inl (.inl hpending')
    · exact .inl (.inr ⟨d, hleft hd, hx⟩)
  · rcases List.mem_cons.mp hd with rfl | hd
    · rcases tells.owed rfl hx with ⟨b', more, rfl⟩ | ⟨d', hd', hx'⟩
      · exact absurd rfl (other b' more)
      · exact .inl (.inr ⟨d', hleft hd', hx'⟩)
    · exact .inl (.inr ⟨d, List.mem_append_right _ hd, hx⟩)
  · rcases tells.effect.content b with hsame | hpending
    · obtain ⟨value, hvalue, hcopy⟩ := hagrees
      exact .inr ⟨value, hsame.trans hvalue, hcopy⟩
    · exact .inl (.inl hpending)

omit [Ordered ρ] in
theorem mem_overruns {k : Kind} {target : Option BindingId} {reply : κ} {d : Duty κ ρ}
    (hd : .duty d ∈ rest) (hx : x ∈ d.yet) (hb : d.binding? = some b) (other : target ≠ some b) :
    b ∈ (Scene.mk (.duty (.task (.edit e k (.bind target) reply)) :: rest) w asked made).overruns
      e x := by
  have hcalls : (Act.duty d).calls? x = some b := by rw [Act.calls?, if_pos hx, hb]
  dsimp only [overruns]
  rw [if_pos rfl, List.mem_filter]
  exact ⟨List.mem_filterMap.mpr ⟨_, hd, hcalls⟩, decide_eq_true (Ne.symm other)⟩

/-- Every act keeps this, if the bindings that overrun the widget count as stale. -/
theorem next (happ : app.Avoids x) (h : c.Following e x kind stale)
    (held : c.world.watcherHeld x = true) (held' : c'.world.watcherHeld x = true)
    (overrun : ∀ b ∈ c.overruns e x, stale b) (step : Next app ctx y c c') :
    c'.Following e x kind stale := by
  have hsound := h.sound.next happ step
  obtain @⟨act, rest, left, w, w', asked, made, run⟩ := step
  have hact := h.avoids act List.mem_cons_self
  obtain ⟨duty, duties, htells⟩ := act.exists_tells happ run
  have havoids : ∀ a ∈ left ++ rest, a.Avoids x :=
    List.forall_mem_append.mpr
      ⟨act.perform_avoids happ hact run, fun a ha => h.avoids a (List.mem_cons_of_mem _ ha)⟩
  -- As long as the widget follows what it followed, new calls of its mirror are for that.
  have hcalls (hsame : w'.followed? e = w.followed? e) (d : Duty κ ρ) (b : BindingId)
      (hd : .duty d ∈ left ++ rest) (hx : x ∈ d.yet) (hb : d.binding? = some b) :
      w'.followed? e = some b ∨ stale b := by
    rw [hsame]
    rcases List.mem_append.mp hd with hd | hd
    · rcases htells.yet hd hx with ⟨d', rfl, hx', hb'⟩ | ⟨b', hb', hregistered⟩
      · exact h.calls d' b List.mem_cons_self hx' (hb'.symm.trans hb)
      · obtain rfl : b' = b := Option.some.inj (hb'.symm.trans hb)
        exact .inl ((h.widget.registered b').mp hregistered)
    · exact h.calls d b (List.mem_cons_of_mem _ hd) hx hb
  cases act.perform_outcome happ h.widget held hact run with
  | untouched other tied =>
      refine ⟨h.widget.of_tied tied, havoids, hsound, hcalls (tied.followed id), ?_⟩
      intro fresh b copy hfollowed hshown hedited
      exact h.owes_or_agrees held htells other fresh ((tied.followed id).symm.trans hfollowed)
        (tied.copy id copy hshown hedited) hedited
  | @calls b' more _ _ _ _ hcall tied =>
      have hwidget := h.widget.of_tied tied
      refine ⟨hwidget, havoids, hsound, hcalls (tied.followed id), ?_⟩
      intro fresh b copy hfollowed hshown hedited
      -- It is called for the binding that it follows.
      have hcalled := (h.calls (.rounds b' (x :: more)) b' List.mem_cons_self List.mem_cons_self
        rfl).resolve_right (fresh b')
      rw [← tied.followed id, hfollowed, Option.some.injEq] at hcalled
      subst hcalled
      exact .inr (agrees_of_call hwidget held' hfollowed hcall hshown hedited)
  | @reports b' _ _ _ following shows tied =>
      refine ⟨h.widget.of_tied tied, havoids, hsound, hcalls (tied.followed id), ?_⟩
      intro fresh b copy hfollowed hshown hedited
      rw [tied.followed id, following, Option.some.injEq] at hfollowed
      subst hfollowed
      rcases shows with hpending | hagrees
      · exact .inl (.inl hpending)
      · exact .inr (hagrees copy hshown)
  | @binds k target reply _ _ _ left_yet bound =>
      refine ⟨bound.widget, havoids, hsound, ?_, ?_⟩
      · intro d b hd hx hb
        rcases List.mem_append.mp hd with hd | hd
        · exact absurd hx (left_yet d hd)
        · rcases h.calls d b (List.mem_cons_of_mem _ hd) hx hb with hfollowed | hstale
          · by_cases htarget : target = some b
            · have hfits : w.Fits kind b := h.widget.followed b hfollowed
              rw [bound.followed, htarget]
              exact .inl (Option.filter_some_pos (decide_eq_true hfits))
            · -- The widget is bound to another binding than it followed.
              exact .inr (overrun b (mem_overruns hd hx hb htarget))
          · exact .inr hstale
      · intro fresh b copy hfollowed hshown hedited
        exact .inr (bound.shows b copy (bound.followed.symm.trans hfollowed) hshown hedited)

/-- The mirror of a widget that follows nothing shows what it showed, unless it is edited. -/
theorem kept (happ : app.Avoids x) (h : c.Following e x kind stale)
    (held : c.world.watcherHeld x = true) (fresh : ∀ b, ¬ stale b)
    (free : c.world.followed? e = none) (free' : c'.world.followed? e = none)
    (step : Next app ctx y c c') {copy : Mirror ρ} (shown : c'.world.copy? x = some copy)
    (unedited : copy.edited = false) : c.world.copy? x = some copy := by
  obtain @⟨act, rest, left, w, w', asked, made, run⟩ := step
  cases act.perform_outcome happ h.widget held (h.avoids act List.mem_cons_self) run with
  | untouched other tied => exact tied.copy id copy shown unedited
  | @calls b more =>
      have hcalled := (h.calls (.rounds b (x :: more)) b List.mem_cons_self List.mem_cons_self
        rfl).resolve_right (fresh b)
      exact absurd (free.symm.trans hcalled) (by simp)
  | reports following => exact absurd (free.symm.trans following) (by simp)
  | binds left_yet bound =>
      exact bound.kept (bound.followed.symm.trans free') copy shown unedited

/-- In a whole course this is kept. The induction is on the acts. -/
theorem course (happ : app.Avoids x) (h : c.Following e x kind stale)
    (held : ∀ u, Course app ctx y c u → u.world.watcherHeld x = true) (run : Course app ctx y c c')
    (overrun : ∀ u b, Course app ctx y c u → Course app ctx y u c' → b ∈ u.overruns e x → stale b) :
    c'.Following e x kind stale := by
  induction run with
  | refl => exact h
  | tail hcourse hstep ih =>
      have hbefore := ih fun u b hu hu' => overrun u b hu (hu'.tail hstep)
      exact hbefore.next happ (held _ hcourse) (held _ (hcourse.tail hstep))
        (fun b => overrun _ b hcourse (.single hstep)) hstep

/-- A widget that is current, and acts that begin anew. -/
theorem of_current (current : c.world.Current e x kind) (plain : PlainActs x c.acts)
    (quiet : ∀ b, c.world.flags b = (false, false)) (stale : BindingId → Prop) :
    c.Following e x kind stale where
  widget := current.widget
  avoids act hact := (plain act hact).avoids
  sound := .of_plain plain quiet
  calls d b hd _ hb := absurd ((plain (.duty d) hd).2.symm.trans hb) (by simp)
  shows _ b copy hfollowed hshown hedited :=
    .inr (current.shows b copy hfollowed (quiet b) hshown hedited)

/-- The widget is current, unless it was overrun. -/
theorem current (h : c.Following e x kind stale) (fresh : ∀ b, ¬ stale b) :
    c.world.Current e x kind := by
  refine ⟨h.widget, fun b copy hfollowed hquiet hshown hedited => ?_⟩
  refine (h.shows fresh b copy hfollowed hshown hedited).resolve_left ?_
  rintro (hpending | ⟨d, hd, hx⟩)
  · rw [hquiet] at hpending
    cases hpending
  · -- Whoever is to call the mirror does so for the binding that the widget follows.
    obtain ⟨b', hb'⟩ := Duty.exists_binding_of_yet hx
    have hcalls := (h.calls d b' hd hx hb').resolve_right (fresh b')
    rw [hfollowed, Option.some.injEq] at hcalls
    exact h.sound.not_mem_of_flags hquiet hd (hcalls ▸ hb')

end Following

end Scene

/-! ## Whole courses -/

/-- Whoever calls the mirror of a widget does so for the binding that the widget follows, or for one
that overran it: that was being told of and had yet to call the mirror when the widget was bound. If
the widget is never overrun it is current at any time, and as long as it follows no binding it shows
what it showed before. -/
theorem Course.widget_current {c d : Scene κ ρ} (happ : app.Avoids x)
    (start : c.world.Current e x kind) (plain : PlainActs x c.acts)
    (quiet : ∀ b, c.world.flags b = (false, false))
    (held : ∀ u, Course app ctx y c u → u.world.watcherHeld x = true)
    (run : Course app ctx y c d) :
    (∀ duty b, .duty duty ∈ d.acts → x ∈ duty.yet → duty.binding? = some b →
      d.world.followed? e = some b ∨
        ∃ u, Course app ctx y c u ∧ Course app ctx y u d ∧ b ∈ u.overruns e x) ∧
    ((∀ u, Course app ctx y c u → Course app ctx y u d → u.overruns e x = []) →
      d.world.Current e x kind ∧
      ∀ v, Course app ctx y c v → Course app ctx y v d →
        (∀ u, Course app ctx y v u → Course app ctx y u d → u.world.followed? e = none) →
        ∀ copy, d.world.copy? x = some copy → copy.edited = false →
          v.world.copy? x = some copy) := by
  refine ⟨?_, fun fresh => ⟨?_, fun v hv hrun free copy => ?_⟩⟩
  · have hfollowing := (Scene.Following.of_current start plain quiet fun b =>
      ∃ u, Course app ctx y c u ∧ Course app ctx y u d ∧ b ∈ u.overruns e x).course happ held run
      fun u b hu hu' hb => ⟨u, hu, hu', hb⟩
    exact fun duty b => hfollowing.calls duty b
  all_goals
    have hfollowing {u : Scene κ ρ} (hu : Course app ctx y c u) (hu' : Course app ctx y u d) :
        u.Following e x kind fun _ => False := by
      refine (Scene.Following.of_current start plain quiet _).course happ held hu
        fun v b hv hv' hb => ?_
      rw [fresh v hv (hv'.trans hu')] at hb
      cases hb
  · exact (hfollowing run .refl).current fun _ => id
  · -- Back from the end of the course, act by act.
    induction hrun using Relation.ReflTransGen.head_induction_on with
    | refl => exact fun hshown _ => hshown
    | @head v v' hstep hrun ih =>
        intro hshown hedited
        have hv' := hv.tail hstep
        have hshown' := ih hv' (fun u hu hu' => free u (.head hstep hu) hu') hshown hedited
        exact (hfollowing hv (.head hstep hrun)).kept happ (held v hv) (fun _ => id)
          (free v .refl (.head hstep hrun)) (free v' (.single hstep) hrun) hstep hshown' hedited

/-! ## A label that is bound by a watcher -/

/-- An application whose watcher has a label follow the second binding. -/
def App.turning : App Unit Empty :=
  { App.idle with
    watcher := fun _ _ => .update ⟨⟨0⟩, .label, none⟩ (.bind (some ⟨1⟩)) () (.done ()) }

/-- Two bindings and a label, which follows the first through the first watcher. The second watcher
is the application's. -/
def World.labelled (watchers : List WatcherId) : World Unit Empty where
  bindings := #[{ name := "old", content := .one (.text "a"), watchers },
    { name := "new", content := .one (.text "n") }]
  watchers := #[{ watcher := .mirror { value := .text "a" }, owner := some ⟨0⟩ },
    { watcher := .callback () }]
  elements := #[
    { id := "label", window := none, body := .label { format := .text }, follower := some ⟨0⟩,
      binding := some ⟨0⟩ }]
  pinned := [⟨0⟩]

/-- The first binding is set, and so many acts are done. -/
def Scene.turned (watchers : List WatcherId) (acts : Nat) : Scene Unit Empty :=
  (Scene.mk [.run (.set ⟨0⟩ (.one (.text "x")) fun _ => .done ())] (.labelled watchers) [] []).after
    App.turning {} ⟨0⟩ acts

theorem App.turning_avoids : App.turning.Avoids ⟨0⟩ := by
  constructor <;> intros <;> trivial

theorem World.labelled_current : (labelled [⟨0⟩, ⟨1⟩]).Current ⟨0⟩ ⟨0⟩ .text where
  widget :=
    { follower := by
        rintro ⟨i⟩
        cases i with
        | zero => exact iff_of_true rfl rfl
        | succ i => exact iff_of_false nofun nofun
      shapes := rfl
      shown := rfl
      registered := by
        rintro ⟨i⟩
        match i with
        | 0 => exact iff_of_true ⟨_, rfl, List.mem_cons_self⟩ rfl
        | 1 => exact iff_of_false (fun ⟨_, hfound, hx⟩ => by cases hfound; cases hx) nofun
        | i + 2 => exact iff_of_false (fun ⟨_, hfound, _⟩ => nomatch hfound) nofun
      followed := by
        rintro _ ⟨⟩
        rfl }
  shows := by
    rintro _ _ ⟨⟩ - ⟨⟩ -
    exact ⟨_, rfl, .inl rfl⟩

/-- A label that has been called before it is bound is not overrun: it shows the other value. -/
theorem Course.widget_current_turned :
    (Scene.turned [⟨0⟩, ⟨1⟩] 20).acts = [] ∧
      (Scene.turned [⟨0⟩, ⟨1⟩] 20).world.followed? ⟨0⟩ = some ⟨1⟩ ∧
      (Scene.turned [⟨0⟩, ⟨1⟩] 20).world.Current ⟨0⟩ ⟨0⟩ .text := by
  have hdone : (Scene.turned [⟨0⟩, ⟨1⟩] 20).acts = [] :=
    List.isEmpty_iff.mp (by decide +kernel)
  have hheld : ∀ n ≤ 20, (Scene.turned [⟨0⟩, ⟨1⟩] n).world.watcherHeld ⟨0⟩ = true := by
    decide +kernel
  have hfresh : ∀ n ≤ 20, (Scene.turned [⟨0⟩, ⟨1⟩] n).overruns ⟨0⟩ ⟨0⟩ = [] := by decide +kernel
  have hcurrent := (widget_current App.turning_avoids World.labelled_current
    (c := .turned [⟨0⟩, ⟨1⟩] 0) (List.forall_mem_singleton.mpr ⟨fun _ => trivial, rfl⟩)
    (by rintro ⟨_ | _ | i⟩ <;> rfl)
    (fun u hu => forall_scene hdone (P := fun c => c.world.watcherHeld ⟨0⟩ = true) hheld hu)
    (.after 20 _)).2 fun u hu _ =>
      forall_scene hdone (P := fun c => c.overruns ⟨0⟩ ⟨0⟩ = []) hfresh hu
  exact ⟨hdone, by decide +kernel, hcurrent.1⟩

/-- A label that is yet to be called is overrun: it goes on to show the value of the binding that it
has left. -/
example : (Scene.turned [⟨1⟩, ⟨0⟩] 4).overruns ⟨0⟩ ⟨0⟩ = [⟨0⟩] ∧
    (Scene.turned [⟨1⟩, ⟨0⟩] 20).acts.isEmpty = true ∧
    (Scene.turned [⟨1⟩, ⟨0⟩] 20).world.followed? ⟨0⟩ = some ⟨1⟩ ∧
    ((Scene.turned [⟨1⟩, ⟨0⟩] 20).world.copy? ⟨0⟩).map (·.value.differs (.text "x")) =
      some false := by
  decide +kernel

end Trellis
