import Trellis.Proofs.Frame.Unfold
import Trellis.Proofs.Mirror.WriteBack
import Trellis.Proofs.Mirror.Avoids
import Trellis.Proofs.Mirror.Widget
import Trellis.Proofs.Widget.Locked

/-!
# Callbacks that set something else

A widget shows a value through a mirror of its own, and reports it to the binding that it follows.
As long as nobody else edits that mirror or changes that binding, both have the value that the widget
gave them.

* `Entry.Aside` — a stretch of history in which nobody does.
* `World.Holds` — a mirror and its binding have a value.
* `Moment.Guards` — a widget is locked, and nobody knows its mirror.
* `Reaches.guarded` — whatever callbacks do then, the value stays as long as nobody sets it.
-/

namespace Trellis

open Machine

open World (Lenient Recopies Refits Hands)

variable {κ ρ : Type} {e : ElementId} {x : WatcherId} {target : Option BindingId}
  {w w' : World κ ρ}

/-! ## Histories in which nobody sets a value -/

/-- None of the entries is an edit of the mirror or a change of the binding that it follows, and it
is called for no other binding. -/
structure Entry.Aside (x : WatcherId) (target : Option BindingId) (news : List Entry) : Prop where
  unedited : .edited x ∉ news
  unchanged : ∀ b, target = some b → .changed b ∉ news
  called : ∀ b, .called x b ∈ news → target = some b

theorem Entry.aside_append {news later : List Entry} :
    Aside x target (news ++ later) ↔ Aside x target news ∧ Aside x target later := by
  constructor
  · intro h
    constructor
    · refine ⟨fun hmem => h.unedited (List.mem_append_left _ hmem), fun b hb hmem => ?_,
        fun b hmem => h.called b (List.mem_append_left _ hmem)⟩
      exact h.unchanged b hb (List.mem_append_left _ hmem)
    · refine ⟨fun hmem => h.unedited (List.mem_append_right _ hmem), fun b hb hmem => ?_,
        fun b hmem => h.called b (List.mem_append_right _ hmem)⟩
      exact h.unchanged b hb (List.mem_append_right _ hmem)
  · rintro ⟨h, h'⟩
    refine ⟨?_, fun b hb => ?_, fun b hmem => ?_⟩
    · simp [h.unedited, h'.unedited]
    · simp [h.unchanged b hb, h'.unchanged b hb]
    · rcases List.mem_append.mp hmem with hmem | hmem
      · exact h.called b hmem
      · exact h'.called b hmem

/-! ## Copies -/

/-- The copy of a mirror is as it was, unless an edit of it has been recorded. -/
def World.Unedited (x : WatcherId) (w w' : World κ ρ) : Prop :=
  ∃ news, w'.history = w.history ++ news ∧ (.edited x ∉ news → w'.copy? x = w.copy? x)

namespace World.Unedited

/-- Nothing is recorded, and no watcher changes. -/
theorem of_eq (trail : w'.trail = w.trail) (watchers : w'.watchers = w.watchers) :
    w.Unedited x w' := by
  refine ⟨[], ?_, fun _ => ?_⟩
  · rw [World.history, World.history, trail, List.append_nil]
  · rw [copy?, copy?, watcher?, watcher?, watchers]

theorem modifyCopy (w : World κ ρ) {y : WatcherId} (hy : y ≠ x) (f : Mirror ρ → Mirror ρ) :
    w.Unedited x (w.modifyCopy y f) := by
  refine ⟨[], (List.append_nil _).symm, fun _ => ?_⟩
  rw [copy?_modifyCopy, if_neg hy]

instance : IsPreorder (World κ ρ) (Unedited x) where
  refl _ := of_eq rfl rfl
  trans _ _ _ h h' := by
    obtain ⟨news, hnews, hsame⟩ := h
    obtain ⟨later, hlater, hsame'⟩ := h'
    refine ⟨news ++ later, by rw [hlater, hnews, List.append_assoc], fun hno => ?_⟩
    rw [List.mem_append, not_or] at hno
    exact (hsame' hno.2).trans (hsame hno.1)

instance : Lenient (Unedited (κ := κ) (ρ := ρ) x) where
  bindings _ _ := of_eq rfl rfl
  awaiting _ _ := of_eq rfl rfl
  madeUp _ _ := of_eq rfl rfl
  recorded w entry := ⟨[entry], history_record w entry, fun _ => rfl⟩
  dropped w y := by
    refine ⟨[], (List.append_nil _).symm, fun _ => ?_⟩
    rw [copy?, copy?, watcher?_modifyWatcher]
    split
    · rw [Option.bind_map]
      rfl
    · rfl
  edited w y value := by
    refine ⟨[.edited y], history_record _ _, fun hno => ?_⟩
    have hy : y ≠ x := by
      rintro rfl
      exact hno List.mem_cons_self
    show (w.modifyCopy y (·.edit value)).copy? x = w.copy? x
    rw [copy?_modifyCopy, if_neg hy]
  event _ _ := of_eq rfl rfl
  asked _ _ := of_eq rfl rfl

instance : Hands (Unedited (κ := κ) (ρ := ρ) x) where
  handed _ _ _ := of_eq rfl rfl

instance (d : ElementId) : Refits (Unedited (κ := κ) (ρ := ρ) x) d where
  refitted _ _ _ := of_eq rfl rfl

theorem recopies {y : WatcherId} (hy : y ≠ x) : Recopies (Unedited (κ := κ) (ρ := ρ) x) y where
  copied w f := modifyCopy w hy f

end World.Unedited

/-! ## Values -/

/-- A mirror shows a value, and the binding that it follows has it. -/
structure World.Holds (w : World κ ρ) (x : WatcherId) (target : Option BindingId)
    (value : Scalar ρ) : Prop where
  shown : ∃ copy, w.copy? x = some copy ∧ copy.value = value ∧
    ∀ b, target = some b → copy.edited = false
  content : ∀ b, target = some b → w.content? b = some (.one value)

/-- The copy of a mirror, and the content of the binding that it follows, are as they were. -/
structure World.Leaves (x : WatcherId) (target : Option BindingId) (w w' : World κ ρ) : Prop where
  copy : w'.copy? x = w.copy? x
  content : ∀ b, target = some b → w'.content? b = w.content? b

instance : IsPreorder (World κ ρ) (World.Leaves x target) where
  refl _ := ⟨rfl, fun _ _ => rfl⟩
  trans _ _ _ h h' :=
    ⟨h'.copy.trans h.copy, fun b hb => (h'.content b hb).trans (h.content b hb)⟩

theorem World.Holds.leave {value : Scalar ρ} (h : w.Holds x target value)
    (leaves : w.Leaves x target w') : w'.Holds x target value where
  shown := by
    rw [leaves.copy]
    exact h.shown
  content b hb := (leaves.content b hb).trans (h.content b hb)

/-- A value that the mirror and its binding have stays, unless somebody sets it. -/
def World.Spares (x : WatcherId) (target : Option BindingId) (w w' : World κ ρ) : Prop :=
  ∃ news, w'.history = w.history ++ news ∧ (Entry.Aside x target news →
    ∀ value, w.Holds x target value → w'.Holds x target value)

instance : IsPreorder (World κ ρ) (World.Spares x target) where
  refl _ := ⟨[], (List.append_nil _).symm, fun _ _ => id⟩
  trans _ _ _ h h' := by
    obtain ⟨news, hnews, hholds⟩ := h
    obtain ⟨later, hlater, hholds'⟩ := h'
    refine ⟨news ++ later, by rw [hlater, hnews, List.append_assoc], fun haside value hvalue => ?_⟩
    rw [Entry.aside_append] at haside
    exact hholds' haside.2 value (hholds haside.1 value hvalue)

/-- What is known of the history of a step is known of all that it added. -/
theorem World.Spares.holds {news : List Entry} {value : Scalar ρ} (h : w.Spares x target w')
    (history : w'.history = w.history ++ news) (aside : Entry.Aside x target news)
    (holds : w.Holds x target value) : w'.Holds x target value := by
  obtain ⟨news', hnews, hholds⟩ := h
  obtain rfl : news' = news := List.append_cancel_left (hnews.symm.trans history)
  exact hholds aside value holds

/-- A mirror that is called takes over the value of the binding, or is left as it is. -/
theorem Machine.copy?_call {app : App κ ρ} {b : BindingId} {program : Program κ ρ Unit}
    (run : call app x b w = .ok (program, w')) :
    w'.copy? x = w.copy? x ∨ ∃ copy value, w.copy? x = some copy ∧
      w.content? b = some (.one value) ∧ w'.copy? x = some (copy.takeOver (.one value)) := by
  obtain ⟨_, u, hrecord, run⟩ := bind_eq_ok.mp run
  replace run := get_bind_eq_ok.mp run
  obtain rfl : w.record (.called x b) = u := modify_eq_ok.mp hrecord
  have hasks {v v' : World κ ρ} {window : Option WindowId}
      (hask : invalidate window v = .ok ((), v')) : v'.copy? x = v.copy? x := by
    have hsteady : v.Steady b (fun _ => False) v' := invalidate_steady window hask
    exact hsteady.copies x id
  cases hcell : (w.record (.called x b)).watcher? x with
  | none =>
      simp only [hcell] at run
      obtain ⟨-, rfl⟩ := pure_eq_ok.mp run
      exact .inl rfl
  | some cell =>
      have hcopy : w.copy? x = cell.watcher.copy? := congrArg (Option.bind · _) hcell
      cases hwatcher : cell.watcher with
      | mirror copy =>
          rw [hwatcher] at hcopy
          simp only [hcell, hwatcher] at run
          split at run
          · next hfits =>
              obtain ⟨_, v, htake, run⟩ := bind_eq_ok.mp run
              obtain ⟨_, v', hask, run⟩ := bind_eq_ok.mp run
              obtain ⟨-, rfl⟩ := pure_eq_ok.mp run
              obtain ⟨binding, hbinding, hshape⟩ := Option.map_eq_some_iff.mp hfits
              obtain ⟨value, hvalue, -⟩ := Content.exists_of_shape hshape
              have hcontent : (w.record (.called x b)).content? b = some (.one value) := by
                rw [World.content?, hbinding, Option.map_some, hvalue]
              refine .inr ⟨copy, value, hcopy, hcontent, ?_⟩
              rw [hasks hask, takeOver_eq_ok hcontent htake, World.copy?_modifyCopy, if_pos rfl]
              show (w.copy? x).map _ = _
              rw [hcopy]
              rfl
          · obtain ⟨-, rfl⟩ := pure_eq_ok.mp run
            exact .inl rfl
      | invalidator window =>
          simp only [hcell, hwatcher] at run
          obtain ⟨_, v, hask, run⟩ := bind_eq_ok.mp run
          obtain ⟨-, rfl⟩ := pure_eq_ok.mp run
          have hsame := hasks hask
          exact .inl hsame
      | callback code =>
          simp only [hcell, hwatcher] at run
          obtain ⟨-, rfl⟩ := pure_eq_ok.mp run
          exact .inl rfl

/-! ## Callbacks -/

/-- An element is locked, and its follower is known to nobody else. -/
structure Moment.Guards (e : ElementId) (x : WatcherId) (m : Moment κ ρ) : Prop where
  locks : m.Locks e
  own : ∀ d, m.world.follower? d = some x → d = e
  avoids : ∀ d ∈ m.agenda, d.Avoids x

variable [Ordered ρ] {app : App κ ρ} {m m' : Moment κ ρ}

namespace Moment.Guards

variable {duty : Duty κ ρ} {left rest : List (Duty κ ρ)}

/-- A step that does not call the mirror leaves its copy, unless to edit it. -/
theorem unedited (h : Guards e x ⟨duty :: rest, w⟩)
    (other : ∀ b later, duty ≠ .rounds b (x :: later))
    (run : duty.discharge app w = .ok (left, w')) : w.Unedited x w' := by
  have havoids := h.avoids duty List.mem_cons_self
  have hedits := h.locks.edits_ne run
  refine (Duty.discharge_answers (fun y hy => World.Unedited.recopies ?_)
    (fun _ _ _ => inferInstance) (fun _ _ => inferInstance)
    (fun d kind target reply y hd hy => World.Unedited.recopies ?_) run).1
  · rintro rfl
    cases duty with
    | run program =>
        cases program with
        | attach z b next | writeBack z b next =>
            cases hy
            exact havoids.1 rfl
        | _ => cases hy
    | rounds b watchers =>
        cases watchers with
        | nil => cases hy
        | cons z later =>
            cases hy
            exact other b later rfl
    | _ => cases hy
  · -- An element that is bound has a follower of its own.
    rintro rfl
    rw [hd, h.own d hy] at hedits
    exact hedits rfl

/-- A step that calls the mirror. -/
theorem spares_call {b : BindingId} {later : List WatcherId}
    (run : (Duty.rounds b (x :: later)).discharge app w = .ok (left, w')) :
    w.Spares x target w' := by
  obtain ⟨program, v, hcall, hleft⟩ := bind_eq_ok.mp run
  obtain ⟨-, rfl⟩ := pure_eq_ok.mp hleft
  have hstill := call_eq_ok hcall
  obtain ⟨news, hnews, -⟩ := hstill.history
  rw [World.history_record, List.append_assoc] at hnews
  refine ⟨_, hnews, fun haside value hvalue => ?_⟩
  have htarget : target = some b := haside.called b List.mem_cons_self
  have hcontent (c : BindingId) : v.content? c = w.content? c := hstill.content c
  rcases copy?_call hcall with hsame | ⟨copy, taken, hcopy, htaken, hafter⟩
  · exact hvalue.leave ⟨hsame, fun c _ => hcontent c⟩
  · -- It takes over what it shows already.
    obtain ⟨old, hold, rfl, hunedited⟩ := hvalue.shown
    rw [hcopy, Option.some.injEq] at hold
    subst hold
    rw [hvalue.content b htarget, Option.some.injEq, Content.one.injEq] at htaken
    subst htaken
    refine ⟨⟨_, hafter, ?_, fun _ _ => ?_⟩, fun c hc => (hcontent c).trans (hvalue.content c hc)⟩
    · rw [Mirror.takeOver, if_pos rfl]
    · rw [Mirror.takeOver, if_pos rfl]

theorem spares (h : Guards e x ⟨duty :: rest, w⟩)
    (run : duty.discharge app w = .ok (left, w')) : w.Spares x target w' := by
  by_cases hcalls : ∃ b later, duty = .rounds b (x :: later)
  · obtain ⟨b, later, rfl⟩ := hcalls
    exact spares_call run
  · have hother (b : BindingId) (later : List WatcherId) : duty ≠ .rounds b (x :: later) :=
      fun heq => hcalls ⟨b, later, heq⟩
    obtain ⟨news, hnews, hcopy⟩ := h.unedited hother run
    obtain ⟨news', hwrites⟩ := (Duty.effect_of_discharge run).writes
    obtain rfl : news' = news := List.append_cancel_left (hwrites.history.symm.trans hnews)
    refine ⟨news', hnews, fun haside value hvalue => ?_⟩
    exact hvalue.leave
      ⟨hcopy haside.unedited, fun b hb => hwrites.content b (haside.unchanged b hb)⟩

theorem next (happ : app.Avoids x) (h : m.Guards e x) (step : Next app m m') :
    m'.Guards e x ∧ m.world.Spares x target m'.world := by
  have hlocks := h.locks.next step
  obtain @⟨duty, rest, left, w, w', run⟩ := step
  -- No step hands the follower to another element.
  have hfitted : w.Fitted w' :=
    (Duty.discharge_answers (fun _ _ => inferInstance) (fun _ _ _ => inferInstance)
      (fun _ _ => inferInstance) (fun _ _ _ _ _ _ _ => inferInstance) run).1
  refine ⟨⟨hlocks.1, fun d hd => ?_, List.forall_mem_append.mpr ⟨?_, fun d hd => ?_⟩⟩,
    h.spares run⟩
  · exact h.own d ((hfitted.follower d).symm.trans hd)
  · exact Duty.discharge_avoids happ (h.avoids duty List.mem_cons_self) run
  · exact h.avoids d (List.mem_cons_of_mem _ hd)

end Moment.Guards

/-- Whatever callbacks do while a widget is locked, a value that it has stays as long as nobody sets
it. The induction is on the steps. -/
theorem Reaches.guarded (happ : app.Avoids x) (h : m.Guards e x) (run : Reaches app m m') :
    m'.Guards e x ∧ m.world.Spares x target m'.world := by
  induction run with
  | refl => exact ⟨h, refl_of _ m.world⟩
  | tail _ hnext ih =>
      obtain ⟨hguards, hspares⟩ := ih
      obtain ⟨hguards', hspares'⟩ := hguards.next happ hnext
      exact ⟨hguards', trans_of _ hspares hspares'⟩

end Trellis
