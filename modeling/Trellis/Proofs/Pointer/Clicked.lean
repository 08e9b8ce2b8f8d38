import Mathlib.Algebra.Ring.Parity
import Mathlib.Data.Bool.Basic
import Mathlib.Data.List.Chain
import Trellis.Proofs.Pointer.Turns

/-!
# Clicks

A pressable widget counts a click for every release of a pointer that was pressed on it, however the
events are cut into frames. A check box is toggled by every click, although it looks only once in a
frame whether their number is odd.

* `World.CheckBox`, `Turn.Alone` — a check box, and a turn in which nobody else sets its value.
* `Turn.Taken.toggles` — what such a turn comes to.
* `Turns.clicks_completed` — the clicks of a widget, and the value of a check box after any number of turns.
-/

namespace Trellis

open Machine

variable {κ ρ : Type}

/-- A check box, the follower that is its own, and the binding that it follows. -/
structure World.CheckBox (w : World κ ρ) (e : ElementId) (x : WatcherId)
    (target : Option BindingId) : Prop where
  element : ∃ element settings, w.element? e = some element ∧ element.body = .checkbox settings ∧
    element.follower = some x ∧ element.binding = target
  own : ∀ d, w.follower? d = some x → d = e

/-- What is recorded when a check box is toggled by some clicks. -/
def Entry.toggling (x : WatcherId) (target : Option BindingId) (clicks : Nat) : List Entry :=
  if clicks % 2 = 1 then .edited x :: target.toList.map .changed else []

/-- A turn of a check box. Nobody is being told of anything as it begins, and nobody else sets its
value or the binding meanwhile. -/
structure Turn.Alone (e : ElementId) (x : WatcherId) (target : Option BindingId) (t : Turn κ ρ) :
    Prop where
  checkbox : t.before.CheckBox e x target
  quiescent : t.before.Quiescent
  others : ∀ news, t.after.history =
    t.before.history ++ (Entry.toggling x target t.clicks ++ news) → Entry.Aside x target news

/-! ## One turn of a check box -/

theorem not_iterate (n : Nat) (value : Bool) :
    not^[n] value = if n % 2 = 1 then !value else value := by
  split
  · next hodd => exact congrFun (Bool.involutive_not.iterate_odd (Nat.odd_iff.mpr hodd)) value
  · next heven =>
      have hn : Even n := Nat.even_iff.mpr (by omega)
      exact congrFun (Bool.involutive_not.iterate_even hn) value

variable [Ordered ρ] {app : App κ ρ} {e : ElementId} {x : WatcherId} {target : Option BindingId}
  {w w' : World κ ρ} {t : Turn κ ρ} {value : Bool}

namespace Machine

variable {fuel : Nat} {element : Element κ} {before now : PointerState} {clicks : Nat}

/-- A check box edits its value if the number of clicks is odd, and reports it in any case. -/
theorem react_eq_ok {r : Reentry κ ρ} {settings : Checkbox κ} {copy : Mirror ρ}
    (body : element.body = .checkbox settings) (follower : w.follower? e = some x)
    (shown : w.copy? x = some copy) (flag : copy.value = .flag value)
    (run : react r e element before now clicks w = .ok ((), w')) :
    ∃ u, (if clicks % 2 = 1 then w.Edits x (.flag !value) u else u = w) ∧
      report r e u = .ok ((), w') := by
  unfold react at run
  simp only [body] at run
  split at run
  · next hodd =>
      obtain ⟨found, v, hvalue, htoggle⟩ := bind_eq_ok.mp run
      obtain ⟨rfl, rfl⟩ : found = some (.flag value) ∧ v = w := by
        replace hvalue := get_bind_eq_ok.mp hvalue
        rw [show (w.element? e).bind (·.follower) = some x from follower] at hvalue
        obtain ⟨_, u, hmirror, hanswer⟩ := bind_eq_ok.mp hvalue
        obtain ⟨rfl, rfl⟩ := pure_eq_ok.mp hmirror
        obtain ⟨rfl, rfl⟩ := pure_eq_ok.mp hanswer
        exact ⟨by rw [shown, Option.map_some, flag], rfl⟩
      obtain ⟨_, u, hset, hreport⟩ := bind_eq_ok.mp htoggle
      refine ⟨u, ?_, hreport⟩
      rw [if_pos hodd]
      exact setValue_edits follower hset
  · next heven =>
      refine ⟨w, ?_, run⟩
      rw [if_neg heven]

variable {s : Checkbox κ} {u v : World κ ρ}

/-- What a check box reports is its value after some clicks, and the binding has it then, as long as
nobody else sets it. -/
theorem report_toggled (happ : app.Avoids x) (guarded : w.Guarded e x)
    (found : w.element? e = some element) (follower : element.follower = some x)
    (holds : w.Holds x element.binding (.flag value))
    (toggled : if clicks % 2 = 1 then w.Edits x (.flag !value) u else u = w)
    (run : report (.ofFuel app fuel) e u = .ok ((), v)) :
    ∃ news, v.history = w.history ++ (Entry.toggling x element.binding clicks ++ news) ∧
      (Entry.Aside x element.binding news →
        v.Holds x element.binding (.flag (not^[clicks] value))) := by
  rw [not_iterate, Entry.toggling]
  split at toggled
  · next hodd =>
      rw [if_pos hodd, if_pos hodd]
      obtain ⟨copy, hcopy, hvalue, -⟩ := holds.shown
      have hshown : u.copy? x = some { copy with value := .flag !value, edited := true } := by
        rw [toggled.copy, hcopy, Option.map_some, Mirror.edit, hvalue]
        rfl
      have hfound : u.element? e = some element := (toggled.element e).trans found
      have hguarded : u.Guarded e x := by
        refine ⟨?_, fun d hd => guarded.own d ?_⟩
        · rw [toggled.element]
          exact guarded.locked
        · rwa [World.follower?, toggled.element] at hd
      have hcontent (b : BindingId) (hb : element.binding = some b) :
          u.content? b = some (.one (.flag value)) := (toggled.content b).trans (holds.content b hb)
      have hfresh : u.News element.binding { copy with value := .flag !value, edited := true } := by
        refine ⟨fun _ _ => rfl, fun b hb => ⟨_, hcontent b hb, rfl, fun hsame => ?_⟩⟩
        cases value <;> cases hsame
      obtain ⟨news, hnews, hholds⟩ := report_sets happ hguarded hfound follower hshown hfresh run
      -- The flag differs from the one that the binding had.
      have hchange : u.change element.binding (.flag !value) =
          element.binding.toList.map .changed := by
        cases hbinding : element.binding with
        | none => rfl
        | some b =>
            rw [World.change, Option.filter_some, hcontent b hbinding]
            cases value <;> rfl
      refine ⟨news, ?_, hholds⟩
      rw [hnews, toggled.history, hchange]
      simp
  · next heven =>
      subst toggled
      rw [if_neg heven, if_neg heven]
      obtain rfl := report_of_holds found follower holds run
      exact ⟨[], (List.append_nil _).symm, fun _ => holds⟩

end Machine

/-- In a turn that is its own, a check box edits its value and reports it if the number of clicks is
odd. As long as nobody else sets the value, it has been toggled by every click. -/
theorem Turn.Taken.reports (h : t.Taken app e) (happ : app.Avoids x)
    (checkbox : t.before.CheckBox e x target) (holds : t.before.Holds x target (.flag value)) :
    ∃ news, t.after.history = t.before.history ++ (Entry.toggling x target t.clicks ++ news) ∧
      (Entry.Aside x target news → t.after.Holds x target (.flag (not^[t.clicks] value))) := by
  obtain ⟨element, settings, hfound, hbody, hfollower, rfl⟩ := checkbox.element
  obtain ⟨_, handlers, before, now, u, v, hstages⟩ := h.stages
  obtain rfl := Option.some.inj (hfound.symm.trans hstages.found)
  have hreact := hstages.reacted
  -- The check box is locked, and follows the pointer.
  let w := t.before.modifyElement e fun el =>
    { el with body := el.body.withPointer now, locked := true }
  have hlocked : w.element? e =
      some { element with body := element.body.withPointer now, locked := true } := by
    rw [World.element?_modifyElement, if_pos rfl, hfound]
    rfl
  have hguarded : w.Guarded e x := .modifyElement hfound rfl checkbox.own
  have hw : w.Holds x element.binding (.flag value) := holds.leave ⟨rfl, fun _ _ => rfl⟩
  obtain ⟨copy, hcopy, hvalue, -⟩ := hw.shown
  have hown : w.follower? e = some x := by
    rw [World.follower?, hlocked]
    exact hfollower
  obtain ⟨w₁, htoggled, hreport⟩ := react_eq_ok hbody hown hcopy hvalue hreact
  obtain ⟨news, hnews, hholds⟩ :=
    report_toggled happ hguarded hlocked hfollower hw htoggled hreport
  -- It is still locked when the callbacks run, which do not set the value either.
  have hstays : w.Stays e u := react_respects (setValue_respects e) invalidate_respects
    (report_outlasts e) _ _ _ _ hreact
  have hfitted : w.Fitted u := react_respects (setValue_respects e) invalidate_respects
    (report_outlasts e) _ _ _ _ hreact
  obtain ⟨later, hlater, hkeeps⟩ : u.Spares x element.binding v :=
    runHandlers_spares happ (hguarded.outlast hstays hfitted) hstages.ran
  refine ⟨news ++ later, ?_, fun haside => ?_⟩
  · calc t.after.history
      _ = v.history := by rw [hstages.unlocked]; rfl
      _ = w.history ++ (Entry.toggling x element.binding t.clicks ++ news) ++ later := by
        rw [hlater, hnews]
      _ = t.before.history ++ (Entry.toggling x element.binding t.clicks ++ news) ++ later := rfl
      _ = _ := by rw [List.append_assoc, List.append_assoc]
  · obtain ⟨hnewsAside, hlaterAside⟩ := Entry.aside_append.mp haside
    have hv := hkeeps hlaterAside _ (hholds hnewsAside)
    rw [hstages.unlocked]
    exact hv.leave ⟨rfl, fun _ _ => rfl⟩

omit [Ordered ρ] in
/-- Those who watch a binding are told of a toggle in one round, if nobody else changes the
binding. -/
theorem Entry.countP_rounds_toggling {b : BindingId} {clicks : Nat} {news : List Entry}
    (follow : Phase.follow b .idle (toggling x (some b) clicks ++ news) = some .idle)
    (unchanged : .changed b ∉ news) :
    (toggling x (some b) clicks ++ news).countP (isRoundOf b) = clicks % 2 := by
  rw [toggling] at follow ⊢
  split
  · next hodd =>
      rw [if_pos hodd] at follow
      rw [hodd]
      have hchanged : Phase.follow b .idle ([.edited x] ++ .changed b :: news) = some .idle := follow
      exact Phase.countP_rounds_of_changed hchanged (by simp) unchanged
  · next heven =>
      rw [if_neg heven] at follow
      rw [Phase.countP_rounds_of_unchanged follow unchanged]
      omega

/-- In a turn that is its own, a check box is toggled by every click. If it follows a binding, those
who watch it are told once if the number of clicks is odd, and not at all otherwise. -/
theorem Turn.Taken.toggles (h : t.Taken app e) (happ : app.Avoids x) (alone : t.Alone e x target)
    (holds : t.before.Holds x target (.flag value)) :
    t.after.Holds x target (.flag (not^[t.clicks] value)) ∧
      ∀ b, target = some b → ∃ news, t.after.history = t.before.history ++ news ∧
        news.countP (Entry.isRoundOf b) = t.clicks % 2 := by
  obtain ⟨news, hhistory, hholds⟩ := h.reports happ alone.checkbox holds
  have haside := alone.others news hhistory
  refine ⟨hholds haside, ?_⟩
  rintro b rfl
  have hfollow := h.concludes.follow alone.quiescent hhistory b
  exact ⟨_, hhistory, Entry.countP_rounds_toggling hfollow (haside.unchanged b rfl)⟩

/-! ## Any number of turns -/

omit [Ordered ρ] in
theorem EventContext.phases_append (front back : List Event) (id : String) :
    ({ events := front ++ back } : EventContext).phases id =
      ({ events := front } : EventContext).phases id ++
        ({ events := back } : EventContext).phases id := by
  simp [phases, addressedTo]

/-- With its callback set, a widget calls once for every click. -/
theorem Turn.Taken.count_clicked {before : PointerState} (h : t.Taken app e)
    (found : t.before.pointer? e = some before) (attends : t.Attends e .clicked) :
    t.calls.count .clicked = t.clicks := by
  obtain ⟨-, -, handlers, hhandlers, hcalls⟩ := h.outcome found
  have hset : (handlers.code? .clicked).isSome = true := attends handlers hhandlers
  rw [hcalls, List.count_filter (by simpa using hset)]
  exact (PointerState.count_calls _ _ _).2.2

namespace Turns

variable {turns : List (Turn κ ρ)} {state : PointerState}

theorem taken (h : Turns app e turns state) : ∀ t ∈ turns, t.Taken app e := by
  induction h with
  | start => exact List.forall_mem_nil _
  | next earlier found taken left ih =>
      rw [List.forall_mem_append]
      exact ⟨ih, List.forall_mem_singleton.mpr taken⟩

/-- The clicks after any number of turns are those of all phases heard. -/
theorem sum_clicks (h : Turns app e turns state) :
    (turns.map (·.clicks)).sum = PointerPhase.completed (turns.flatMap (·.heard e)) := by
  rw [← (PointerState.apply_fresh _).2, h.apply_eq]

theorem count_clicked (h : Turns app e turns state)
    (attends : ∀ t ∈ turns, t.Attends e .clicked) :
    (turns.flatMap (·.calls)).count .clicked = (turns.map (·.clicks)).sum := by
  induction h with
  | start => rfl
  | next earlier found taken left ih =>
      rw [List.forall_mem_append, List.forall_mem_singleton] at attends
      rw [List.flatMap_append, List.count_append, List.flatMap_singleton, List.map_append,
        List.sum_append, List.map_singleton, List.sum_singleton, ih attends.1,
        taken.count_clicked found attends.2]

/-- As long as a widget keeps its id, it hears the phases of one stream of events. -/
theorem heard_eq (h : Turns app e turns state) {id : String}
    (named : ∀ t ∈ turns, ∀ element, t.before.element? e = some element → element.id = id) :
    turns.flatMap (·.heard e) =
      ({ events := turns.flatMap (·.ctx.events) } : EventContext).phases id := by
  induction h with
  | start => rfl
  | @next turns t _ _ earlier found taken left ih =>
      rw [List.forall_mem_append, List.forall_mem_singleton] at named
      obtain ⟨element, _, helement, -⟩ := World.exists_of_pointer? found
      rw [List.flatMap_append, List.flatMap_append, EventContext.phases_append, ih named.1,
        List.flatMap_singleton, List.flatMap_singleton, Turn.heard, helement, ← named.2 _ helement]
      rfl

/-- A check box from turn to turn. Nobody else sets its value or the binding in a turn or between two,
and before the first one it has a value. -/
structure Undisturbed (e : ElementId) (x : WatcherId) (target : Option BindingId) (value : Bool)
    (turns : List (Turn κ ρ)) : Prop where
  alone : ∀ t ∈ turns, t.Alone e x target
  first : ∀ t ∈ turns.head?, t.before.Holds x target (.flag value)
  between : turns.IsChain fun t t' => t.after.Leaves x target t'.before

/-- After any number of turns a check box has been toggled by every click. The induction is on the
turns. -/
theorem Undisturbed.toggles (happ : app.Avoids x) (taken : ∀ t ∈ turns, t.Taken app e)
    (h : Undisturbed e x target value turns) {front back : List (Turn κ ρ)}
    (split : turns = front ++ t :: back) :
    t.after.Holds x target (.flag (not^[((front ++ [t]).map (·.clicks)).sum] value)) ∧
      ∀ b, target = some b → ∃ news, t.after.history = t.before.history ++ news ∧
        news.countP (Entry.isRoundOf b) = t.clicks % 2 := by
  induction front generalizing turns value with
  | nil =>
      subst split
      rw [List.nil_append, List.map_singleton, List.sum_singleton]
      exact (taken t List.mem_cons_self).toggles happ (h.alone t List.mem_cons_self) (h.first t rfl)
  | cons t' front ih =>
      subst split
      have hfirst := ((taken t' List.mem_cons_self).toggles happ (h.alone t' List.mem_cons_self)
        (h.first t' rfl)).1
      have hrest : Undisturbed e x target (not^[t'.clicks] value) (front ++ t :: back) := by
        refine ⟨fun d hd => h.alone d (List.mem_cons_of_mem _ hd), fun d hd => ?_, ?_⟩
        · exact hfirst.leave ((List.isChain_cons.mp h.between).1 d hd)
        · exact (List.isChain_cons.mp h.between).2
      have hall := ih (fun d hd => taken d (List.mem_cons_of_mem _ hd)) hrest rfl
      rw [List.cons_append, List.map_cons, List.sum_cons, Nat.add_comm, Function.iterate_add_apply]
      exact hall

/-- However the events are cut into frames, the clicks and the calls for them are the releases of the
pointer while it was held down. A check box that nobody else sets is toggled by each of them; those who
watch its binding are told once in every frame with an odd number of clicks, and in no other. -/
theorem clicks_completed (h : Turns app e turns state) :
    (turns.map (·.clicks)).sum = PointerPhase.completed (turns.flatMap (·.heard e)) ∧
    ((∀ t ∈ turns, t.Attends e .clicked) →
      (turns.flatMap (·.calls)).count .clicked =
        PointerPhase.completed (turns.flatMap (·.heard e))) ∧
    (∀ id, (∀ t ∈ turns, ∀ element, t.before.element? e = some element → element.id = id) →
      turns.flatMap (·.heard e) =
        ({ events := turns.flatMap (·.ctx.events) } : EventContext).phases id) ∧
    ∀ x target value, app.Avoids x → Undisturbed e x target value turns →
      ∀ front t back, turns = front ++ t :: back →
        let clicks := PointerPhase.completed ((front ++ [t]).flatMap (·.heard e))
        t.after.Holds x target (.flag (not^[clicks] value)) ∧
        ∀ b, target = some b → ∃ news, t.after.history = t.before.history ++ news ∧
          news.countP (Entry.isRoundOf b) = t.clicks % 2 := by
  refine ⟨h.sum_clicks, fun attends => ?_, fun id named => h.heard_eq named, ?_⟩
  · rw [h.count_clicked attends, h.sum_clicks]
  · intro x target value happ undisturbed front t back split
    have htoggles := undisturbed.toggles happ h.taken split
    rw [split, List.append_cons] at h
    obtain ⟨_, hfront⟩ := h.front
    rw [hfront.sum_clicks] at htoggles
    exact htoggles

end Turns

/-! ## A check box that is clicked across frames -/

/-- A check box that follows a binding, with what has happened, the latest first. -/
def World.ticking (pointer : PointerState) (flag : Bool) (trail : List Entry) :
    World Unit Empty where
  bindings := #[{ name := "on", content := .one (.flag flag), watchers := [⟨0⟩] }]
  watchers := #[{ watcher := .mirror { value := .flag flag }, owner := some ⟨0⟩ }]
  elements := #[{
    id := "tick", window := none, follower := some ⟨0⟩, binding := some ⟨0⟩
    body := .checkbox { label := "On", handlers := { clicked := some () }, pointer } }]
  pinned := [⟨0⟩]
  trail := trail

/-- What is recorded when the check box is toggled, the latest first. -/
def Entry.ticked : List Entry :=
  [.settled ⟨0⟩, .returned ⟨0⟩ ⟨0⟩, .called ⟨0⟩ ⟨0⟩, .round ⟨0⟩ [⟨0⟩], .changed ⟨0⟩, .edited ⟨0⟩]

/-- A turn in which the check box hears of some phases. -/
def Turn.ticking (before after : World Unit Empty) (phases : List PointerPhase) (clicks : Nat) :
    Turn Unit Empty where
  fuel := 2
  ctx := { events := phases.map fun phase => ⟨"tick", .pointer phase⟩ }
  before := before
  after := after
  clicks := clicks
  calls := .replicate clicks .clicked

theorem World.ticking_checkBox (pointer : PointerState) (flag : Bool) (trail : List Entry) :
    (ticking pointer flag trail).CheckBox ⟨0⟩ ⟨0⟩ (some ⟨0⟩) where
  element := ⟨_, _, rfl, rfl, rfl, rfl⟩
  own := by
    rintro ⟨i⟩ h
    cases i with
    | zero => rfl
    | succ i => cases h

theorem World.ticking_quiescent (pointer : PointerState) (flag : Bool) (trail : List Entry) :
    (ticking pointer flag trail).Quiescent := by
  rintro ⟨i⟩ binding hb
  cases i with
  | zero =>
      cases hb
      exact ⟨rfl, rfl, List.nodup_cons.mpr ⟨List.not_mem_nil, List.nodup_nil⟩⟩
  | succ i => cases hb

/-- A click that is cut by a frame toggles the check box, and two clicks in a frame do not. -/
theorem Turns.clicks_completed_ticking :
    let ticks : List (Turn Unit Empty) := [
      .ticking (.ticking {} false []) (.ticking ⟨true, true⟩ false []) [.press] 0,
      .ticking (.ticking ⟨true, true⟩ false []) (.ticking ⟨true, false⟩ true Entry.ticked)
        [.release] 1,
      .ticking (.ticking ⟨true, false⟩ true Entry.ticked) (.ticking ⟨true, false⟩ true Entry.ticked)
        [.press, .release, .press, .release] 2]
    Turns App.idle ⟨0⟩ ticks ⟨true, false⟩ ∧ (∀ t ∈ ticks, t.Attends ⟨0⟩ .clicked) ∧
      App.Avoids (κ := Unit) (ρ := Empty) App.idle ⟨0⟩ ∧
      Undisturbed ⟨0⟩ ⟨0⟩ (some ⟨0⟩) false ticks ∧ (ticks.flatMap (·.calls)).count .clicked = 3 ∧
      (World.ticking ⟨true, false⟩ true Entry.ticked).Holds ⟨0⟩ (some ⟨0⟩) (.flag true) := by
  intro ticks
  have hfirst : Turns App.idle ⟨0⟩ ([] ++ [ticks[0]]) ⟨true, true⟩ :=
    Turns.start.next rfl (.of_handled rfl rfl rfl rfl rfl) rfl
  have hsecond : Turns App.idle ⟨0⟩ ([ticks[0]] ++ [ticks[1]]) ⟨true, false⟩ :=
    hfirst.next rfl (.of_handled rfl rfl (by with_unfolding_all rfl) rfl rfl) rfl
  have hticks : Turns App.idle ⟨0⟩ ticks ⟨true, false⟩ :=
    hsecond.next rfl (.of_handled rfl rfl rfl rfl rfl) rfl
  have hattends : ∀ t ∈ ticks, t.Attends ⟨0⟩ .clicked := by
    simp only [ticks, List.forall_mem_cons]
    refine ⟨?_, ?_, ?_, List.forall_mem_nil _⟩
    all_goals
      rintro _ ⟨⟩
      rfl
  have havoids : App.Avoids (κ := Unit) (ρ := Empty) App.idle ⟨0⟩ := by
    constructor <;> intros <;> trivial
  have hundisturbed : Undisturbed ⟨0⟩ ⟨0⟩ (some ⟨0⟩) false ticks := by
    refine ⟨?_, ?_, ?_⟩
    · simp only [ticks, List.forall_mem_cons]
      refine ⟨?_, ?_, ?_, List.forall_mem_nil _⟩
      all_goals refine ⟨World.ticking_checkBox _ _ _, World.ticking_quiescent _ _ _, ?_⟩
      · intro news hnews
        obtain rfl : [] = news := hnews
        exact ⟨by simp, by simp, by simp⟩
      · intro news hnews
        have hround : ([.edited ⟨0⟩, .changed ⟨0⟩, .round ⟨0⟩ [⟨0⟩], .called ⟨0⟩ ⟨0⟩,
            .returned ⟨0⟩ ⟨0⟩, .settled ⟨0⟩] : List Entry) = .edited ⟨0⟩ :: .changed ⟨0⟩ :: news :=
          hnews
        obtain rfl := (List.cons.inj (List.cons.inj hround).2).2
        exact ⟨by simp, by simp, by simp⟩
      · intro news hnews
        obtain rfl : news = [] := List.self_eq_append_right.mp hnews
        exact ⟨by simp, by simp, by simp⟩
    · rintro _ ⟨⟩
      exact ⟨⟨_, rfl, rfl, fun _ _ => rfl⟩, fun b hb => by cases hb; rfl⟩
    · exact .cons_cons ⟨rfl, fun _ _ => rfl⟩ (.cons_cons ⟨rfl, fun _ _ => rfl⟩ (.singleton _))
  have hheard : ticks.flatMap (·.heard ⟨0⟩) =
      [.press, .release, .press, .release, .press, .release] := by
    decide +kernel
  obtain ⟨-, hcalls, -, htoggles⟩ := clicks_completed hticks
  have hlast := htoggles ⟨0⟩ (some ⟨0⟩) false havoids hundisturbed [ticks[0], ticks[1]] ticks[2] []
    rfl
  rw [show [ticks[0], ticks[1]] ++ [ticks[2]] = ticks from rfl, hheard] at hlast
  rw [hheard] at hcalls
  exact ⟨hticks, hattends, havoids, hundisturbed, hcalls hattends, hlast.1⟩

end Trellis
