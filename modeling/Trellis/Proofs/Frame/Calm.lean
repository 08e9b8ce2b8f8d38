import Trellis.Proofs.Frame.Offers
import Trellis.Proofs.Host.Undisturbed

/-!
# Steps without updates of an element

Most acts of a frame neither ask for an update of a given element nor make one, and leave those that
wait in the window where they are.

* `updatesOf` — the updates of an element among some tasks.
* `World.Idle` — the same updates wait; `Calm` — a part that keeps them, with what it answers.
* `Act.perform_calm` — the acts that are of this sort.
-/

namespace Trellis

open Machine

variable {κ ρ α β : Type} {e : ElementId} {x : WindowId} {w w' : World κ ρ}

/-- Whether a task is an update of the element. -/
def Task.updates (e : ElementId) : Task κ → Bool
  | .edit element _ _ _ => element = e
  | .run _ => false

/-- The updates of an element among some tasks, in order. -/
def updatesOf (e : ElementId) (tasks : List (Task κ)) : List (Task κ) :=
  tasks.filter (·.updates e)

@[simp]
theorem updatesOf_nil : updatesOf e ([] : List (Task κ)) = [] := rfl

@[simp]
theorem updatesOf_append (tasks later : List (Task κ)) :
    updatesOf e (tasks ++ later) = updatesOf e tasks ++ updatesOf e later :=
  List.filter_append ..

theorem updatesOf_cons (task : Task κ) (tasks : List (Task κ)) :
    updatesOf e (task :: tasks) = updatesOf e [task] ++ updatesOf e tasks :=
  updatesOf_append [task] tasks

theorem updatesOf_singleton {task : Task κ} (h : task.updates e = false) :
    updatesOf e [task] = [] := by
  rw [updatesOf, List.filter_singleton, h]
  rfl

/-! ## Steps without updates of the element -/

/-- The window has the same updates of the element waiting. -/
structure World.Idle (e : ElementId) (x : WindowId) (w w' : World κ ρ) : Prop where
  queues : w.Queues x → w'.Queues x
  waiting : updatesOf e (w'.waiting x) = updatesOf e (w.waiting x)

namespace World.Idle

instance : IsPreorder (World κ ρ) (Idle e x) where
  refl _ := ⟨id, rfl⟩
  trans _ _ _ h h' := ⟨h'.queues ∘ h.queues, h'.waiting.trans h.waiting⟩

theorem modifyWindow (w : World κ ρ) (y : WindowId) {f : Window κ → Window κ}
    (queues : ∀ window, (f window).queues = window.queues)
    (tasks : ∀ window, updatesOf e (f window).tasks = updatesOf e window.tasks) :
    Idle e x w (w.modifyWindow y f) where
  queues h := by
    rw [Queues, window?_modifyWindow]
    split
    · rw [Option.map_map, ← h]
      exact congrArg (Option.map · _) (funext queues)
    · exact h
  waiting := by
    rw [World.waiting, World.waiting, window?_modifyWindow]
    split
    · cases w.window? x with
      | none => rfl
      | some window => exact tasks window
    · rfl

instance : Tolerant (Idle (κ := κ) (ρ := ρ) e x) where
  bindings _ _ := ⟨id, rfl⟩
  watchers _ _ := ⟨id, rfl⟩
  awaiting _ _ := ⟨id, rfl⟩
  scope _ _ := ⟨id, rfl⟩
  madeUp _ _ := ⟨id, rfl⟩
  trail _ _ := ⟨id, rfl⟩
  refitted _ _ _ _ := ⟨id, rfl⟩
  event _ _ := ⟨id, rfl⟩
  asked w y := .modifyWindow w y (fun _ => rfl) fun _ => rfl

end World.Idle

/-- A part leaves the updates of the element that wait, and what it answers is of a kind. -/
abbrev Calm (e : ElementId) (x : WindowId) (P : α → Prop) (m : Machine κ ρ α) : Prop :=
  Answers (World.Idle e x) P m

/-- What is left to do runs no update of the element at first hand. -/
def Spares (e : ElementId) (acts : List (Act κ ρ)) : Prop :=
  ∀ act ∈ acts, updatesOf e act.makes = []

namespace Spares

variable {act : Act κ ρ} {acts later : List (Act κ ρ)}

theorem nil : Spares e ([] : List (Act κ ρ)) := List.forall_mem_nil _

theorem cons (h : updatesOf e act.makes = []) (h' : Spares e acts) : Spares e (act :: acts) :=
  List.forall_mem_cons.mpr ⟨h, h'⟩

theorem append (h : Spares e acts) (h' : Spares e later) : Spares e (acts ++ later) :=
  List.forall_mem_append.mpr ⟨h, h'⟩

theorem tail (h : Spares e acts) : Spares e acts.tail :=
  fun act hact => h act (List.mem_of_mem_tail hact)

theorem updatesOf_makes (h : Spares e acts) : updatesOf e (acts.flatMap Act.makes) = [] := by
  rw [updatesOf, List.filter_flatMap, List.flatMap_eq_nil_iff]
  exact h

theorem updatesOf_makes_cons (h : Spares e acts) :
    updatesOf e ((act :: acts).flatMap Act.makes) = updatesOf e act.makes := by
  rw [List.flatMap_cons, updatesOf_append, h.updatesOf_makes, List.append_nil]

/-- What is left to do comes down to callbacks. -/
theorem run (program : Program κ ρ Unit) : Spares e [Act.run program] := cons rfl nil

end Spares

/-- Tasks that are no updates of the element. -/
def Others (e : ElementId) (tasks : List (Task κ)) : Prop := updatesOf e tasks = []

namespace Machine

theorem enqueue_calm (y : WindowId) {task : Task κ} (h : task.updates e = false) :
    Calm e x (Others e) (enqueue y task : Machine κ ρ (List (Task κ))) := by
  refine .get_bind fun w => ?_
  split
  · exact .pure rfl
  · split
    · refine .bind (.modify fun w => ?_) fun _ => ?_
      · refine .modifyWindow w y (fun _ => rfl) fun window => ?_
        rw [updatesOf_append, updatesOf_singleton h, List.append_nil]
      · split
        · exact .bind (invalidate_respects _) fun _ => .pure rfl
        · exact .pure rfl
    · exact .pure (updatesOf_singleton h)

theorem handIn_calm {h : Handle} (other : h.element ≠ e) (call : Call κ BindingId) (reply : κ) :
    Calm e x (Others e) (handIn h call reply : Machine κ ρ (List (Task κ))) := by
  have hother : (Task.edit h.element h.kind call reply : Task κ).updates e = false :=
    decide_eq_false other
  refine .get_bind fun w => ?_
  split
  · exact .pure rfl
  · split
    · split
      · exact enqueue_calm _ hother
      · exact .pure rfl
    · exact .pure (updatesOf_singleton hother)

end Machine

variable [Ordered ρ] {app : App κ ρ} {ctx : EventContext}

omit [Ordered ρ] in
theorem Spares.tasks {tasks : List (Task κ)} (h : Others e tasks) (next : Program κ ρ Unit) :
    Spares e ((tasks.map Duty.task ++ [Duty.run next]).map Act.duty) := by
  rw [List.map_append, List.map_map]
  refine append (List.forall_mem_map.mpr fun task htask => ?_) (run next)
  exact updatesOf_singleton (Bool.eq_false_iff.mpr (List.filter_eq_nil_iff.mp h task htask))

namespace Machine

theorem assign_calm (b : BindingId) (content : Content ρ) :
    Calm e x (fun answer => Spares e (answer.2.map Act.duty))
      (assign b content : Machine κ ρ (Bool × List (Duty κ ρ))) := by
  refine .bind (store_respects b content) fun changed => ?_
  split
  · refine .bind (announce_respects b) fun begins => ?_
    split
    · exact .pure (.cons rfl .nil)
    · exact .pure .nil
  · exact .pure .nil

theorem assignEdit_calm (y : WatcherId) (b : BindingId) :
    Calm e x (fun answer => Spares e (answer.2.map Act.duty))
      (assignEdit y b : Machine κ ρ (Bool × List (Duty κ ρ))) := by
  refine .bind (takeEdit_respects y) fun taken => ?_
  split
  · exact assign_calm b _
  · exact .pure .nil

end Machine

/-- A callback whose next step asks for no update of the element. -/
theorem Program.advance_calm {program : Program κ ρ Unit}
    (h : updatesOf e (Act.run program).asks = []) :
    Calm e x (fun left => Spares e (left.map .duty)) program.advance := by
  have hrounds (rounds : List (Duty κ ρ)) (next : Program κ ρ Unit)
      (h : Spares e (rounds.map .duty)) : Spares e ((rounds ++ [Duty.run next]).map .duty) := by
    rw [List.map_append]
    exact h.append (Spares.run next)
  cases program with
  | done answer => exact .pure .nil
  | note line next => exact .bind (note_respects line) fun _ => .pure (.run next)
  | watch y b next => exact .bind (watch_respects y b) fun _ => .pure (.run next)
  | unwatch y b next => exact .bind (unwatch_respects y b) fun _ => .pure (.run next)
  | drop y next => exact .bind (drop_respects y) fun _ => .pure (.run next)
  | keeps y next => exact .get_bind fun _ => .pure (.run _)
  | attach y b next => exact .bind (attach_respects y b) fun _ => .pure (.run next)
  | edit y value next => exact .bind (editMirror_respects y value) fun _ => .pure (.run next)
  | invalidate window next => exact .bind (invalidate_respects _) fun _ => .pure (.run next)
  | send event next => exact .bind (send_respects event) fun _ => .pure (.run next)
  | read b next => exact .get_bind fun _ => .pure (.run _)
  | title window next => exact .get_bind fun _ => .pure (.run _)
  | find id next => exact .get_bind fun _ => .pure (.run _)
  | handle element kind next =>
      exact .bind (handle?_respects element kind) fun _ => .pure (.run _)
  | tryLock handle next => exact .bind (canLock_respects handle) fun _ => .pure (.run _)
  | set b content next =>
      exact .andThen (assign_calm b content) fun answer h => .pure (hrounds answer.2 _ h)
  | writeBack y b next =>
      exact .andThen (assignEdit_calm y b) fun answer h => .pure (hrounds answer.2 _ h)
  | defer window code next =>
      exact .andThen (enqueue_calm window rfl) fun tasks h => .pure (.tasks h next)
  | update handle call reply next =>
      have hother : handle.element ≠ e := by
        intro heq
        have hsome := List.filter_eq_nil_iff.mp h _ List.mem_cons_self
        exact hsome (decide_eq_true heq)
      exact .andThen (handIn_calm hother call reply) fun tasks h => .pure (.tasks h next)

theorem Duty.discharge_calm {duty : Duty κ ρ} (h : updatesOf e (Act.duty duty).asks = []) :
    Calm e x (fun left => Spares e (left.map .duty)) (duty.discharge app) := by
  cases duty with
  | run program => exact Program.advance_calm h
  | rounds b watchers =>
      cases watchers with
      | nil =>
          refine .get_bind fun w => ?_
          split
          · exact .bind (beginRound_respects b) fun _ => .pure (.cons rfl .nil)
          · exact .bind (settle_respects b) fun _ => .pure .nil
      | cons y rest =>
          exact .bind (call_respects app y b) fun _ => .pure (.cons rfl (.cons rfl .nil))
  | release y b rest => exact .bind (release_respects y b) fun _ => .pure (.cons rfl .nil)
  | task task =>
      cases task with
      | run code => exact .pure (.run _)
      | edit e' kind call reply =>
          exact .bind (lock_respects e') fun _ => .bind (edit_respects app e' kind call reply)
            fun program => .pure (.cons rfl (.cons rfl .nil))
  | unlock e' => exact .bind (refit_respects e' fun _ => ⟨rfl, rfl, rfl, rfl⟩) fun _ => .pure .nil

namespace Machine

omit [Ordered ρ] in
/-- Elements leave no updates to do at first hand. -/
theorem offered_spares : Act.Offered app ctx fun act : Act κ ρ => updatesOf e act.makes = [] where
  visit _ _ := rfl
  enter _ _ _ _ := rfl
  report _ := rfl
  handler _ _ := rfl
  itemHandler _ _ _ := rfl

theorem reportActs_calm (e' : ElementId) :
    Calm e x (fun left => Spares e (left.map .duty))
      (reportActs e' : Machine κ ρ (List (Duty κ ρ))) := by
  refine .get_bind fun w => ?_
  split
  · exact .pure .nil
  · split
    · exact .andThen (assignEdit_calm _ _) fun _ h => .pure h
    · exact .pure .nil

end Machine

/-- An act that neither asks for an update of the element nor takes a task from the window. -/
theorem Act.perform_calm {act : Act κ ρ} (asks : updatesOf e act.asks = [])
    (rests : ∀ limit, act ≠ .work limit) : Calm e x (Spares e) (act.perform app ctx x) := by
  cases act with
  | duty d => exact .andThen (Duty.discharge_calm asks) fun _ h => .pure h
  | tree e' => exact .get_bind fun _ => .pure (.cons rfl .nil)
  | visit depth e' =>
      cases depth with
      | zero => exact .stop _
      | succ depth =>
          have hleft : Calm e x (Spares e) (elementActs app ctx depth e') :=
            elementActs_answers offered_spares depth e'
          exact .bind (lock_respects e') fun _ => .andThen hleft fun acts h =>
            .pure (h.append (.cons rfl .nil))
  | enter e' id input edited => exact .get_bind fun _ => .pure (.run _)
  | report e' => exact .andThen (reportActs_calm e') fun _ h => .pure h
  | work limit => exact absurd rfl (rests limit)

end Trellis
