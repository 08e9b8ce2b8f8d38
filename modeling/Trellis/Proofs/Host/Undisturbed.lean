import Trellis.Proofs.Host.Calls

/-!
# What callbacks leave of a host

No callback can set a view, close the host or take a deferred task. It may defer more of them.

* `World.waiting` — the tasks that wait in a window.
* `World.Undisturbed` — the host is as it was, and no task was lost.
* `Machine.defer_run` — to defer a task appends it to those that wait.
-/

namespace Trellis

variable {κ ρ : Type} {x : WindowId}

namespace World

/-- The tasks that wait in a window, in order. -/
def waiting (w : World κ ρ) (x : WindowId) : List (Task κ) :=
  ((w.window? x).map (·.tasks)).getD []

/-- Whether deferred tasks wait in a window. -/
def Queues (w : World κ ρ) (x : WindowId) : Prop := (w.window? x).map (·.queues) = some true

/-- The host is as it was, and the tasks that waited in a window still wait there, before any other
ones. -/
structure Undisturbed (x : WindowId) (w w' : World κ ρ) : Prop where
  host : w'.session.map (·.host) = w.session.map (·.host)
  waiting : w.waiting x <+: w'.waiting x
  queues : w.Queues x → w'.Queues x

theorem waiting_of_window? {w : World κ ρ} {window : Window κ} (h : w.window? x = some window) :
    w.waiting x = window.tasks := by
  rw [waiting, h]
  rfl

/-- A change of a window that loses no task. -/
theorem Undisturbed.modifyWindow (w : World κ ρ) (y : WindowId) {f : Window κ → Window κ}
    (tasks : ∀ window, window.tasks <+: (f window).tasks)
    (queues : ∀ window, (f window).queues = window.queues) :
    Undisturbed x w (w.modifyWindow y f) where
  host := rfl
  waiting := by
    rw [World.waiting, World.waiting, window?_modifyWindow]
    split
    · cases w.window? x with
      | none => exact List.prefix_rfl
      | some window => exact tasks window
    · exact List.prefix_rfl
  queues h := by
    rw [Queues, window?_modifyWindow]
    split
    · rw [Option.map_map, ← h]
      exact congrArg (Option.map · _) (funext queues)
    · exact h

instance : IsPreorder (World κ ρ) (Undisturbed x) where
  refl _ := ⟨rfl, List.prefix_rfl, id⟩
  trans _ _ _ h h' :=
    ⟨h'.host.trans h.host, h.waiting.trans h'.waiting, h'.queues ∘ h.queues⟩

instance : Permissive (Undisturbed (κ := κ) (ρ := ρ) x) where
  bindings _ _ := ⟨rfl, List.prefix_rfl, id⟩
  watchers _ _ := ⟨rfl, List.prefix_rfl, id⟩
  elements _ _ := ⟨rfl, List.prefix_rfl, id⟩
  awaiting _ _ := ⟨rfl, List.prefix_rfl, id⟩
  scope _ _ := ⟨rfl, List.prefix_rfl, id⟩
  madeUp _ _ := ⟨rfl, List.prefix_rfl, id⟩
  trail _ _ := ⟨rfl, List.prefix_rfl, id⟩
  event w event := ⟨by cases h : w.session <;> rfl, List.prefix_rfl, id⟩
  asked w y := .modifyWindow w y (fun _ => List.prefix_rfl) fun _ => rfl
  handed w y task := .modifyWindow w y (fun _ => List.prefix_append _ _) fun _ => rfl

end World

namespace Machine

theorem waiting_eq_ok {w w' : World κ ρ} {tasks : List (Task κ)} :
    waiting x w = .ok (tasks, w') ↔ w.waiting x = tasks ∧ w = w' := by
  show Except.ok (w.waiting x, w) = Except.ok (tasks, w') ↔ _
  simp

/-- To be asked for a frame changes no tasks. -/
theorem invalidate_waiting {window : Option WindowId} {w w' : World κ ρ} {u : Unit}
    (run : invalidate window w = .ok (u, w')) : w'.waiting x = w.waiting x := by
  cases window with
  | none =>
      obtain ⟨-, rfl⟩ := pure_eq_ok.mp run
      rfl
  | some y =>
      rw [← modify_eq_ok.mp run, World.waiting, World.window?_modifyWindow]
      split
      · rw [Option.map_map]
        rfl
      · rfl

/-- The task that is taken is the first of those that wait. -/
theorem nextTask_outcome {w w' : World κ ρ} {next : Option (Task κ)}
    (run : nextTask x w = .ok (next, w')) :
    (next = none ∧ w.waiting x = [] ∧ w' = w) ∨
      ∃ task, next = some task ∧ w.waiting x = task :: w'.waiting x ∧
        (w.Queues x → w'.Queues x) := by
  obtain ⟨tasks, v, looking, run⟩ := bind_eq_ok.mp run
  obtain ⟨hwaiting, rfl⟩ := waiting_eq_ok.mp looking
  cases tasks with
  | nil =>
      obtain ⟨rfl, rfl⟩ := pure_eq_ok.mp run
      exact .inl ⟨rfl, hwaiting, rfl⟩
  | cons task rest =>
      obtain ⟨u, v', taking, run⟩ := bind_eq_ok.mp run
      obtain ⟨rfl, rfl⟩ := pure_eq_ok.mp run
      refine .inr ⟨task, rfl, ?_⟩
      rw [← modify_eq_ok.mp taking]
      obtain ⟨window, hwindow⟩ : ∃ window, w.window? x = some window := by
        cases hwindow : w.window? x with
        | some window => exact ⟨window, rfl⟩
        | none =>
            rw [World.waiting, hwindow] at hwaiting
            cases hwaiting
      refine ⟨?_, fun queues => ?_⟩
      · rw [hwaiting, World.waiting, World.window?_modifyWindow_self, hwindow]
        rfl
      · rw [World.Queues, World.window?_modifyWindow_self, Option.map_map]
        exact queues

/-- A window where tasks wait takes a task in behind them, and leaves nothing to be run at once. -/
theorem enqueue_run {w : World κ ρ} (h : w.Queues x) (task : Task κ) :
    ∃ w', enqueue x task w = .ok ([], w') ∧ w'.waiting x = w.waiting x ++ [task] := by
  obtain ⟨window, hwindow, hqueues⟩ := Option.map_eq_some_iff.mp h
  let queued := w.modifyWindow x fun window => { window with tasks := window.tasks ++ [task] }
  have hqueued : queued.waiting x = w.waiting x ++ [task] := by
    rw [World.waiting, World.window?_modifyWindow_self, World.waiting_of_window? hwindow, hwindow]
    rfl
  obtain ⟨asked, hask⟩ : ∃ w', (invalidate (some x) : Machine κ ρ Unit) queued = .ok ((), w') :=
    ⟨_, rfl⟩
  cases hasks : window.asksOnDefer with
  | false =>
      refine ⟨queued, bind_eq_ok.mpr ⟨w, w, rfl, ?_⟩, hqueued⟩
      rw [hwindow]
      dsimp only
      rw [if_pos hqueues, hasks]
      rfl
  | true =>
      refine ⟨asked, bind_eq_ok.mpr ⟨w, w, rfl, ?_⟩, (invalidate_waiting hask).trans hqueued⟩
      rw [hwindow]
      dsimp only
      rw [if_pos hqueues, hasks]
      exact bind_eq_ok.mpr ⟨(), queued, rfl, bind_eq_ok.mpr ⟨(), asked, hask, rfl⟩⟩

/-- Where tasks wait, to defer one appends it to them. -/
theorem defer_run (r : Reentry κ ρ) {w : World κ ρ} (h : w.Queues x) (task : Task κ) :
    ∃ w', defer r x task w = .ok ((), w') ∧ w'.waiting x = w.waiting x ++ [task] := by
  obtain ⟨w', hrun, hw'⟩ := enqueue_run h task
  exact ⟨w', bind_eq_ok.mpr ⟨[], w', hrun, rfl⟩, hw'⟩

end Machine

end Trellis
