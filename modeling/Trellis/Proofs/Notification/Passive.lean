import Trellis.Proofs.Mirror.Accord
import Trellis.Proofs.Notification.Setting

/-!
# Callbacks that do not call back

A callback of a binding that only looks on may still note what it likes in bindings that nobody
watches, and put work off. It comes to its end, the binding is as it was, and nobody is called on its
account.

* `Program.Passive` — such callbacks.
* `World.LeftAlone` — what they keep; `Machine.Leaves` — parts that end and keep it.
* `Program.Passive.leaves` — the callbacks are such parts.
-/

namespace Trellis

open Machine

variable {κ ρ : Type} {start w w' : World κ ρ} {b c : BindingId}

/-- What a callback of a binding may do that only looks on: it sets none but bindings that nobody
watches, lets go of nobody, and hands out work only to windows that keep it, or that only looks on.
What it starts in turn takes fuel. -/
inductive Program.Passive (app : App κ ρ) (w : World κ ρ) (b : BindingId) :
    Nat → Program κ ρ Unit → Prop
  | done {fuel : Nat} {answer : Unit} : Passive app w b fuel (.done answer)
  | note {fuel : Nat} {line : String} {next : Program κ ρ Unit} (h : Passive app w b fuel next) :
      Passive app w b fuel (.note line next)
  | read {fuel : Nat} {c : BindingId} {next : Option (String × Content ρ) → Program κ ρ Unit}
      (h : ∀ a, Passive app w b fuel (next a)) : Passive app w b fuel (.read c next)
  /-- A binding that nobody watches is set. -/
  | jot {fuel : Nat} {c : BindingId} {content : Content ρ} {next : Bool → Program κ ρ Unit}
      (other : c ≠ b) (unheard : w.Unheard c) (h : ∀ a, Passive app w b (fuel + 1) (next a)) :
      Passive app w b (fuel + 1) (.set c content next)
  | keeps {fuel : Nat} {x : WatcherId} {next : Bool → Program κ ρ Unit}
      (h : ∀ a, Passive app w b fuel (next a)) : Passive app w b fuel (.keeps x next)
  | edit {fuel : Nat} {x : WatcherId} {value : Scalar ρ} {next : Program κ ρ Unit}
      (h : Passive app w b fuel next) : Passive app w b fuel (.edit x value next)
  | invalidate {fuel : Nat} {window : WindowId} {next : Program κ ρ Unit}
      (h : Passive app w b fuel next) : Passive app w b fuel (.invalidate window next)
  | title {fuel : Nat} {window : WindowId} {next : String → Program κ ρ Unit}
      (h : ∀ a, Passive app w b fuel (next a)) : Passive app w b fuel (.title window next)
  /-- Work is handed to a window that keeps it until later. -/
  | defer {fuel : Nat} {window : WindowId} {code : κ} {next : Program κ ρ Unit}
      (waits : w.Waits window) (h : Passive app w b fuel next) :
      Passive app w b fuel (.defer window code next)
  /-- Work is handed to a window that may have it done at once. -/
  | doNow {fuel : Nat} {window : WindowId} {code : κ} {next : Program κ ρ Unit}
      (task : Passive app w b fuel (app.task code)) (h : Passive app w b (fuel + 1) next) :
      Passive app w b (fuel + 1) (.defer window code next)
  | send {fuel : Nat} {event : Event} {next : Program κ ρ Unit} (h : Passive app w b fuel next) :
      Passive app w b fuel (.send event next)
  | find {fuel : Nat} {id : String} {next : Option ElementId → Program κ ρ Unit}
      (h : ∀ a, Passive app w b fuel (next a)) : Passive app w b fuel (.find id next)
  | handle {fuel : Nat} {e : ElementId} {kind : Kind} {next : Option Handle → Program κ ρ Unit}
      (h : ∀ a, Passive app w b fuel (next a)) : Passive app w b fuel (.handle e kind next)
  | tryLock {fuel : Nat} {handle : Handle} {next : Bool → Program κ ρ Unit}
      (h : ∀ a, Passive app w b fuel (next a)) : Passive app w b fuel (.tryLock handle next)

/-! ## Calls -/

/-- The watcher and the binding of a call. -/
def Entry.called? : Entry → Option (WatcherId × BindingId)
  | .called x b => some (x, b)
  | _ => none

theorem Entry.called?_of_binding? {entry : Entry} (h : entry.binding? = none) :
    entry.called? = none := by
  cases entry <;> first | rfl | cases h

theorem Entry.count_called (entries : List Entry) (x : WatcherId) (b : BindingId) :
    entries.count (.called x b) = (entries.filterMap called?).count (x, b) := by
  rw [List.count, List.count, List.countP_filterMap]
  refine List.countP_congr fun entry _ => ?_
  cases entry <;> simp [called?]

namespace World

/-- The calls of watchers that were made from one state to another, in order. -/
def Calls (w w' : World κ ρ) (calls : List (WatcherId × BindingId)) : Prop :=
  ∃ news, w'.history = w.history ++ news ∧ news.filterMap Entry.called? = calls

theorem Calls.trans {u : World κ ρ} {calls later : List (WatcherId × BindingId)}
    (h : w.Calls u calls) (h' : u.Calls w' later) : w.Calls w' (calls ++ later) := by
  obtain ⟨news, hnews, rfl⟩ := h
  obtain ⟨news', hnews', rfl⟩ := h'
  exact ⟨news ++ news', by rw [hnews', hnews, List.append_assoc], List.filterMap_append⟩

theorem Still.calls (h : w.Still w') : w.Calls w' [] := by
  obtain ⟨news, hnews, hnone⟩ := h.history
  exact ⟨news, hnews, List.filterMap_eq_nil_iff.mpr fun entry hentry =>
    Entry.called?_of_binding? (hnone entry hentry)⟩

/-! ## What is left alone -/

/-- The binding is as it was, whoever was alive still is, nobody was called, and what nobody watched
is unwatched. -/
structure LeftAlone (b : BindingId) (w w' : World κ ρ) : Prop where
  binding : w'.binding? b = w.binding? b
  held : ∀ x, w'.watcherHeld x = w.watcherHeld x
  callbacks : ∀ x code, w'.CallsBack x code → w.CallsBack x code
  awaiting : w'.awaiting = w.awaiting
  calls : w.Calls w' []
  secluded : w.Secluded b w'

namespace LeftAlone

/-- A step that neither attaches nor tells anybody. -/
theorem of_steady {touched : WatcherId → Prop} (steady : w.Steady b touched w')
    (still : w.Still w') (secluded : w.Secluded b w') (bindings : w'.bindings = w.bindings) :
    w.LeftAlone b w' where
  binding := by rw [binding?, bindings, ← binding?]
  held := steady.held
  callbacks := steady.callbacks
  awaiting := still.awaiting
  calls := still.calls
  secluded := secluded

instance : IsPreorder (World κ ρ) (LeftAlone b) where
  refl w :=
    .of_steady (refl_of (Steady b fun _ => True) w) (refl_of Still w) (refl_of (Secluded b) w) rfl
  trans _ _ _ h h' :=
    { binding := h'.binding.trans h.binding
      held := fun x => (h'.held x).trans (h.held x)
      callbacks := fun x code => h.callbacks x code ∘ h'.callbacks x code
      awaiting := h'.awaiting.trans h.awaiting
      calls := h.calls.trans h'.calls
      secluded := trans_of (Secluded b) h.secluded h'.secluded }

variable (hne : c ≠ b)
include hne

theorem assigned (w : World κ ρ) (content : Content ρ) : w.LeftAlone b (w.assigned c content) where
  binding := binding?_assigned_of_ne hne content
  held := (sameHolders_assigned w c content).watcher
  callbacks _ _ := id
  awaiting := rfl
  calls := ⟨_, history_assigned w c content, rfl⟩
  secluded := .assigned w c content

/-- A round that has nobody to call. -/
theorem inRound (nobody : w.listeners c = []) : w.LeftAlone b (w.inRound c) where
  binding := binding?_inRound_of_ne hne
  held := (sameHolders_inRound w c).watcher
  callbacks _ _ := id
  awaiting := by
    show w.listeners c ++ w.awaiting = w.awaiting
    rw [nobody, List.nil_append]
  calls := ⟨_, history_inRound w c, rfl⟩
  secluded := .inRound w c

theorem settled (w : World κ ρ) : w.LeftAlone b (w.settled c) where
  binding := binding?_settled_of_ne hne
  held := (sameHolders_settled w c).watcher
  callbacks _ _ := id
  awaiting := rfl
  calls := ⟨_, history_settled w c, rfl⟩
  secluded := .settled w c

end LeftAlone

end World

/-! ## Steps that leave a binding alone -/

namespace Machine

open World (LeftAlone Steady Still Secluded)

/-- A step that ends, changes no binding, and neither attaches nor tells anybody. -/
theorem ensures_leftAlone {α : Type} {m : Machine κ ρ α}
    (ends : ∀ w, ∃ a w', m w = .ok (a, w') ∧ w'.bindings = w.bindings)
    (steady : Respects (Steady b fun _ => True) m) (still : Respects Still m)
    (secluded : Respects (Secluded b) m) : Ensures (LeftAlone b) m := by
  intro w
  obtain ⟨a, w', hrun, hbindings⟩ := ends w
  exact ⟨a, w', hrun, .of_steady (steady hrun) (still hrun) (secluded hrun) hbindings⟩

theorem note_leftAlone (line : String) : Ensures (LeftAlone b) (note line : Machine κ ρ Unit) :=
  ensures_leftAlone (fun _ => ⟨_, _, rfl, rfl⟩) (note_steady line) (note_still line)
    (note_respects line)

theorem editMirror_leftAlone (x : WatcherId) (value : Scalar ρ) :
    Ensures (LeftAlone b) (editMirror x value : Machine κ ρ Unit) :=
  ensures_leftAlone (fun _ => ⟨_, _, rfl, rfl⟩) (editMirror_steady trivial value)
    (editMirror_still x value) (editMirror_respects x value)

theorem invalidate_leftAlone (window : Option WindowId) :
    Ensures (LeftAlone b) (invalidate window : Machine κ ρ Unit) := by
  refine ensures_leftAlone (fun _ => ?_) (invalidate_steady window) (invalidate_still window)
    (invalidate_respects window)
  cases window <;> exact ⟨_, _, rfl, rfl⟩

theorem send_leftAlone (event : Event) :
    Ensures (LeftAlone b) (send event : Machine κ ρ Unit) :=
  ensures_leftAlone (fun _ => ⟨_, _, rfl, rfl⟩) (send_steady event) (send_still event)
    (send_respects event)

theorem handle?_leftAlone (e : ElementId) (kind : Kind) :
    Ensures (LeftAlone b) (handle? e kind : Machine κ ρ (Option Handle)) := by
  refine .bind .get fun w => ?_
  split
  · exact .pure _
  · split
    · exact .pure _
    · split <;> exact .pure _

theorem canLock_leftAlone (h : Handle) :
    Ensures (LeftAlone b) (canLock h : Machine κ ρ Bool) := by
  refine .bind .get fun w => ?_
  split <;> exact .pure _

theorem takeOver_leftAlone (x : WatcherId) (c : BindingId) :
    Ensures (LeftAlone b) (takeOver x c : Machine κ ρ Unit) := by
  refine .bind .get fun w => ?_
  split
  · exact ensures_leftAlone (fun _ => ⟨_, _, rfl, rfl⟩) (modifyMirror_steady trivial _)
      (modifyMirror_still x _) (modifyMirror_respects x _)
  · exact .pure _

/-- To call a watcher is to write that down and to leave everything alone. -/
theorem call_leftAlone (app : App κ ρ) (x : WatcherId) (b : BindingId) (w : World κ ρ) :
    ∃ program w', call app x b w = .ok (program, w') ∧ (w.record (.called x b)).LeftAlone b w' := by
  refine Ensures.modify_bind (fun _ => .bind .get fun v => ?_) w
  split
  · exact .pure _
  · split
    · split
      · exact .bind (takeOver_leftAlone x b) fun _ => .bind (invalidate_leftAlone _) fun _ =>
          .pure _
      · exact .pure _
    · exact .bind (invalidate_leftAlone _) fun _ => .pure _
    · exact .pure _

theorem enqueue_leftAlone (x : WindowId) (code : κ) :
    Ensures (LeftAlone b) (enqueue x (.run code) : Machine κ ρ (List (Task κ))) := by
  refine .bind .get fun w => ?_
  split
  · exact .pure _
  · split
    · refine .bind (.modify fun w => ?_) fun _ => ?_
      · have hsteady : Steady b (fun _ => True) w _ := .handed w x code
        exact .of_steady hsteady (.of_eq rfl rfl rfl) (World.Hands.handed w x _) rfl
      · split
        · exact .bind (invalidate_leftAlone _) fun _ => .pure _
        · exact .pure _
    · exact .pure _

/-! ## Parts of a run -/

variable {α β : Type}

/-- A part that comes to its end and leaves a binding alone, as long as what nobody watched at the
start is unwatched. -/
def Leaves (start : World κ ρ) (b : BindingId) (m : Machine κ ρ α) : Prop :=
  ∀ w, start.Secluded b w → ∃ a w', m w = .ok (a, w') ∧ w.LeftAlone b w'

namespace Leaves

theorem of_ensures {m : Machine κ ρ α} (h : Ensures (LeftAlone b) m) : Leaves start b m :=
  fun w _ => h w

theorem pure (a : α) : Leaves start b (Pure.pure a : Machine κ ρ α) := of_ensures (.pure a)

theorem bind {m : Machine κ ρ α} {f : α → Machine κ ρ β} (first : Leaves start b m)
    (later : ∀ a, Leaves start b (f a)) : Leaves start b (m >>= f) := by
  intro w hw
  obtain ⟨a, u, hfirst, hu⟩ := first w hw
  obtain ⟨d, w', hlater, hw'⟩ := later a u (trans_of (Secluded b) hw hu.secluded)
  exact ⟨d, w', bind_eq_ok.mpr ⟨a, u, hfirst, hlater⟩, trans_of (LeftAlone b) hu hw'⟩

end Leaves

/-- Work for a window: it is kept there, or done at once. -/
theorem defer_leaves {r : Reentry κ ρ} (x : WindowId) (code : κ)
    (task : ¬ start.Waits x → Leaves start b (r.task (.run code))) :
    Leaves start b (defer r x (.run code)) := by
  intro w hw
  obtain ⟨tasks, u, henqueue, hu⟩ := enqueue_leftAlone (b := b) x code w
  have hlater : Leaves start b (tasks.forM r.task) := by
    rcases enqueue_tasks henqueue with rfl | ⟨rfl, hnow⟩
    · exact .pure _
    · exact .bind (task fun waits => hnow (hw.waits x waits)) fun _ => .pure _
  obtain ⟨_, w', hrun, hw'⟩ := hlater u (trans_of (Secluded b) hw hu.secluded)
  exact ⟨(), w', bind_eq_ok.mpr ⟨tasks, u, henqueue, hrun⟩, trans_of (LeftAlone b) hu hw'⟩

section Ordered

variable [Ordered ρ] {app : App κ ρ}

/-- Setting another binding, which nobody watches. -/
theorem setContent_leaves (other : c ≠ b) (unheard : start.Unheard c) (content : Content ρ)
    (fuel : Nat) : Leaves start b (setContent (.ofFuel app (fuel + 1)) c content) := by
  intro w hw
  by_cases hnew : ∃ binding, w.binding? c = some binding ∧
      binding.content.shape = content.shape ∧ binding.content.differs content = true
  · obtain ⟨binding, hfound, hshape, hdiffers⟩ := hnew
    let v := w.assigned c content
    have hassigned : w.LeftAlone b v := .assigned other w content
    cases hbusy : binding.notifying with
    | true => exact ⟨true, v, setContent_of_busy hfound hshape hdiffers hbusy, hassigned⟩
    | false =>
        -- One round, in which nobody is called.
        have hnobody : v.listeners c = [] := by
          rw [World.listeners_assigned, (hw.unheard other unheard).listeners]
        have hround : round app (.ofFuel app fuel) c v = .ok ((), v.inRound c) := by
          refine bind_eq_ok.mpr ⟨v.listeners c, v.inRound c, rfl, ?_⟩
          rw [hnobody]
          rfl
        have hpending : (v.flags c).2 = true := by rw [World.flags_assigned hfound]
        have hdone : ((v.inRound c).flags c).2 = false := by rw [World.flags_inRound]
        refine ⟨true, (v.inRound c).settled c, setContent_of_drain hfound hshape hdiffers hbusy
          (drain_next hpending hround (drain_done hdone)), ?_⟩
        exact trans_of (LeftAlone b) (trans_of (LeftAlone b) hassigned (.inRound other hnobody))
          (.settled other _)
  · exact ⟨false, w, setContent_of_same fun binding hfound hsame => hnew ⟨binding, hfound, hsame⟩,
      refl_of (LeftAlone b) w⟩

end Ordered

end Machine

variable [Ordered ρ] {app : App κ ρ}

/-- A callback that only looks on comes to its end and leaves the binding alone. The induction is on
what is left of it. -/
theorem Program.Passive.leaves {fuel : Nat} {program : Program κ ρ Unit}
    (h : program.Passive app start b fuel) :
    Leaves start b (program.run (.ofFuel app fuel)) := by
  induction h with
  | done => exact .pure _
  | note _ ih => exact .bind (.of_ensures (note_leftAlone _)) fun _ => ih
  | read _ ih | keeps _ ih | title _ ih | find _ ih =>
      exact .bind (.of_ensures .get) fun _ => ih _
  | jot other unheard _ ih => exact .bind (setContent_leaves other unheard _ _) ih
  | edit _ ih => exact .bind (.of_ensures (editMirror_leftAlone _ _)) fun _ => ih
  | invalidate _ ih => exact .bind (.of_ensures (invalidate_leftAlone _)) fun _ => ih
  | defer waits _ ih => exact .bind (defer_leaves _ _ fun hno => absurd waits hno) fun _ => ih
  | doNow _ _ task ih => exact .bind (defer_leaves _ _ fun _ => task) fun _ => ih
  | send _ ih => exact .bind (.of_ensures (send_leftAlone _)) fun _ => ih
  | handle _ ih => exact .bind (.of_ensures (handle?_leftAlone _ _)) ih
  | tryLock _ ih => exact .bind (.of_ensures (canLock_leftAlone _)) ih

end Trellis
