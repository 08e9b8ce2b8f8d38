import Trellis.Proofs.Machine.Permissive
import Trellis.Proofs.Notification.Agenda
import Trellis.Proofs.World.Update

/-!
# What single steps respect

Discharging a duty is one of the single steps of callbacks. Each of them touches the copy of one
mirror at most, other than to edit it, and one element at most.

* `Duty.copies?`, `Duty.edits?` — the mirror and the element that a step touches.
* `Duty.amends?` — the mirror that it edits, and the value that it gets.
* `Machine.lock_eq_ok` — an element is locked only if it is free.
* `Duty.discharge_answers` — a step respects a relation that allows what it touches to change.
* `Reaches.respects` — any number of steps respect a relation that allows anything to change.
-/

namespace Trellis

open Machine

open World (Moderate Lenient Amends Recopies Refits Hands)

variable {κ ρ α : Type} {w w' : World κ ρ}

/-- The mirror whose copy the first step of a program touches, other than to edit it. -/
def Program.copies? : Program κ ρ α → Option WatcherId
  | .attach y _ _ | .writeBack y _ _ => some y
  | _ => none

/-- The mirror whose copy the first step of a program edits, and the value it gets. -/
def Program.amends? : Program κ ρ α → Option (WatcherId × Scalar ρ)
  | .edit y value _ => some (y, value)
  | _ => none

namespace Duty

/-- The mirror whose copy the duty touches, other than to edit it or to bind its element. -/
def copies? : Duty κ ρ → Option WatcherId
  | .run program => program.copies?
  | .rounds _ (y :: _) => some y
  | _ => none

/-- The element that the duty touches. -/
def edits? : Duty κ ρ → Option ElementId
  | .task (.edit e _ _ _) | .unlock e => some e
  | _ => none

/-- The mirror that the duty edits, and the value it gets. A change of an element edits its follower. -/
def amends? (w : World κ ρ) : Duty κ ρ → Option (WatcherId × Scalar ρ)
  | .run program => program.amends?
  | .task (.edit e _ (.change change) _) =>
    (w.element? e).bind fun element =>
      element.follower.bind fun y => (element.body.edit? change).map (y, ·)
  | _ => none

end Duty

namespace Machine

theorem lock_eq_ok {e : ElementId} (run : lock e w = .ok ((), w')) :
    (w.element? e = none ∧ w' = w) ∨ ∃ element, w.element? e = some element ∧
      element.locked = false ∧ w' = w.modifyElement e ({ · with locked := true }) := by
  replace run := get_bind_eq_ok.mp run
  cases helement : w.element? e with
  | none =>
      simp only [helement] at run
      exact .inl ⟨rfl, (pure_eq_ok.mp run).2.symm⟩
  | some element =>
      simp only [helement] at run
      cases hlocked : element.locked with
      | true =>
          rw [hlocked, if_pos rfl] at run
          exact absurd run stop_ne_ok
      | false =>
          rw [hlocked, if_neg (by simp), modify_eq_ok] at run
          exact .inr ⟨element, rfl, hlocked, run.symm⟩

/-- Locking an element leaves everybody the follower they have. -/
theorem follower_lock {e d : ElementId} (run : lock e w = .ok ((), w')) :
    (w'.element? d).bind (·.follower) = (w.element? d).bind (·.follower) := by
  rcases lock_eq_ok run with ⟨-, rfl⟩ | ⟨element, -, -, rfl⟩
  · rfl
  · rw [World.element?_modifyElement]
    split
    · rw [Option.bind_map]
      rfl
    · rfl

/-- An element that was locked is as it was, but for the lock. -/
theorem exists_of_lock {e : ElementId} {element : Element κ} (run : lock e w = .ok ((), w'))
    (found : w'.element? e = some element) :
    ∃ before, w.element? e = some before ∧ element = { before with locked := true } := by
  rcases lock_eq_ok run with ⟨hnone, rfl⟩ | ⟨before, hbefore, -, rfl⟩
  · rw [hnone] at found
    cases found
  · rw [World.element?_modifyElement, if_pos rfl, hbefore, Option.map_some] at found
    exact ⟨before, hbefore, (Option.some.inj found).symm⟩

end Machine

variable [Ordered ρ] {R : World κ ρ → World κ ρ → Prop}

/-- A duty that unlocks no element. -/
def Duty.LeavesLocked : Duty κ ρ → Prop
  | .unlock _ => False
  | _ => True

omit [Ordered ρ] in
theorem Duty.leavesLocked_tasks (tasks : List (Task κ)) (next : Program κ ρ Unit) :
    ∀ d ∈ tasks.map Duty.task ++ [.run next], d.LeavesLocked :=
  List.forall_mem_append.mpr
    ⟨List.forall_mem_map.mpr fun _ _ => trivial, List.forall_mem_singleton.mpr trivial⟩

namespace Machine

variable [Moderate R]

theorem assign_answers (b : BindingId) (content : Content ρ) :
    Answers R (∀ d ∈ ·.2, d.LeavesLocked)
      (assign b content : Machine κ ρ (Bool × List (Duty κ ρ))) := by
  refine .bind (store_respects b content) fun changed => ?_
  split
  · refine .bind (announce_respects b) fun begins => ?_
    split
    · exact .pure (List.forall_mem_singleton.mpr trivial)
    · exact .pure (List.forall_mem_nil _)
  · exact .pure (List.forall_mem_nil _)

theorem assignEdit_answers (x : WatcherId) [Recopies R x] (b : BindingId) :
    Answers R (∀ d ∈ ·.2, d.LeavesLocked)
      (assignEdit x b : Machine κ ρ (Bool × List (Duty κ ρ))) := by
  refine .bind (takeEdit_respects x) fun taken => ?_
  split
  · exact assign_answers b _
  · exact .pure (List.forall_mem_nil _)

end Machine

variable [Moderate R] [Hands R] {app : App κ ρ}

theorem Program.advance_answers {program : Program κ ρ Unit}
    (copies : ∀ y, program.copies? = some y → Recopies R y)
    (amends : ∀ y value, program.amends? = some (y, value) → Amends R y value) :
    Answers R (∀ d ∈ ·, d.LeavesLocked) program.advance := by
  have hrun (next : Program κ ρ Unit) : ∀ d ∈ [Duty.run next], d.LeavesLocked :=
    List.forall_mem_singleton.mpr trivial
  have hset {answer : Bool × List (Duty κ ρ)} (h : ∀ d ∈ answer.2, d.LeavesLocked)
      (next : Program κ ρ Unit) : ∀ d ∈ answer.2 ++ [.run next], d.LeavesLocked :=
    List.forall_mem_append.mpr ⟨h, hrun next⟩
  cases program with
  | done answer => exact .pure (List.forall_mem_nil _)
  | note line next => exact .bind (note_respects line) fun _ => .pure (hrun next)
  | watch y b next => exact .bind (watch_respects y b) fun _ => .pure (hrun next)
  | unwatch y b next => exact .bind (unwatch_respects y b) fun _ => .pure (hrun next)
  | drop y next => exact .bind (drop_respects y) fun _ => .pure (hrun next)
  | keeps y next => exact .get_bind fun _ => .pure (hrun _)
  | invalidate window next => exact .bind (invalidate_respects _) fun _ => .pure (hrun next)
  | send event next => exact .bind (send_respects event) fun _ => .pure (hrun next)
  | read b next => exact .get_bind fun _ => .pure (hrun _)
  | title window next => exact .get_bind fun _ => .pure (hrun _)
  | find id next => exact .get_bind fun _ => .pure (hrun _)
  | handle element kind next =>
      exact .bind (handle?_respects element kind) fun _ => .pure (hrun _)
  | tryLock handle next => exact .bind (canLock_respects handle) fun _ => .pure (hrun _)
  | set b content next => exact .andThen (assign_answers b content) fun _ h => .pure (hset h _)
  | defer window code next =>
      exact .bind (enqueue_respects window _) fun tasks =>
        .pure (Duty.leavesLocked_tasks tasks next)
  | update handle call reply next =>
      exact .bind (handIn_respects handle call reply) fun tasks =>
        .pure (Duty.leavesLocked_tasks tasks next)
  | edit y value next =>
      have := amends y value rfl
      exact .bind (editMirror_respects y value) fun _ => .pure (hrun next)
  | attach y b next =>
      have := copies y rfl
      exact .bind (attach_respects y b) fun _ => .pure (hrun next)
  | writeBack y b next =>
      have := copies y rfl
      exact .andThen (assignEdit_answers y b) fun _ h => .pure (hset h _)

/-- A step that touches what the relation allows to change. An element that is unlocked later is one
that the step has locked. -/
theorem Duty.discharge_answers {duty : Duty κ ρ} {left : List (Duty κ ρ)}
    (copies : ∀ y, duty.copies? = some y → Recopies R y)
    (amends : ∀ y value, duty.amends? w = some (y, value) → Amends R y value)
    (refits : ∀ e, duty.edits? = some e → Refits R e)
    (binds : ∀ e kind target reply y, duty = .task (.edit e kind (.bind target) reply) →
      (w.element? e).bind (·.follower) = some y → Recopies R y)
    (run : duty.discharge app w = .ok (left, w')) :
    R w w' ∧ ∀ e, .unlock e ∈ left → duty.edits? = some e := by
  have hleaves (h : R w w' ∧ ∀ d ∈ left, d.LeavesLocked) :
      R w w' ∧ ∀ e, .unlock e ∈ left → duty.edits? = some e :=
    ⟨h.1, fun e he => (h.2 _ he).elim⟩
  cases duty with
  | run program => exact hleaves (Program.advance_answers copies amends run)
  | rounds b watchers =>
      refine hleaves ((?_ : Answers R (∀ d ∈ ·, d.LeavesLocked) _) run)
      cases watchers with
      | nil =>
          refine .get_bind fun v => ?_
          split
          · exact .bind (beginRound_respects b) fun _ =>
              .pure (List.forall_mem_singleton.mpr trivial)
          · exact .bind (settle_respects b) fun _ => .pure (List.forall_mem_nil _)
      | cons y rest =>
          have := copies y rfl
          refine .bind (call_respects app y b) fun _ => .pure ?_
          exact List.forall_mem_cons.mpr ⟨trivial, List.forall_mem_singleton.mpr trivial⟩
  | release y b rest =>
      refine hleaves ((?_ : Answers R (∀ d ∈ ·, d.LeavesLocked) _) run)
      exact .bind (release_respects y b) fun _ => .pure (List.forall_mem_singleton.mpr trivial)
  | task task =>
      cases task with
      | run code =>
          obtain ⟨rfl, rfl⟩ := pure_eq_ok.mp run
          exact hleaves ⟨refl_of R w, List.forall_mem_singleton.mpr trivial⟩
      | edit e kind call reply =>
          have := refits e rfl
          obtain ⟨_, u, hlock, run⟩ := bind_eq_ok.mp run
          obtain ⟨program, v, hedit, run⟩ := bind_eq_ok.mp run
          obtain ⟨rfl, rfl⟩ := pure_eq_ok.mp run
          have hlocked : R w u := lock_respects e hlock
          have hedited : R u v := by
            refine edit_permitted app (fun target y hcall hy => ?_)
              (fun change element y value hcall helement hy hvalue => ?_) hedit
            · rw [follower_lock hlock] at hy
              exact binds e kind target reply y (by rw [hcall]) hy
            · obtain ⟨before, hbefore, rfl⟩ := exists_of_lock hlock helement
              refine amends y value ?_
              rw [hcall, amends?, hbefore, Option.bind_some]
              exact Option.bind_eq_some_iff.mpr ⟨y, hy, Option.map_eq_some_iff.mpr ⟨value, hvalue, rfl⟩⟩
          refine ⟨trans_of R hlocked hedited, fun d hd => ?_⟩
          simp only [List.mem_cons, reduceCtorEq, unlock.injEq, List.not_mem_nil, or_false,
            false_or] at hd
          rw [hd]
          rfl
  | unlock e =>
      have := refits e rfl
      have hunlock : Respects R (Machine.unlock e : Machine κ ρ Unit) :=
        refit_respects e fun _ => ⟨rfl, rfl, rfl, rfl⟩
      refine hleaves ((?_ : Answers R (∀ d ∈ ·, d.LeavesLocked) _) run)
      exact .bind hunlock fun _ => .pure (List.forall_mem_nil _)

omit [Moderate R] in
/-- Any number of steps respect a relation that allows anything to change. The induction is on the
steps. -/
theorem Reaches.respects [Lenient R] [∀ x, Recopies R x] [∀ e, Refits R e] {m m' : Moment κ ρ}
    (run : Reaches app m m') : R m.world m'.world := by
  induction run with
  | refl => exact refl_of R m.world
  | tail _ hnext ih =>
      obtain ⟨hrun⟩ := hnext
      refine trans_of R ih (Duty.discharge_answers ?_ ?_ ?_ ?_ hrun).1
      · exact fun _ _ => inferInstance
      · exact fun _ _ _ => inferInstance
      · exact fun _ _ => inferInstance
      · exact fun _ _ _ _ _ _ _ => inferInstance

end Trellis
