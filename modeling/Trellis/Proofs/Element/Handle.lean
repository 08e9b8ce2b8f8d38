import Trellis.Proofs.Host.Undisturbed
import Trellis.Proofs.Widget.Locked

/-!
# Handles on elements

A handle names the type that its element is expected to have. An element that is busy when the
handle is made shows its type only later, so the type is looked at again whenever the handle is used
and, if an update had to wait, once more when it takes its turn.

* `Machine.carryOut` — what an update is for.
* `World.SameKind` — an element keeps its type.
* `Machine.Ran` — tasks that wait in a window are run in order.
* `Machine.Drains` — how an update that waits takes its turn among them.
* `Handle.Honoured` — what comes of a handle in a state.
* `Machine.handle?_honoured` — every handle that is made is honoured in every state.
-/

namespace Trellis

open World (Lenient Recopies Refits Hands)

variable {κ ρ : Type} {e : ElementId} {x : WindowId} {w w' : World κ ρ}

/-! ## Types that stay -/

/-- The element has the type that it had. -/
def World.SameKind (e : ElementId) (w w' : World κ ρ) : Prop :=
  (w'.element? e).map (·.body.kind) = (w.element? e).map (·.body.kind)

namespace World.SameKind

instance : IsPreorder (World κ ρ) (SameKind e) where
  refl _ := rfl
  trans _ _ _ h h' := Eq.trans h' h

instance : Lenient (SameKind (κ := κ) (ρ := ρ) e) where
  bindings _ _ := rfl
  awaiting _ _ := rfl
  madeUp _ _ := rfl
  recorded _ _ := rfl
  dropped _ _ := rfl
  edited _ _ _ := rfl
  event _ _ := rfl
  asked _ _ := rfl

instance : Hands (SameKind (κ := κ) (ρ := ρ) e) where
  handed _ _ _ := rfl

instance (y : WatcherId) : Recopies (SameKind (κ := κ) (ρ := ρ) e) y where
  copied _ _ := rfl

instance (d : ElementId) : Refits (SameKind (κ := κ) (ρ := ρ) e) d where
  refitted w f h := by
    rw [SameKind, World.element?_modifyElement]
    split
    · next hd =>
        subst hd
        cases helement : w.element? d with
        | none => rfl
        | some element => exact congrArg some (h element helement).2.2.2
    · rfl

/-- An element that has kept its type. -/
theorem exists_element {element : Element κ} (h : w.SameKind e w')
    (found : w.element? e = some element) :
    ∃ later, w'.element? e = some later ∧ later.body.kind = element.body.kind := by
  rw [SameKind, found, Option.map_some, Option.map_eq_some_iff] at h
  exact h

end World.SameKind

/-! ## Elements that are locked for a part -/

namespace Machine

section Locking

variable {α : Type} {part : Machine κ ρ α} {element : Element κ}

/-- A part that leaves everything as it is, while an element that was free is locked. -/
theorem locking_of_idle {a : α} (found : w.element? e = some element)
    (free : element.locked = false)
    (idle : ∀ v, v.element? e = some { element with locked := true } → part v = .ok (a, v)) :
    locking e part w = .ok (a, w) := by
  have hlocked : (w.modifyElement e ({ · with locked := true })).element? e =
      some { element with locked := true } := by
    rw [World.element?_modifyElement, if_pos rfl, found]
    rfl
  rw [locking, bind_of_eq_ok (lock_of_free found free), bind_of_eq_ok (idle _ hlocked)]
  have hback : (w.modifyElement e ({ · with locked := true })).modifyElement e
      ({ · with locked := false }) = w := by
    rw [World.modifyElement_modifyElement]
    exact World.modifyElement_of_eq found (by rw [← free]; rfl)
  exact congrArg (fun v => Except.ok (a, v)) hback

end Locking

/-! ## Updates -/

section Update

variable {app : App κ ρ} {r : Reentry κ ρ} {element : Element κ} {call : Call κ BindingId}
  {reply : κ} {h : Handle}

/-- Of an element that is free nothing is left to a window. -/
theorem handIn_of_free (found : w.element? h.element = some element)
    (free : element.locked = false) :
    handIn h call reply w = .ok ([.edit h.element h.kind call reply], w) := by
  rw [handIn, bind_of_eq_ok (a := w) (v := w) rfl]
  simp only [found, free]
  rfl

theorem handIn_of_busy (found : w.element? h.element = some element)
    (busy : element.locked = true) :
    handIn h call reply w = (match h.window with
      | some x => enqueue x (.edit h.element h.kind call reply)
      | none => pure []) w := by
  rw [handIn, bind_of_eq_ok (a := w) (v := w) rfl]
  simp only [found, busy]
  rfl

theorem update_of_handIn {tasks : List (Task κ)} (run : handIn h call reply w = .ok (tasks, w')) :
    update r h call reply w = tasks.forM r.task w' :=
  bind_of_eq_ok run

/-- An update of an element that is free is its task, which is run at once. -/
theorem update_of_free (found : w.element? h.element = some element)
    (free : element.locked = false) :
    update r h call reply w = r.task (.edit h.element h.kind call reply) w := by
  rw [update_of_handIn (handIn_of_free found free)]
  show (r.task _ >>= fun _ => pure PUnit.unit) w = _
  simp

/-- Without a window an update of an element that is busy is dropped. -/
theorem update_of_windowless (found : w.element? h.element = some element)
    (busy : element.locked = true) (windowless : h.window = none) :
    update r h call reply w = .ok ((), w) := by
  have hnone : handIn h call reply w = .ok ([], w) := by
    rw [handIn_of_busy found busy, windowless]
    rfl
  rw [update_of_handIn hnone]
  rfl

variable [Ordered ρ]

/-- Makes a call on an element and reports the answer. -/
def carryOut (app : App κ ρ) (r : Reentry κ ρ) (e : ElementId) (call : Call κ BindingId)
    (reply : κ) : Machine κ ρ Unit := do
  ((← perform app e call).bind (app.reply reply)).run r

/-- The task of an update carries it out on an element of the expected type. -/
theorem runTask_edit_of_kind {kind : Kind} (found : w.element? e = some element)
    (typed : element.body.kind = kind) :
    runTask app r (.edit e kind call reply) w = locking e (carryOut app r e call reply) w := by
  refine locking_congr found fun v hv => ?_
  have hedit : edit app e kind call reply v =
      (do pure ((← perform app e call).bind (app.reply reply)) : Machine κ ρ _) v := by
    rw [edit, bind_of_eq_ok (a := v) (v := v) rfl, if_pos]
    rw [hv, Option.map_some, typed]
  rw [bind_congr_left hedit, bind_assoc]
  simp only [pure_bind]
  rfl

/-- An element of another type is left alone. -/
theorem runTask_edit_of_ne {kind : Kind} (found : w.element? e = some element)
    (free : element.locked = false) (other : element.body.kind ≠ kind) :
    runTask app r (.edit e kind call reply) w = .ok ((), w) := by
  refine locking_of_idle found free fun v hv => ?_
  have hedit : edit app e kind call reply v = .ok (.done (), v) := by
    rw [edit, bind_of_eq_ok (a := v) (v := v) rfl, if_neg]
    · rfl
    · rw [hv, Option.map_some, Option.some.injEq]
      exact other
  rw [bind_of_eq_ok hedit]
  rfl

end Update

/-! ## Updates that wait -/

end Machine

/-- Only a window has changed. -/
structure World.WindowOnly (x : WindowId) (w w' : World κ ρ) : Prop where
  windows : w' = { w with windows := w'.windows }
  others : ∀ y, y ≠ x → w'.window? y = w.window? y

namespace World.WindowOnly

instance : IsPreorder (World κ ρ) (WindowOnly x) where
  refl _ := ⟨rfl, fun _ _ => rfl⟩
  trans u v w h h' := by
    refine ⟨?_, fun y hy => (h'.others y hy).trans (h.others y hy)⟩
    rw [h'.windows, h.windows]

theorem modifyWindow (w : World κ ρ) (f : Window κ → Window κ) :
    WindowOnly x w (w.modifyWindow x f) where
  windows := rfl
  others y hy := by rw [window?_modifyWindow, if_neg (Ne.symm hy)]

end World.WindowOnly

namespace Machine

theorem enqueue_windowOnly (task : Task κ) :
    Respects (World.WindowOnly x) (enqueue x task : Machine κ ρ (List (Task κ))) := by
  refine .get_bind fun w => ?_
  split
  · exact .pure _
  · split
    · refine .bind (.modify fun v => .modifyWindow v _) fun _ => ?_
      split
      · exact .bind (.modify fun v => .modifyWindow v _) fun _ => .pure _
      · exact .pure _
    · exact .pure _

variable {r : Reentry κ ρ} {element : Element κ} {call : Call κ BindingId} {reply : κ} {h : Handle}

/-- Where tasks wait, an update of an element that is busy waits behind them. -/
theorem update_of_queues (found : w.element? h.element = some element)
    (busy : element.locked = true) (window : h.window = some x) (queues : w.Queues x) :
    ∃ w', update r h call reply w = .ok ((), w') ∧ w.WindowOnly x w' ∧
      w'.waiting x = w.waiting x ++ [.edit h.element h.kind call reply] := by
  obtain ⟨w', henqueue, hwaiting⟩ := enqueue_run queues (.edit h.element h.kind call reply)
  have hhanded : handIn h call reply w = .ok ([], w') := by
    rw [handIn_of_busy found busy, window]
    exact henqueue
  exact ⟨w', (update_of_handIn hhanded).trans rfl, enqueue_windowOnly _ henqueue, hwaiting⟩

end Machine

section Tasks

variable [Ordered ρ] {s : Setting κ ρ} {tasks earlier later : List (Task κ)}

namespace Machine

/-- Tasks are run, each being the one that has waited longest in a window by then. -/
inductive Ran (s : Setting κ ρ) (x : WindowId) : List (Task κ) → World κ ρ → World κ ρ → Prop
  | nil {w : World κ ρ} : Ran s x [] w w
  | cons {task : Task κ} {tasks : List (Task κ)} {w u v w' : World κ ρ}
      (turn : nextTask x w = .ok (some task, u)) (run : s.reentry.task task u = .ok ((), v))
      (others : Ran s x tasks v w') : Ran s x (task :: tasks) w w'

/-- To run the tasks of a window is to run some, until none waits. -/
theorem ran_of_runTasks {size : Size Float} {limit n : Nat}
    (run : (stage s x size).runTasks limit w = .ok (n, w')) :
    ∃ tasks, Ran s x tasks w w' ∧ n = tasks.length ∧ w'.waiting x = [] := by
  induction limit generalizing w n with
  | zero =>
      obtain ⟨next, v, hnext, hrest⟩ := bind_eq_ok.mp run
      rcases nextTask_outcome hnext with ⟨rfl, hempty, rfl⟩ | ⟨task, rfl, -⟩
      · obtain ⟨rfl, rfl⟩ := pure_eq_ok.mp hrest
        exact ⟨[], .nil, rfl, hempty⟩
      · exact absurd hrest (stop_ne_ok (w := v))
  | succ limit ih =>
      obtain ⟨next, v, hnext, hrest⟩ := bind_eq_ok.mp run
      rcases nextTask_outcome hnext with ⟨rfl, hempty, rfl⟩ | ⟨task, rfl, -⟩
      · obtain ⟨rfl, rfl⟩ := pure_eq_ok.mp hrest
        exact ⟨[], .nil, rfl, hempty⟩
      · obtain ⟨_, u, htask, hrest⟩ := bind_eq_ok.mp hrest
        obtain ⟨m, u', hothers, hrest⟩ := bind_eq_ok.mp hrest
        obtain ⟨rfl, rfl⟩ := pure_eq_ok.mp hrest
        obtain ⟨tasks, hran, rfl, hempty⟩ := ih hothers
        exact ⟨task :: tasks, .cons hnext htask hran, rfl, hempty⟩

namespace Ran

theorem split (h : Ran s x (earlier ++ later) w w') :
    ∃ u, Ran s x earlier w u ∧ Ran s x later u w' := by
  induction earlier generalizing w with
  | nil => exact ⟨w, .nil, h⟩
  | cons task earlier ih =>
      cases h with
      | cons turn run others =>
          obtain ⟨u, hearlier, hlater⟩ := ih others
          exact ⟨u, .cons turn run hearlier, hlater⟩

omit [Ordered ρ] in
theorem sameKind_nextTask {next : Option (Task κ)} (turn : nextTask x w = .ok (next, w')) :
    w.SameKind e w' := by
  refine (?_ : Respects (World.SameKind e) (nextTask x)) turn
  refine .bind (.get_bind fun _ => .pure _) fun waiting => ?_
  split
  · exact .pure _
  · exact .bind (.modify fun _ => rfl) fun _ => .pure _

/-- Whatever tasks are run, an element keeps its type. -/
theorem sameKind (h : Ran s x tasks w w') : w.SameKind e w' := by
  induction h with
  | nil => exact refl_of (World.SameKind e) _
  | @cons task _ _ u v _ turn run _ ih =>
      have hrun : Reaches s.app ⟨[.task task], u⟩ ⟨[], v⟩ :=
        (Reentry.ofFuel_faithful s.app s.fuel).task run []
      have htask : u.SameKind e v := Reaches.respects hrun
      exact trans_of (World.SameKind e) (sameKind_nextTask turn) (trans_of _ htask ih)

/-- The tasks that wait are run before those that are deferred meanwhile. -/
theorem waiting_left (h : Ran s x earlier w w') (waiting : w.waiting x = earlier ++ later) :
    ∃ deferred, w'.waiting x = later ++ deferred := by
  induction h generalizing later with
  | nil => exact ⟨[], by rw [waiting, List.nil_append, List.append_nil]⟩
  | @cons task tasks w u v w' turn run _ ih =>
      rcases nextTask_outcome turn with ⟨hnone, -⟩ | ⟨first, hfirst, hwaiting, -⟩
      · cases hnone
      · cases hfirst
        rw [waiting, List.cons_append, List.cons.injEq] at hwaiting
        obtain ⟨more, hmore⟩ : u.waiting x <+: v.waiting x :=
          ((reentry_respects s (R := World.Undisturbed x)).task task run).waiting
        have hthen : v.waiting x = tasks ++ (later ++ more) := by
          rw [← hmore, ← hwaiting.2, List.append_assoc]
        obtain ⟨deferred, hdeferred⟩ := ih hthen
        exact ⟨more ++ deferred, by rw [hdeferred, List.append_assoc]⟩

/-- If none waits in the end, those that waited at first have been run, before any others. -/
theorem waiting_prefix (h : Ran s x tasks w w') (empty : w'.waiting x = []) :
    w.waiting x <+: tasks := by
  induction h with
  | nil => exact empty ▸ List.prefix_rfl
  | @cons task tasks w u v w' turn run _ ih =>
      rcases nextTask_outcome turn with ⟨hnone, -⟩ | ⟨first, hfirst, hwaiting, -⟩
      · cases hnone
      · cases hfirst
        rw [hwaiting]
        have hkept : u.waiting x <+: v.waiting x :=
          ((reentry_respects s (R := World.Undisturbed x)).task task run).waiting
        exact (List.prefix_cons_inj task).mpr (hkept.trans (ih empty))

end Ran

/-- How an update of an element of type `actual` takes its turn among the tasks of a window. Those
before it are run first. By then the element is free; the update is carried out on it if that is the
type expected, and otherwise nothing happens. Then the others are run, and those that were deferred
meanwhile. -/
inductive Drains (s : Setting κ ρ) (x : WindowId) (e : ElementId) (actual expected : Kind)
    (call : Call κ BindingId) (reply : κ) (earlier later : List (Task κ)) :
    Nat → World κ ρ → World κ ρ → Prop
  | drained {depth : Nat} {element : Element κ} {deferred others : List (Task κ)}
      {v u u₁ u₂ v' : World κ ρ} (fuel : s.fuel = depth + 1) (before : Ran s x earlier v u)
      (turn : nextTask x u = .ok (some (.edit e expected call reply), u₁))
      (waiting : u₁.waiting x = later ++ deferred) (found : u₁.element? e = some element)
      (free : element.locked = false) (typed : element.body.kind = actual)
      (right : actual = expected →
        locking e (carryOut s.app (.ofFuel s.app depth) e call reply) u₁ = .ok ((), u₂))
      (wrong : actual ≠ expected → u₂ = u₁) (after : Ran s x (later ++ deferred ++ others) u₂ v')
      (idle : v'.waiting x = []) :
      Drains s x e actual expected call reply earlier later
        (earlier ++ .edit e expected call reply :: (later ++ deferred ++ others)).length v v'

/-- To run the tasks of a window is to have each of them take its turn. -/
theorem drains_of_runTasks {size : Size Float} {limit n : Nat} {element : Element κ}
    {expected : Kind} {call : Call κ BindingId} {reply : κ}
    (run : (stage s x size).runTasks limit w = .ok (n, w'))
    (waiting : w.waiting x = earlier ++ .edit e expected call reply :: later)
    (found : w.element? e = some element) :
    Drains s x e element.body.kind expected call reply earlier later n w w' := by
  obtain ⟨tasks, hran, rfl, hidle⟩ := ran_of_runTasks run
  obtain ⟨rest, rfl⟩ := hran.waiting_prefix hidle
  rw [waiting, List.append_assoc, List.cons_append] at hran ⊢
  obtain ⟨u, hbefore, hrest⟩ := hran.split
  cases hrest with
  | @cons _ _ _ u₁ u₂ _ turn run' after =>
      obtain ⟨deferred, hleft⟩ := hbefore.waiting_left waiting
      have hwaiting : u₁.waiting x = later ++ deferred := by
        rcases nextTask_outcome turn with ⟨hnone, -⟩ | ⟨first, -, hfirst, -⟩
        · cases hnone
        · rw [hleft, List.cons_append, List.cons.injEq] at hfirst
          exact hfirst.2.symm
      -- What was deferred before is run after those that waited from the start.
      have hkept : u₁.waiting x <+: u₂.waiting x :=
        ((reentry_respects s (R := World.Undisturbed x)).task _ run').waiting
      obtain ⟨others, hothers⟩ := hkept.trans (after.waiting_prefix hidle)
      obtain ⟨element', hfound, htyped⟩ :=
        (trans_of (World.SameKind e) hbefore.sameKind (Ran.sameKind_nextTask turn)).exists_element
          found
      cases hfuel : s.fuel with
      | zero =>
          rw [Setting.reentry, hfuel] at run'
          exact absurd run' (stop_ne_ok (w := u₁))
      | succ depth =>
          rw [Setting.reentry, hfuel] at run'
          have htask : runTask s.app (.ofFuel s.app depth) (.edit e expected call reply) u₁ =
              .ok ((), u₂) := run'
          have hfree : element'.locked = false := (locking_eq_ok hfound htask).1
          rw [hwaiting] at hothers
          rw [← hothers] at after ⊢
          exact Drains.drained hfuel hbefore turn hwaiting hfound hfree htyped
            (fun h => by rwa [runTask_edit_of_kind hfound (htyped.trans h)] at htask)
            (fun h => by
              rw [runTask_edit_of_ne hfound hfree (htyped ▸ h)] at htask
              exact (Prod.mk.inj (Except.ok.inj htask)).2.symm)
            after hidle

end Machine

open Machine

/-- What comes in a state of a handle on an element that is expected to be of a type. -/
structure Handle.Honoured (s : Setting κ ρ) (h : Handle) (e : ElementId) (expected : Kind)
    (element : Element κ) (w : World κ ρ) : Prop where
  /-- The element can be locked exactly if it is free and of the type. -/
  lock : canLock h w = .ok (!element.locked && decide (element.body.kind = expected), w)
  /-- If so, an update is carried out before it returns, and nothing waits. -/
  now : element.locked = false → element.body.kind = expected → ∀ depth call reply,
    update (.ofFuel s.app (depth + 1)) h call reply w =
      locking e (carryOut s.app (.ofFuel s.app depth) e call reply) w
  /-- An element of another type is left alone. -/
  refused : element.locked = false → element.body.kind ≠ expected → ∀ depth call reply,
    update (.ofFuel s.app (depth + 1)) h call reply w = .ok ((), w)
  /-- An update of an element that is busy is dropped without a window. -/
  dropped : element.locked = true → h.window = none → ∀ r call reply,
    update r h call reply w = .ok ((), w)
  /-- In a window it waits, behind those that do already, and takes its turn when they are run. -/
  waits : element.locked = true → ∀ x, h.window = some x → w.Queues x → ∀ r call reply, ∃ w',
    update r h call reply w = .ok ((), w') ∧ w.WindowOnly x w' ∧
      w'.waiting x = w.waiting x ++ [.edit e expected call reply] ∧
      ∀ v element' earlier later size limit n v', v.element? e = some element' →
        element'.body.kind = element.body.kind →
        v.waiting x = earlier ++ .edit e expected call reply :: later →
        (stage s x size).runTasks limit v = .ok (n, v') →
        Drains s x e element.body.kind expected call reply earlier later n v v'
  /-- Where no tasks wait it would wait for the element forever. -/
  stuck : element.locked = true → ∀ x, h.window = some x →
    (w.window? x).map (·.queues) = some false → ∀ depth call reply,
      update (.ofFuel s.app (depth + 1)) h call reply w = .error .deadlock

/-- A handle that names an element and a type, in any state. -/
theorem Handle.honoured {h : Handle} {element : Element κ}
    (found : w.element? h.element = some element) :
    h.Honoured s h.element h.kind element w where
  lock := by
    rw [canLock, bind_of_eq_ok (a := w) (v := w) rfl]
    simp only [found]
    cases element.locked <;> simp <;> rfl
  now free typed depth call reply :=
    (update_of_free found free).trans (runTask_edit_of_kind found typed)
  refused free other depth call reply :=
    (update_of_free found free).trans (runTask_edit_of_ne found free other)
  dropped busy windowless r call reply := update_of_windowless found busy windowless
  waits busy x window queues r call reply := by
    obtain ⟨w', hupdate, honly, hwaiting⟩ : ∃ w', update r h call reply w = .ok ((), w') ∧ _ :=
      update_of_queues found busy window queues
    refine ⟨w', hupdate, honly, hwaiting, ?_⟩
    intro v element' earlier later size limit n v' hfound htyped htasks run
    rw [← htyped]
    exact drains_of_runTasks run htasks hfound
  stuck busy x window unqueued depth call reply := by
    obtain ⟨kept, hkept, hunqueued⟩ := Option.map_eq_some_iff.mp unqueued
    have hhanded : handIn h call reply w = .ok ([.edit h.element h.kind call reply], w) := by
      rw [handIn_of_busy found busy, window]
      show enqueue x _ w = _
      rw [enqueue, bind_of_eq_ok (a := w) (v := w) rfl]
      simp only [hkept, hunqueued]
      rfl
    rw [update_of_handIn hhanded]
    exact bind_of_eq_error (locking_of_busy found busy)

/-- Every handle that is made on an element, while that is free or busy, is honoured in every later
state, whether the element is free or busy then. One that is free and of another type gets no
handle. -/
theorem Machine.handle?_honoured (s : Setting κ ρ) {made : Element κ}
    (found : w.element? e = some made) (expected : Kind) (given : Option WindowId) :
    handle? e expected w = .ok (
        if made.locked then some ⟨e, expected, none⟩
        else if made.body.kind = expected then some ⟨e, expected, made.window⟩ else none, w) ∧
      ∀ h, handle? e expected w = .ok (some h, w) → ∀ v element, v.element? e = some element →
        (h.withWindow given).Honoured s e expected element v := by
  have hmade : handle? e expected w = .ok (
      if made.locked then some ⟨e, expected, none⟩
      else if made.body.kind = expected then some ⟨e, expected, made.window⟩ else none, w) := by
    rw [handle?, bind_of_eq_ok (a := w) (v := w) rfl]
    simp only [found]
    split
    · rfl
    · split <;> rfl
  refine ⟨hmade, fun h hh v element hfound => ?_⟩
  -- Both ways in which a handle comes about name the element and the type.
  obtain ⟨rfl, rfl⟩ : h.element = e ∧ h.kind = expected := by
    rw [hmade, Except.ok.injEq, Prod.mk.injEq] at hh
    have hsome := hh.1
    split at hsome
    · cases hsome
      exact ⟨rfl, rfl⟩
    · split at hsome
      · cases hsome
        exact ⟨rfl, rfl⟩
      · cases hsome
  exact Handle.honoured (h := h.withWindow given) hfound

end Tasks

/-! ## A spacer that gets another id -/

/-- A setting where answers are written down. -/
def Setting.answering : Setting Nat Empty where
  app := { App.idle with reply := fun _ _ => .note "answered" (.done ()) }
  registry := {}
  fuel := 2

/-- A spacer, free or busy, in a window where tasks wait. -/
def World.spaced (busy : Bool) (tasks : List (Task Nat)) : World Nat Empty where
  elements := #[{ id := "now", window := some ⟨0⟩, body := .spacer Vec.zero, locked := busy }]
  windows := #[{ title := "spaced", tasks }]

/-- The update of a task that waits between two others. -/
def Task.renames : List (Task Nat) :=
  [.run 7, .edit ⟨0⟩ .spacer (.change (.setId "later")) 1, .run 8]

/-- An update that finds the spacer busy waits, and is carried out between the other tasks. A handle
that was made while it was busy, for a label, does nothing to it. -/
theorem Machine.handle?_honoured_spaced :
    (∃ w', update (.ofFuel Setting.answering.app 2) ⟨⟨0⟩, .spacer, some ⟨0⟩⟩
        (.change (.setId "later")) 1 (.spaced true [.run 7]) = .ok ((), w') ∧
      w'.waiting ⟨0⟩ = [.run 7, .edit ⟨0⟩ .spacer (.change (.setId "later")) 1]) ∧
    (∃ v', (stage .answering ⟨0⟩ Vec.zero).runTasks 8 (.spaced false Task.renames) = .ok (3, v') ∧
      Drains .answering ⟨0⟩ ⟨0⟩ .spacer .spacer (.change (.setId "later")) 1 [.run 7] [.run 8] 3
        (.spaced false Task.renames) v' ∧
      (v'.element? ⟨0⟩).map (·.id) = some "later" ∧ v'.history = [.note "answered"]) ∧
    update (.ofFuel Setting.answering.app 2) ⟨⟨0⟩, .label, some ⟨0⟩⟩ (.change (.setId "later")) 1
      (.spaced false []) = .ok ((), .spaced false []) := by
  have hfree := ((handle?_honoured .answering (w := .spaced false []) (e := ⟨0⟩) rfl .spacer none).2
    _ rfl (.spaced true [.run 7]) _ rfl).waits rfl ⟨0⟩ rfl rfl (.ofFuel Setting.answering.app 2)
    (.change (.setId "later")) 1
  have hbusy := (handle?_honoured .answering (w := .spaced true []) (e := ⟨0⟩) rfl .label
    (some ⟨0⟩)).2 _ rfl (.spaced false []) _ rfl
  obtain ⟨w', hupdate, -, hwaiting, hturn⟩ := hfree
  obtain ⟨v', hrun, hid, hhistory⟩ : ∃ v',
      (stage .answering ⟨0⟩ Vec.zero).runTasks 8 (.spaced false Task.renames) = .ok (3, v') ∧
      (v'.element? ⟨0⟩).map (·.id) = some "later" ∧ v'.history = [.note "answered"] :=
    ⟨_, rfl, rfl, rfl⟩
  refine ⟨⟨w', hupdate, hwaiting⟩, ⟨v', hrun, ?_, hid, hhistory⟩, ?_⟩
  · exact hturn (.spaced false Task.renames) _ [.run 7] [.run 8] Vec.zero 8 3 v' rfl rfl rfl hrun
  · exact hbusy.refused rfl (by decide) 1 (.change (.setId "later")) 1

end Trellis
