import Mathlib.Logic.Relation
import Trellis.Proofs.Notification.Still

/-!
# Runs, one step at a time

`Program.run` and the rounds it starts call each other to any depth. Here the same run is taken
apart: what is left to do is a stack of duties, and the topmost duty is discharged in one step that
may put others on top of it. So every state that a run passes through can be spoken of.

* `Duty.discharge` — what one step does.
* `Moment.Next`, `Reaches` — one step and any number of them, on a stack and a state.
* `Reentry.ofFuel_faithful` — a run that ends is a sequence of such steps.
-/

namespace Trellis

variable {κ ρ : Type}

/-- What is left to do. -/
inductive Duty (κ ρ : Type)
  /-- To run a callback, or what is left of it. -/
  | run (program : Program κ ρ Unit)
  /-- To go on with the rounds of a binding. The watchers are those left to call in this round. -/
  | rounds (b : BindingId) (watchers : List WatcherId)
  /-- To end the call of a watcher for a binding, and to go on with its rounds then. -/
  | release (x : WatcherId) (b : BindingId) (watchers : List WatcherId)
  | task (task : Task κ)
  | unlock (e : ElementId)

namespace Machine

variable [Ordered ρ]

/-- Sets a binding. Answers whether it changed, and the rounds that are to begin then. -/
def assign (b : BindingId) (content : Content ρ) : Machine κ ρ (Bool × List (Duty κ ρ)) := do
  if ← store b content then
    if ← announce b then pure (true, [.rounds b []])
    else pure (true, [])
  else pure (false, [])

/-- Sets a binding to the copy of a mirror if that was edited. Answers as `assign` does. -/
def assignEdit (x : WatcherId) (b : BindingId) : Machine κ ρ (Bool × List (Duty κ ρ)) := do
  match ← takeEdit x with
  | some value => assign b (.one value)
  | none => pure (false, [])

end Machine

/-- The first step of a callback. Answers what is left to do. -/
def Program.advance [Ordered ρ] : Program κ ρ Unit → Machine κ ρ (List (Duty κ ρ))
  | .done _ => pure []
  | .note line next => do Machine.note line; pure [.run next]
  | .read b next => do
    pure [.run (next (((← get).binding? b).map fun binding => (binding.name, binding.content)))]
  | .set b content next => do
    let (changed, rounds) ← Machine.assign b content
    pure (rounds ++ [.run (next changed)])
  | .watch w b next => do Machine.watch w b; pure [.run next]
  | .unwatch w b next => do Machine.unwatch w b; pure [.run next]
  | .drop w next => do Machine.drop w; pure [.run next]
  | .keeps x next => do pure [.run (next ((← get).keeps x))]
  | .attach m b next => do Machine.attach m b; pure [.run next]
  | .edit m value next => do Machine.editMirror m value; pure [.run next]
  | .writeBack m b next => do
    let (changed, rounds) ← Machine.assignEdit m b
    pure (rounds ++ [.run (next changed)])
  | .invalidate window next => do Machine.invalidate (some window); pure [.run next]
  | .title window next => do
    pure [.run (next (((← get).window? window).map (·.title) |>.getD ""))]
  | .defer window code next => do
    let tasks ← Machine.enqueue window (.run code)
    pure (tasks.map .task ++ [.run next])
  | .send event next => do Machine.send event; pure [.run next]
  | .find id next => do
    let w ← get
    pure [.run (next (w.find? w.scope id))]
  | .handle element kind next => do pure [.run (next (← Machine.handle? element kind))]
  | .tryLock h next => do pure [.run (next (← Machine.canLock h))]
  | .update h call reply next => do
    let tasks ← Machine.handIn h call reply
    pure (tasks.map .task ++ [.run next])

/-- Discharges a duty. Answers what that leaves to do. -/
def Duty.discharge [Ordered ρ] (app : App κ ρ) : Duty κ ρ → Machine κ ρ (List (Duty κ ρ))
  | .run program => program.advance
  | .rounds b [] => do
    if (((← get).binding? b).map (·.pending)).getD false then
      pure [.rounds b (← Machine.beginRound b)]
    else
      Machine.settle b
      pure []
  | .rounds b (x :: rest) => do
    pure [.run (← Machine.call app x b), .release x b rest]
  | .release x b rest => do Machine.release x b; pure [.rounds b rest]
  | .task (.run code) => pure [.run (app.task code)]
  | .task (.edit e kind call reply) => do
    Machine.lock e
    pure [.run (← Machine.edit app e kind call reply), .unlock e]
  | .unlock e => do Machine.unlock e; pure []

/-- A point of a run: what is left to do, the most urgent first, and the state. -/
structure Moment (κ ρ : Type) where
  agenda : List (Duty κ ρ)
  world : World κ ρ

variable [Ordered ρ] {app : App κ ρ} {r : Reentry κ ρ} {w w' : World κ ρ}

/-- One step: the topmost duty is discharged. -/
inductive Moment.Next (app : App κ ρ) : Moment κ ρ → Moment κ ρ → Prop
  | discharge {duty : Duty κ ρ} {rest left : List (Duty κ ρ)} {w w' : World κ ρ}
      (run : duty.discharge app w = .ok (left, w')) :
      Next app ⟨duty :: rest, w⟩ ⟨left ++ rest, w'⟩

/-- Any number of steps. -/
abbrev Reaches (app : App κ ρ) : Moment κ ρ → Moment κ ρ → Prop :=
  Relation.ReflTransGen (Moment.Next app)

open Machine

/-- A first step and the steps after it. -/
theorem Reaches.of_discharge {duty : Duty κ ρ} {left rest : List (Duty κ ρ)} {v : World κ ρ}
    {c : Moment κ ρ} (first : duty.discharge app w = .ok (left, v))
    (later : Reaches app ⟨left ++ rest, v⟩ c) : Reaches app ⟨duty :: rest, w⟩ c :=
  .head (.discharge first) later

/-- Runs go one way only. -/
theorem Moment.Next.deterministic {c d d' : Moment κ ρ} (h : Next app c d) (h' : Next app c d') :
    d = d' := by
  obtain ⟨run⟩ := h
  obtain ⟨run'⟩ := h'
  rw [run, Except.ok.injEq, Prod.mk.injEq] at run'
  obtain ⟨rfl, rfl⟩ := run'
  rfl

/-- A run that ends passes through all that can be reached from its start. -/
theorem Reaches.to_end {c d : Moment κ ρ} (h : Reaches app c d) (hend : Reaches app c ⟨[], w'⟩) :
    Reaches app d ⟨[], w'⟩ := by
  induction h using Relation.ReflTransGen.head_induction_on with
  | refl => exact hend
  | head hstep _ ih =>
      rcases hend.cases_head with rfl | ⟨e, hstep', hend'⟩
      · cases hstep
      · rw [← hstep.deterministic hstep'] at hend'
        exact ih hend'

/-- With nothing to do there are no steps. -/
theorem Reaches.eq_of_nil (h : Reaches app ⟨[], w⟩ ⟨[], w'⟩) : w' = w := by
  rcases h.cases_head with heq | ⟨_, hnext, -⟩
  · cases heq
    rfl
  · cases hnext

/-- Parts that are each what a duty is, one after another. -/
theorem Reaches.each {α : Type} {part : α → Machine κ ρ Unit} {duty : α → Duty κ ρ}
    (h : ∀ a ⦃w w'⦄, part a w = .ok ((), w') → ∀ rest, Reaches app ⟨duty a :: rest, w⟩ ⟨rest, w'⟩)
    {as : List α} (run : as.forM part w = .ok ((), w')) (rest : List (Duty κ ρ)) :
    Reaches app ⟨as.map duty ++ rest, w⟩ ⟨rest, w'⟩ := by
  induction as generalizing w with
  | nil =>
      obtain ⟨-, rfl⟩ := pure_eq_ok.mp run
      exact .refl
  | cons a as ih =>
      obtain ⟨_, v, hfirst, hlater⟩ := bind_eq_ok.mp run
      exact (h a hfirst _).trans (ih hlater)

/-! ## Runs are sequences of steps -/

/-- What a callback starts is what the steps do. -/
structure Reentry.Faithful (app : App κ ρ) (r : Reentry κ ρ) : Prop where
  notify : ∀ {b : BindingId} {w w' : World κ ρ}, r.notify b w = .ok ((), w') →
    ∃ begins v, announce b w = .ok (begins, v) ∧
      ∀ rest, Reaches app ⟨(if begins then [.rounds b []] else []) ++ rest, v⟩ ⟨rest, w'⟩
  task : ∀ {task : Task κ} {w w' : World κ ρ}, r.task task w = .ok ((), w') →
    ∀ rest, Reaches app ⟨.task task :: rest, w⟩ ⟨rest, w'⟩

namespace Reentry.Faithful

theorem tasks (hr : r.Faithful app) {tasks : List (Task κ)}
    (h : tasks.forM r.task w = .ok ((), w')) (rest : List (Duty κ ρ)) :
    Reaches app ⟨tasks.map .task ++ rest, w⟩ ⟨rest, w'⟩ :=
  .each (fun _ _ _ run => hr.task run) h rest

theorem setContent (hr : r.Faithful app) {b : BindingId} {content : Content ρ} {changed : Bool}
    (h : setContent r b content w = .ok (changed, w')) :
    ∃ rounds v, assign b content w = .ok ((changed, rounds), v) ∧
      ∀ rest, Reaches app ⟨rounds ++ rest, v⟩ ⟨rest, w'⟩ := by
  obtain ⟨stored, u, hstore, h⟩ := bind_eq_ok.mp h
  cases stored with
  | false =>
      obtain ⟨rfl, rfl⟩ := pure_eq_ok.mp h
      exact ⟨[], u, bind_eq_ok.mpr ⟨false, u, hstore, rfl⟩, fun _ => .refl⟩
  | true =>
      obtain ⟨_, v', hnotify, h⟩ := bind_eq_ok.mp h
      obtain ⟨rfl, rfl⟩ := pure_eq_ok.mp h
      obtain ⟨begins, v, hannounce, hreach⟩ := hr.notify hnotify
      cases begins with
      | false =>
          exact ⟨[], v, bind_eq_ok.mpr ⟨true, u, hstore, bind_eq_ok.mpr ⟨false, v, hannounce, rfl⟩⟩,
            hreach⟩
      | true =>
          exact ⟨[.rounds b []], v,
            bind_eq_ok.mpr ⟨true, u, hstore, bind_eq_ok.mpr ⟨true, v, hannounce, rfl⟩⟩, hreach⟩

theorem writeBack (hr : r.Faithful app) {x : WatcherId} {b : BindingId} {changed : Bool}
    (h : writeBack r x b w = .ok (changed, w')) :
    ∃ rounds v, assignEdit x b w = .ok ((changed, rounds), v) ∧
      ∀ rest, Reaches app ⟨rounds ++ rest, v⟩ ⟨rest, w'⟩ := by
  obtain ⟨taken, u, htake, h⟩ := bind_eq_ok.mp h
  cases taken with
  | none =>
      obtain ⟨rfl, rfl⟩ := pure_eq_ok.mp h
      exact ⟨[], u, bind_eq_ok.mpr ⟨none, u, htake, rfl⟩, fun _ => .refl⟩
  | some value =>
      obtain ⟨rounds, v, hassign, hreach⟩ := hr.setContent h
      exact ⟨rounds, v, bind_eq_ok.mpr ⟨some value, u, htake, hassign⟩, hreach⟩

/-- A callback that ends. The induction is on what is left of it. -/
theorem run (hr : r.Faithful app) {program : Program κ ρ Unit}
    (h : program.run r w = .ok ((), w')) (rest : List (Duty κ ρ)) :
    Reaches app ⟨.run program :: rest, w⟩ ⟨rest, w'⟩ := by
  induction program generalizing w with
  | done answer =>
      obtain ⟨-, rfl⟩ := pure_eq_ok.mp h
      exact Reaches.of_discharge (pure_eq_ok.mpr ⟨rfl, rfl⟩) .refl
  | note line next ih | watch x b next ih | unwatch x b next ih | drop x next ih
  | attach m b next ih | edit m value next ih | invalidate window next ih | send event next ih =>
      obtain ⟨_, v, hfirst, hlater⟩ := bind_eq_ok.mp h
      exact Reaches.of_discharge (bind_eq_ok.mpr ⟨_, v, hfirst, rfl⟩) (ih hlater)
  -- What is answered goes into the rest of the program.
  | read b next ih | keeps x next ih | title window next ih | find id next ih
  | handle e kind next ih | tryLock handle next ih =>
      obtain ⟨_, v, hfirst, hlater⟩ := bind_eq_ok.mp h
      exact Reaches.of_discharge (bind_eq_ok.mpr ⟨_, v, hfirst, rfl⟩) (ih _ hlater)
  | set b content next ih =>
      obtain ⟨changed, u, hset, hlater⟩ := bind_eq_ok.mp h
      obtain ⟨rounds, v, hassign, hreach⟩ := hr.setContent hset
      refine Reaches.of_discharge (bind_eq_ok.mpr ⟨(changed, rounds), v, hassign, rfl⟩) ?_
      rw [List.append_assoc]
      exact (hreach _).trans (ih _ hlater)
  | writeBack m b next ih =>
      obtain ⟨changed, u, hset, hlater⟩ := bind_eq_ok.mp h
      obtain ⟨rounds, v, hassign, hreach⟩ := hr.writeBack hset
      refine Reaches.of_discharge (bind_eq_ok.mpr ⟨(changed, rounds), v, hassign, rfl⟩) ?_
      rw [List.append_assoc]
      exact (hreach _).trans (ih _ hlater)
  | defer window code next ih =>
      obtain ⟨_, u, hdefer, hlater⟩ := bind_eq_ok.mp h
      obtain ⟨tasks, v, hfirst, htasks⟩ := bind_eq_ok.mp hdefer
      refine Reaches.of_discharge (bind_eq_ok.mpr ⟨tasks, v, hfirst, rfl⟩) ?_
      rw [List.append_assoc]
      exact (hr.tasks htasks _).trans (ih hlater)
  | update handle call reply next ih =>
      obtain ⟨_, u, hupdate, hlater⟩ := bind_eq_ok.mp h
      obtain ⟨tasks, v, hfirst, htasks⟩ := bind_eq_ok.mp hupdate
      refine Reaches.of_discharge (bind_eq_ok.mpr ⟨tasks, v, hfirst, rfl⟩) ?_
      rw [List.append_assoc]
      exact (hr.tasks htasks _).trans (ih hlater)

theorem callEach (hr : r.Faithful app) {b : BindingId} {watchers : List WatcherId}
    (h : callEach app r b watchers w = .ok ((), w')) (rest : List (Duty κ ρ)) :
    Reaches app ⟨.rounds b watchers :: rest, w⟩ ⟨.rounds b [] :: rest, w'⟩ := by
  induction watchers generalizing w with
  | nil =>
      obtain ⟨-, rfl⟩ := pure_eq_ok.mp h
      exact .refl
  | cons x watchers ih =>
      obtain ⟨program, v, hcall, h⟩ := bind_eq_ok.mp h
      obtain ⟨_, v', hrun, h⟩ := bind_eq_ok.mp h
      obtain ⟨_, v'', hrelease, h⟩ := bind_eq_ok.mp h
      refine Reaches.of_discharge (bind_eq_ok.mpr ⟨program, v, hcall, rfl⟩) ?_
      refine (hr.run hrun _).trans ?_
      exact Reaches.of_discharge (bind_eq_ok.mpr ⟨_, v'', hrelease, rfl⟩) (ih h)

/-- Rounds of a binding until no change is left. The induction is on the rounds allowed. -/
theorem drain (hr : r.Faithful app) {rounds : Nat} {b : BindingId}
    (h : drain app r rounds b w = .ok ((), w')) (rest : List (Duty κ ρ)) :
    Reaches app ⟨.rounds b [] :: rest, w⟩ ⟨.rounds b [] :: rest, w'⟩ ∧
      ((w'.binding? b).map (·.pending)).getD false = false := by
  induction rounds generalizing w with
  | zero =>
      replace h := get_bind_eq_ok.mp h
      split at h
      · exact absurd h stop_ne_ok
      · next hpending =>
          obtain ⟨-, rfl⟩ := pure_eq_ok.mp h
          exact ⟨.refl, by simpa using hpending⟩
  | succ rounds ih =>
      replace h := get_bind_eq_ok.mp h
      split at h
      · next hpending =>
          obtain ⟨_, v, hround, h⟩ := bind_eq_ok.mp h
          obtain ⟨watchers, u, hbegin, hcalls⟩ := bind_eq_ok.mp hround
          obtain ⟨hreach, hdone⟩ := ih h
          -- The duty at hand stands for the rounds that are still to come.
          have hstep : (Duty.rounds b []).discharge app w = .ok ([.rounds b watchers], u) := by
            refine bind_eq_ok.mpr ⟨w, w, get_eq_ok.mpr ⟨rfl, rfl⟩, ?_⟩
            rw [if_pos hpending]
            exact bind_eq_ok.mpr ⟨watchers, u, hbegin, rfl⟩
          exact ⟨Reaches.of_discharge hstep ((hr.callEach hcalls _).trans hreach), hdone⟩
      · next hpending =>
          obtain ⟨-, rfl⟩ := pure_eq_ok.mp h
          exact ⟨.refl, by simpa using hpending⟩

theorem notify' (hr : r.Faithful app) {rounds : Nat} {b : BindingId}
    (h : Machine.notify app r rounds b w = .ok ((), w')) :
    ∃ begins v, announce b w = .ok (begins, v) ∧
      ∀ rest, Reaches app ⟨(if begins then [.rounds b []] else []) ++ rest, v⟩ ⟨rest, w'⟩ := by
  obtain ⟨begins, v, hannounce, h⟩ := bind_eq_ok.mp h
  refine ⟨begins, v, hannounce, fun rest => ?_⟩
  cases begins with
  | false =>
      obtain ⟨-, rfl⟩ := pure_eq_ok.mp h
      exact .refl
  | true =>
      obtain ⟨_, u, hdrain, hsettle⟩ := bind_eq_ok.mp h
      obtain ⟨hreach, hdone⟩ := hr.drain hdrain rest
      -- Draining left no change to tell, so the last step is to settle.
      have hstep : (Duty.rounds b []).discharge app u = .ok ([], w') := by
        refine bind_eq_ok.mpr ⟨u, u, get_eq_ok.mpr ⟨rfl, rfl⟩, ?_⟩
        rw [if_neg (by simp [hdone])]
        exact bind_eq_ok.mpr ⟨_, w', hsettle, rfl⟩
      exact hreach.trans (Reaches.of_discharge hstep .refl)

theorem runTask (hr : r.Faithful app) {task : Task κ} (h : runTask app r task w = .ok ((), w'))
    (rest : List (Duty κ ρ)) : Reaches app ⟨.task task :: rest, w⟩ ⟨rest, w'⟩ := by
  cases task with
  | run code => exact Reaches.of_discharge (pure_eq_ok.mpr ⟨rfl, rfl⟩) (hr.run h rest)
  | edit e kind call reply =>
      obtain ⟨_, u, hlock, h⟩ := bind_eq_ok.mp h
      obtain ⟨_, v, hpart, h⟩ := bind_eq_ok.mp h
      obtain ⟨_, v', hunlock, h⟩ := bind_eq_ok.mp h
      obtain ⟨-, rfl⟩ := pure_eq_ok.mp h
      obtain ⟨program, u', hedit, hrun⟩ := bind_eq_ok.mp hpart
      refine Reaches.of_discharge
        (bind_eq_ok.mpr ⟨_, u, hlock, bind_eq_ok.mpr ⟨program, u', hedit, rfl⟩⟩) ?_
      exact (hr.run hrun _).trans (Reaches.of_discharge (bind_eq_ok.mpr ⟨_, v', hunlock, rfl⟩) .refl)

end Reentry.Faithful

/-- Whatever the fuel, a run that ends is a sequence of steps. -/
theorem Reentry.ofFuel_faithful (app : App κ ρ) (fuel : Nat) :
    (Reentry.ofFuel app fuel).Faithful app := by
  induction fuel with
  -- Without fuel nothing that is started ends.
  | zero =>
      refine ⟨?_, ?_⟩
      · intro b w w' h
        exact absurd h (stop_ne_ok (w := w))
      · intro task w w' h
        exact absurd h (stop_ne_ok (w := w))
  | succ fuel ih => exact ⟨ih.notify', ih.runTask⟩

/-- A binding that is set from outside of any callback. -/
theorem Reaches.of_setContent {fuel : Nat} {b : BindingId} {content : Content ρ} {changed : Bool}
    (run : setContent (.ofFuel app fuel) b content w = .ok (changed, w')) :
    Reaches app ⟨[.run (.set b content fun _ => .done ())], w⟩ ⟨[], w'⟩ := by
  have hrun : (Program.set b content fun _ => .done ()).run (.ofFuel app fuel) w = .ok ((), w') :=
    bind_eq_ok.mpr ⟨changed, w', run, rfl⟩
  exact (Reentry.ofFuel_faithful app fuel).run hrun []

end Trellis
