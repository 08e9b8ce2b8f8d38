import Trellis.Proofs.Frame.Unfold
import Trellis.Proofs.Watching.Steps

/-!
# The list of a binding at any time

Watchers are registered and removed, bindings are set and watchers let go of in any order, also
while a round calls them. Whatever has happened to a binding since it was added, its list is told by
what was done to it.

* `World.Tracked` — what the log of a list tells of the state.
* `Past` — what may have happened since a binding was added, with the log of that.
* `Past.course`, `Past.run` — what frames and callbacks make of it.
* `World.Enrolled`, `Past.enrolled` — who is on the list, and in which order.
-/

namespace Trellis

open Machine

variable {κ ρ : Type} {b : BindingId} {x : WatcherId} {log now : List Deed}
  {w w' : World κ ρ}

/-! ## What a log tells -/

/-- The list of a binding is what the log makes of it. Everybody who was ever on it is still there,
and the application's own watchers that a round has found gone are gone for good, though they may be
on the list again. -/
structure World.Tracked (b : BindingId) (log : List Deed) (w : World κ ρ) : Prop where
  roll : w.roll? b = some (Deed.replay log [])
  there : ∀ x, .watch x ∈ log ∨ Deed.Lost log x → (w.watcher? x).isSome
  lost : ∀ x, Deed.Lost log x → w.Own x → w.Forsaken x

namespace World.Tracked

/-- Nothing has been done to the list of a new binding. -/
theorem nil (fresh : w.roll? b = some []) : w.Tracked b [] where
  roll := fresh
  there x hx := by simp [Deed.Lost] at hx
  lost x hx := by simp [Deed.Lost] at hx

/-- Whoever is on the list is there. -/
theorem isSome_of_mem (h : w.Tracked b log) (listed : x ∈ Deed.replay log []) :
    (w.watcher? x).isSome :=
  h.there x (.inl ((Deed.mem_replay listed).resolve_left List.not_mem_nil))

/-- Further deeds are done. A round among them drops those who are gone when it begins. -/
theorem entered (h : w.Tracked b log) (entered : w.Entered b now w')
    (departed : ∀ gone, .round gone ∈ now → gone = w.departed b) : w'.Tracked b (log ++ now) := by
  have hgone {x : WatcherId} {gone : List WatcherId} (hround : .round gone ∈ now)
      (hx : x ∈ gone) : x ∈ Deed.replay log [] ∧ w.watcherAlive x = false := by
    rw [departed gone hround, World.departed, h.roll] at hx
    simpa using hx
  refine ⟨?_, fun x hx => ?_, ?_⟩
  · rw [entered.roll, h.roll, Option.map_some, Deed.replay_append]
  · rcases hx with hx | ⟨gone, hround, hx⟩
    · rcases List.mem_append.mp hx with hx | hx
      · exact entered.isSome (h.there x (.inl hx))
      · exact entered.watched x hx
    · rcases List.mem_append.mp hround with hround | hround
      · exact entered.isSome (h.there x (.inr ⟨gone, hround, hx⟩))
      · exact entered.isSome (h.isSome_of_mem (hgone hround hx).1)
  · rintro x ⟨gone, hround, hx⟩ hown
    apply entered.forsaken
    rcases List.mem_append.mp hround with hround | hround
    · have hlost : Deed.Lost log x := ⟨gone, hround, hx⟩
      exact h.lost x hlost (entered.own (h.there x (.inr hlost)) hown)
    · obtain ⟨hlisted, hdead⟩ := hgone hround hx
      exact World.forsaken_iff.mpr ⟨entered.own (h.isSome_of_mem hlisted) hown, hdead⟩

end World.Tracked

/-! ## Everything that may happen -/

variable [Ordered ρ] {app : App κ ρ} {acts : List (Act κ ρ)} {ctx : EventContext}
  {window : WindowId}

/-- What may have happened since a binding was added: what was done to its list, what is left to do,
and the state. Anything may be started at any time, and be under way when the next thing is. -/
inductive Past (app : App κ ρ) (b : BindingId) : List Deed → List (Act κ ρ) → World κ ρ → Prop
  /-- The binding is added. Nobody is on its list. -/
  | start {w : World κ ρ} (fresh : w.roll? b = some []) : Past app b [] [] w
  /-- Callbacks and frames are begun. -/
  | begins {log : List Deed} {acts : List (Act κ ρ)} {w : World κ ρ} (more : List (Act κ ρ))
      (past : Past app b log acts w) : Past app b log (more ++ acts) w
  /-- The next act is done. -/
  | act {log : List Deed} {act : Act κ ρ} {rest left : List (Act κ ρ)} {w w' : World κ ρ}
      {ctx : EventContext} {window : WindowId} (past : Past app b log (act :: rest) w)
      (run : act.perform app ctx window w = .ok (left, w')) :
      Past app b (log ++ act.deeds b w) (left ++ rest) w'
  /-- An element is made, which may follow the binding from the start. -/
  | create {log : List Deed} {acts : List (Act κ ρ)} {w w' : World κ ρ} {window : Option WindowId}
      {plan : Blueprint κ ρ} {e : ElementId} (past : Past app b log acts w)
      (run : create window plan w = .ok (e, w')) : Past app b (log ++ plan.deeds b w) acts w'
  /-- Something else happens. The list is what it was, and the application gets nobody back whom it
  has let go of. -/
  | aside {log : List Deed} {acts : List (Act κ ρ)} {w w' : World κ ρ}
      (past : Past app b log acts w) (entered : w.Entered b [] w') : Past app b log acts w'

/-- The log tells who is on the list. The induction is on what has happened. -/
theorem Past.tracked (past : Past app b log acts w) : w.Tracked b log := by
  induction past with
  | start fresh => exact .nil fresh
  | begins more _ ih => exact ih
  | act _ run ih => exact ih.entered (Act.perform_entered run) fun _ => Act.eq_departed
  | create _ run ih =>
      refine ih.entered (Machine.create_entered run) fun gone hround => ?_
      simp [Blueprint.deeds] at hround
  | aside _ entered ih =>
      have htracked := ih.entered entered fun gone hround => absurd hround List.not_mem_nil
      rwa [List.append_nil] at htracked

/-! ## What callbacks and frames make of a past -/

/-- What so many acts do to the list of a binding. -/
def Scene.deeds (app : App κ ρ) (ctx : EventContext) (window : WindowId) (b : BindingId) :
    Nat → Scene κ ρ → List Deed
  | 0, _ => []
  | acts + 1, c =>
    match c.step? app ctx window with
    | some d => c.acts.head?.elim [] (·.deeds b c.world) ++ d.deeds app ctx window b acts
    | none => []

/-- What comes of so many acts can be computed, and so can the log. -/
theorem Past.after {c : Scene κ ρ} (past : Past app b log c.acts c.world) (n : Nat) :
    Past app b (log ++ c.deeds app ctx window b n) (c.after app ctx window n).acts
      (c.after app ctx window n).world := by
  induction n generalizing c log with
  | zero => simpa [Scene.deeds, Scene.after] using past
  | succ n ih =>
      unfold Scene.deeds Scene.after
      cases hstep : c.step? app ctx window with
      | none => simpa using past
      | some d =>
          obtain ⟨hact⟩ := Scene.step?_eq_some hstep
          rw [← List.append_assoc]
          exact ih (past.act hact)

/-- Acts of a frame, and the callbacks that run in between. -/
theorem Past.course {c d : Scene κ ρ} (past : Past app b log c.acts c.world)
    (run : Course app ctx window c d) : ∃ later, Past app b (log ++ later) d.acts d.world := by
  obtain ⟨n, rfl⟩ := run.exists_after
  exact ⟨_, past.after n⟩

/-- A callback that runs to its end, with all that it sets off. -/
theorem Past.run {fuel : Nat} {program : Program κ ρ Unit} (past : Past app b log acts w)
    (run : program.run (.ofFuel app fuel) w = .ok ((), w')) :
    ∃ later, Past app b (log ++ later) acts w' := by
  have hleads : Leads app {} ⟨0⟩ [.run program] w w' := .run run
  obtain ⟨_, _, hcourse⟩ := hleads acts [] []
  exact (past.begins [.run program] : Past app b log (Scene.mk _ w [] []).acts w).course hcourse

/-! ## Who is on the list -/

/-- The list of a binding, its log and the state agree. -/
structure World.Enrolled (w : World κ ρ) (b : BindingId) (log : List Deed)
    (roll : List WatcherId) : Prop extends Deed.Accounts log roll where
  /-- Unless a round has found it gone, a watcher has its place since it was first registered after
  it was last removed. -/
  first : ∀ x i, ¬ Deed.Lost log x →
    (Deed.Since (Deed.Strikes x) log x i ↔ Deed.Since (· = .unwatch x) log x i)
  /-- A round that finds a watcher gone takes its place. If it is registered again all the same, it
  gets a place after that round. -/
  later : ∀ x i j gone, Deed.Since (Deed.Strikes x) log x i → log[j]? = some (.round gone) →
    x ∈ gone → j < i
  /-- A watcher of the application that a round has found gone never comes back to life. -/
  lost : ∀ x, w.Own x → Deed.Lost log x → w.watcherAlive x = false
  /-- Whoever is alive, was registered and was not removed since is on the list, unless a round has
  found it gone in between. Only an element that is put up again brings back its watcher then. -/
  live : ∀ (x : WatcherId) (i : Nat), w.watcherAlive x = true → log[i]? = some (Deed.watch x) →
    (∀ j, i < j → log[j]? ≠ some (Deed.unwatch x)) →
    (w.Own x ∨ ∀ j gone, i < j → log[j]? = some (Deed.round gone) → x ∉ gone) → x ∈ roll
  /-- A round that begins leaves those on the list who are alive then, and is to call them. -/
  snapshot : ∃ u, beginRound b w = .ok (roll.filter w.watcherAlive, u) ∧
    u.roll? b = some (roll.filter w.watcherAlive)

/-- Whatever has happened, the list of a binding agrees with what was done to it. -/
theorem Past.enrolled (past : Past app b log acts w) :
    ∃ roll, w.roll? b = some roll ∧ w.Enrolled b log roll := by
  have htracked := past.tracked
  have haccounts := Deed.accounts_replay log
  have hlost (x : WatcherId) (hown : w.Own x) (hx : Deed.Lost log x) : w.watcherAlive x = false :=
    (World.forsaken_iff.mp (htracked.lost x hx hown)).2
  refine ⟨_, htracked.roll, haccounts, fun x i => Deed.since_of_not_lost,
    fun x i j gone hplace hround hx => hplace.lt_of_strikes hround hx, hlost, ?_, ?_⟩
  · intro x i halive hwatched hkept hfound
    refine haccounts.mem_of_watched hwatched fun j d hij hj hstrikes => ?_
    cases d with
    | watch y => exact hstrikes
    | unwatch y => exact hkept j hij (by rw [hj, show y = x from hstrikes])
    | round gone =>
        rcases hfound with hown | hfound
        · have hx : Deed.Lost log x := ⟨gone, List.mem_of_getElem? hj, hstrikes⟩
          rw [hlost x hown hx] at halive
          cases halive
        · exact hfound j gone hij hj hstrikes
  · obtain ⟨binding, hbinding, hroll⟩ := Option.map_eq_some_iff.mp htracked.roll
    have hlisteners : w.listeners b = (Deed.replay log []).filter w.watcherAlive := by
      rw [World.listeners, hbinding, ← hroll]
      rfl
    have hbegins : beginRound b w = .ok (w.listeners b, w.inRound b) := rfl
    refine ⟨w.inRound b, by rw [hbegins, hlisteners], ?_⟩
    rw [World.roll?, World.binding?_inRound_self, hbinding, ← hroll]
    rfl

/-! ## A watcher that comes and goes during a round -/

namespace App

/-- An application whose first watcher, when it is called, has itself removed and registered again,
and lets go of the second one in between. -/
def restless : App Bool Empty :=
  { App.idle with
    watcher := fun leads b =>
      if leads then .unwatch ⟨0⟩ b (.drop ⟨1⟩ (.watch ⟨0⟩ b (.done ()))) else .done () }

/-- Three watchers are registered, the first one twice, and the binding is set two times. The second
one is registered again after that. -/
def gathering (b : BindingId) : Program Bool Empty Unit :=
  .watch ⟨0⟩ b <| .watch ⟨1⟩ b <| .watch ⟨2⟩ b <| .watch ⟨0⟩ b <|
    .set b (.one (.int 1)) fun _ => .set b (.one (.int 2)) fun _ => .watch ⟨1⟩ b (.done ())

end App

/-- A new binding, and three watchers that it does not list yet. -/
def World.unlisted : World Bool Empty where
  bindings := #[{ name := "count", content := .one (.int 0) }]
  watchers := #[{ watcher := .callback true }, { watcher := .callback false },
    { watcher := .callback false }]

/-- The first watcher comes after the third in the end. The second one is dropped by the second
round, and stands last when it is registered again, dead as it is. -/
theorem Past.enrolled_restless : ∃ w log,
    log = [.watch ⟨0⟩, .watch ⟨1⟩, .watch ⟨2⟩, .watch ⟨0⟩, .round [], .unwatch ⟨0⟩, .watch ⟨0⟩,
      .round [⟨1⟩], .unwatch ⟨0⟩, .watch ⟨0⟩, .watch ⟨1⟩] ∧
    Past App.restless ⟨0⟩ log [] w ∧ w.watcherAlive ⟨1⟩ = false ∧
    w.roll? ⟨0⟩ = some [⟨2⟩, ⟨0⟩, ⟨1⟩] ∧ w.Enrolled ⟨0⟩ log [⟨2⟩, ⟨0⟩, ⟨1⟩] := by
  let c : Scene Bool Empty := { acts := [.run (App.gathering ⟨0⟩)], world := World.unlisted }
  let d := c.after App.restless {} ⟨0⟩ 40
  have hpast : Past App.restless ⟨0⟩ ([] ++ c.deeds App.restless {} ⟨0⟩ ⟨0⟩ 40) d.acts d.world :=
    .after (.begins c.acts (.start rfl)) 40
  have hdone : d.acts = [] := List.isEmpty_iff.mp (by decide +kernel)
  have hroll : d.world.roll? ⟨0⟩ = some [⟨2⟩, ⟨0⟩, ⟨1⟩] := by decide +kernel
  rw [hdone] at hpast
  obtain ⟨roll, hfound, henrolled⟩ := Past.enrolled hpast
  rw [hroll, Option.some.injEq] at hfound
  subst hfound
  exact ⟨d.world, _, by decide +kernel, hpast, by decide +kernel, hroll, henrolled⟩

end Trellis
