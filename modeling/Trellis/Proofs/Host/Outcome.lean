import Trellis.Proofs.Host.Ledger
import Trellis.Proofs.Host.Undisturbed

/-!
# What frames and closing write into the ledger

A frame comes out in one of a few ways, each of which leaves a certain ledger, and so does closing.
The ways are told in terms of the ledger alone, which is why it has to tell which tasks wait.

* `Ledger.Tallies` — the tasks that wait are those deferred and not yet run.
* `Ledger.Framed`, `Ledger.Ended` — the ways in which a frame and closing come out.
* `HostStep.frame_outcome`, `HostStep.close_outcome` — there are no others.
-/

namespace Trellis

variable {κ ρ ν χ ε δ τ α β : Type}

/-! ## Entries of longer ledgers -/

namespace HostEntry

variable (entries later : List (HostEntry χ τ))

@[simp] theorem callsOn_append (n : Nat) :
    callsOn n (entries ++ later) = callsOn n entries ++ callsOn n later :=
  List.filterMap_append

@[simp] theorem closings_append :
    closings (entries ++ later) = closings entries ++ closings later :=
  List.filterMap_append

@[simp] theorem deferrals_append :
    deferrals (entries ++ later) = deferrals entries ++ deferrals later :=
  List.flatMap_append

@[simp] theorem starts_append : starts (entries ++ later) = starts entries ++ starts later :=
  List.filterMap_append

/-- Every entry is in a relation to the ones before it. -/
def Each (P : List (HostEntry χ τ) → HostEntry χ τ → Prop)
    (entries : List (HostEntry χ τ)) : Prop :=
  ∀ ⦃before entry after⦄, entries = before ++ entry :: after → P before entry

theorem each_append_singleton {P : List (HostEntry χ τ) → HostEntry χ τ → Prop}
    {entries : List (HostEntry χ τ)} {entry : HostEntry χ τ} :
    Each P (entries ++ [entry]) ↔ Each P entries ∧ P entries entry := by
  constructor
  · refine fun h => ⟨fun before e after heq => ?_, h rfl⟩
    have hlonger : entries ++ [entry] = before ++ e :: (after ++ [entry]) := by
      rw [heq, List.append_assoc, List.cons_append]
    exact h hlonger
  · rintro ⟨h, hlast⟩ before e after heq
    rcases List.eq_nil_or_concat after with rfl | ⟨rest, last, rfl⟩
    · obtain ⟨rfl, hentry⟩ := List.append_inj' heq rfl
      cases hentry
      exact hlast
    · rw [List.concat_eq_append, ← List.cons_append, ← List.append_assoc] at heq
      exact h (List.append_inj' heq rfl).1

end HostEntry

/-! ## The ways in which parts of a step come out -/

namespace Ledger

open HostEntry (deferrals starts)

/-- No task waits. -/
def Idle (l : Ledger ν χ τ) : Prop := starts l.entries = deferrals l.entries

/-- The ledger of a host that has let go of its views. -/
def parted (l : Ledger ν χ τ) : Ledger ν χ τ :=
  { l with host := { l.host with next := none, view := none } }

/-- The ledger of a host that shows a view. -/
def showing (l : Ledger ν χ τ) (view : Nat × ν) (prepared : Bool) : Ledger ν χ τ :=
  { l with host := { l.host with view := some view, prepared := prepared } }

/-- The ledger of a host that has been closed. -/
def closing (l : Ledger ν χ τ) : Ledger ν χ τ :=
  { l with host := { l.host with closed := true, next := none } }

/-- The ledger of a host that has let go of its view, and of what was to run on closing. -/
def released (l : Ledger ν χ τ) : Ledger ν χ τ :=
  { l with host := { l.host with view := none, onClose := none } }

/-- The waiting view takes over, if there is one and the view before it could be destroyed. -/
inductive Swapped (l : Ledger ν χ τ) : Option ε → Ledger ν χ τ → Prop
  | none (next : l.host.next = .none) : Swapped l .none l
  | first {v : Nat × ν} (next : l.host.next = some v) (view : l.host.view = .none) :
      Swapped l .none (l.parted.showing v false)
  | replaced {u v : Nat × ν} (tasks : List τ) (next : l.host.next = some v)
      (view : l.host.view = some u) :
      Swapped l .none
        (((l.parted.add (.deferred tasks)).call u.1 (.destroyed true)).showing v false)
  | failed {u v : Nat × ν} (tasks : List τ) (e : ε) (next : l.host.next = some v)
      (view : l.host.view = some u) :
      Swapped l (some e) ((l.parted.add (.deferred tasks)).call u.1 (.destroyed false))

/-- The view is prepared, unless that was done before. -/
inductive Begun (l : Ledger ν χ τ) : Option ε → Ledger ν χ τ → Prop
  | ready (h : l.host.prepared = true ∨ l.host.view = none) : Begun l none l
  | prepared {u : Nat × ν} (tasks : List τ) (after : ν) (failure : Option ε)
      (unprepared : l.host.prepared = false) (view : l.host.view = some u) :
      Begun l failure
        (((l.add (.deferred tasks)).call u.1 (.prepared failure.isNone)).showing (u.1, after)
          failure.isNone)

/-- Tasks are run, always the one that has waited longest, until none waits. -/
inductive Worked : Ledger ν χ τ → Ledger ν χ τ → Prop
  | done {l : Ledger ν χ τ} (idle : l.Idle) : Worked l l
  | next {l l' : Ledger ν χ τ} (task : τ) (tasks : List τ)
      (first : ∃ others, deferrals l.entries = starts l.entries ++ task :: others)
      (rest : Worked ((l.add (.started task)).add (.deferred tasks)) l') : Worked l l'

/-- One frame. -/
inductive Framed (closed : ε) (l : Ledger ν χ τ) : Except ε (Option δ) → Ledger ν χ τ → Prop
  | closed (h : l.host.closed = true) : Framed closed l (.error closed) l
  | swapFailed {l₁ : Ledger ν χ τ} {e : ε} (h : l.host.closed = false)
      (swap : Swapped l (some e) l₁) : Framed closed l (.error e) l₁
  | beginFailed {l₁ l₂ : Ledger ν χ τ} {e : ε} (h : l.host.closed = false)
      (swap : Swapped l (none : Option ε) l₁) (begin : Begun l₁ (some e) l₂) :
      Framed closed l (.error e) l₂
  | empty {l₁ l₂ : Ledger ν χ τ} (h : l.host.closed = false)
      (swap : Swapped l (none : Option ε) l₁) (begin : Begun l₁ (none : Option ε) l₂)
      (view : l₂.host.view = none) : Framed closed l (.ok none) l₂
  | shown {l₁ l₂ l₃ l₄ : Ledger ν χ τ} {u : Nat × ν} (handled drawn : List τ) (answer : δ)
      (h : l.host.closed = false) (swap : Swapped l (none : Option ε) l₁)
      (begin : Begun l₁ (none : Option ε) l₂) (view : l₂.host.view = some u)
      (before : Worked l₂ l₃)
      (after : Worked ((l₃.call u.1 .handled).add (.deferred handled)) l₄) :
      Framed closed l (.ok (some answer)) ((l₄.call u.1 .drew).add (.deferred drawn))

/-- The host is closed and its view, if there is one, destroyed. -/
inductive Parted (l : Ledger ν χ τ) : Option ε → Ledger ν χ τ → Prop
  | empty (view : l.host.view = none) : Parted l none l.closing
  | destroyed {u : Nat × ν} (tasks : List τ) (failure : Option ε) (view : l.host.view = some u) :
      Parted l failure
        ((l.closing.add (.deferred tasks)).call u.1 (.destroyed failure.isNone))

/-- The end of a host. -/
inductive Ended (l : Ledger ν χ τ) : Option ε → Ledger ν χ τ → Prop
  | closed (h : l.host.closed = true) : Ended l none l
  | silent {l₁ : Ledger ν χ τ} {failure : Option ε} (h : l.host.closed = false)
      (parted : Parted l failure l₁) (onClose : l₁.host.onClose = none) :
      Ended l failure l₁.released
  | called {l₁ : Ledger ν χ τ} {failure : Option ε} (code : χ) (tasks : List τ)
      (h : l.host.closed = false) (parted : Parted l failure l₁)
      (onClose : l₁.host.onClose = some code) :
      Ended l failure ((l₁.released.add (.closing code)).add (.deferred tasks))

/-- The tasks that wait in a window, as they do there, are those that were deferred and have not
been run. -/
structure Tallies (l : Ledger ν χ (Task κ)) (x : WindowId) (w : World κ ρ) : Prop where
  tasks : deferrals l.entries = starts l.entries ++ w.waiting x
  queues : w.Queues x

end Ledger

/-! ## Runs that keep a ledger -/

namespace Recorded

open HostEntry

variable {l l' : Ledger ν χ τ} {w w' : World κ ρ}

theorem pure_eq_ok {a a' : α} :
    (pure a : Recorded (Machine κ ρ) ν χ τ α) l w = .ok ((a', l'), w') ↔
      a = a' ∧ l = l' ∧ w = w' := by
  show Except.ok ((a, l), w) = Except.ok ((a', l'), w') ↔ _
  simp [and_assoc]

theorem bind_eq_ok {p : Recorded (Machine κ ρ) ν χ τ α}
    {f : α → Recorded (Machine κ ρ) ν χ τ β} {b : β} :
    (p >>= f) l w = .ok ((b, l'), w') ↔
      ∃ a l₁ w₁, p l w = .ok ((a, l₁), w₁) ∧ f a l₁ w₁ = .ok ((b, l'), w') := by
  have hrun : (p >>= f) l w =
      ((p l : Machine κ ρ (α × Ledger ν χ τ)) >>= fun r => f r.1 r.2) w := rfl
  rw [hrun, Machine.bind_eq_ok]
  constructor
  · rintro ⟨⟨a, l₁⟩, w₁, hfirst, hrest⟩
    exact ⟨a, l₁, w₁, hfirst, hrest⟩
  · rintro ⟨a, l₁, w₁, hfirst, hrest⟩
    exact ⟨(a, l₁), w₁, hfirst, hrest⟩

theorem get_eq_ok {a : Ledger ν χ τ} :
    (get : Recorded (Machine κ ρ) ν χ τ (Ledger ν χ τ)) l w = .ok ((a, l'), w') ↔
      l = a ∧ l = l' ∧ w = w' := by
  show Except.ok ((l, l), w) = Except.ok ((a, l'), w') ↔ _
  simp [and_assoc]

theorem modify_eq_ok {f : Ledger ν χ τ → Ledger ν χ τ} {u : Unit} :
    (modify f : Recorded (Machine κ ρ) ν χ τ Unit) l w = .ok ((u, l'), w') ↔
      f l = l' ∧ w = w' := by
  show Except.ok (((), f l), w) = Except.ok ((u, l'), w') ↔ _
  simp

theorem lift_eq_ok {p : Machine κ ρ α} {a : α} :
    (liftM p : Recorded (Machine κ ρ) ν χ τ α) l w = .ok ((a, l'), w') ↔
      p w = .ok (a, w') ∧ l = l' := by
  have hrun : (liftM p : Recorded (Machine κ ρ) ν χ τ α) l w =
      (p >>= fun a => (pure (a, l) : Machine κ ρ (α × Ledger ν χ τ))) w := rfl
  rw [hrun, Machine.bind_eq_ok]
  constructor
  · rintro ⟨a', w₁, hp, hpure⟩
    obtain ⟨heq, rfl⟩ := Machine.pure_eq_ok.mp hpure
    cases heq
    exact ⟨hp, rfl⟩
  · rintro ⟨hp, rfl⟩
    exact ⟨a, w', hp, rfl⟩

/-- What a part of the application does is at most to have tasks deferred. -/
theorem watching_outcome {l l' : Ledger ν χ (Task κ)} {x : WindowId} {part : Machine κ ρ α} {a : α}
    (respects : Machine.Respects (World.Undisturbed x) part)
    (run : watching (Machine.waiting x) part l w = .ok ((a, l'), w')) (tally : l.Tallies x w) :
    part w = .ok (a, w') ∧ ∃ tasks, l' = l.add (.deferred tasks) ∧ l'.Tallies x w' := by
  obtain ⟨before, l₁, w₁, lookup, run⟩ := bind_eq_ok.mp run
  obtain ⟨hbefore, rfl⟩ := lift_eq_ok.mp lookup
  obtain ⟨rfl, rfl⟩ := Machine.waiting_eq_ok.mp hbefore
  obtain ⟨a', l₂, w₂, doing, run⟩ := bind_eq_ok.mp run
  obtain ⟨hpart, rfl⟩ := lift_eq_ok.mp doing
  obtain ⟨after, l₃, w₃, lookup, run⟩ := bind_eq_ok.mp run
  obtain ⟨hafter, rfl⟩ := lift_eq_ok.mp lookup
  obtain ⟨rfl, rfl⟩ := Machine.waiting_eq_ok.mp hafter
  obtain ⟨u, l₄, w₄, adding, run⟩ := bind_eq_ok.mp run
  obtain ⟨rfl, rfl⟩ := modify_eq_ok.mp adding
  obtain ⟨rfl, rfl, rfl⟩ := pure_eq_ok.mp run
  obtain ⟨news, hnews⟩ := (respects hpart).waiting
  refine ⟨hpart, _, rfl, ?_, (respects hpart).queues tally.queues⟩
  have hdrop : (w₂.waiting x).drop (w.waiting x).length = news := by
    rw [← hnews, List.drop_left]
  show deferrals (l.entries ++ [.deferred ((w₂.waiting x).drop (w.waiting x).length)]) =
    starts (l.entries ++ [.deferred _]) ++ w₂.waiting x
  rw [hdrop, deferrals_append, starts_append, tally.tasks, ← hnews]
  simp [deferrals, starts]

end Recorded

/-! ## The calls of the stage -/

namespace Ledger

variable {l : Ledger ν χ (Task κ)} {x : WindowId} {w w' : World κ ρ}

open HostEntry

theorem Tallies.call (h : l.Tallies x w) (n : Nat) (call : ViewCall) :
    (l.call n call).Tallies x w := by
  have hcall (shown : Option Nat) : deferrals [(.called n call shown : HostEntry χ (Task κ))] = [] ∧
      starts [(.called n call shown : HostEntry χ (Task κ))] = [] := ⟨rfl, rfl⟩
  refine ⟨?_, h.queues⟩
  rw [Ledger.call, add, deferrals_append, starts_append, (hcall _).1, (hcall _).2,
    List.append_nil, List.append_nil]
  exact h.tasks

theorem Tallies.closing (h : l.Tallies x w) (code : χ) :
    (l.add (.closing code)).Tallies x w := by
  have hcode : deferrals [(.closing code : HostEntry χ (Task κ))] = [] ∧
      starts [(.closing code : HostEntry χ (Task κ))] = [] := ⟨rfl, rfl⟩
  refine ⟨?_, h.queues⟩
  rw [add, deferrals_append, starts_append, hcode.1, hcode.2, List.append_nil, List.append_nil]
  exact h.tasks

theorem Tallies.idle (h : l.Tallies x w) (none : w.waiting x = []) : l.Idle := by
  rw [Idle, h.tasks, none, List.append_nil]

end Ledger

namespace HostStep

open Ledger Recorded

variable [Ordered ρ] {s : Setting κ ρ} {x : WindowId} {size : Size Float}
  {l l' : Ledger (View κ) κ (Task κ)} {w w' : World κ ρ}

theorem get_outcome {host : Host (Nat × View κ) κ}
    (run : (stage s x size).get l w = .ok ((host, l'), w')) : l.host = host ∧ l = l' ∧ w = w' := by
  obtain ⟨a, l₁, w₁, looking, run⟩ := bind_eq_ok.mp run
  obtain ⟨rfl, rfl, rfl⟩ := get_eq_ok.mp looking
  obtain ⟨rfl, rfl, rfl⟩ := pure_eq_ok.mp run
  exact ⟨rfl, rfl, rfl⟩

theorem set_outcome {host : Host (Nat × View κ) κ} {u : Unit}
    (run : (stage s x size).set host l w = .ok ((u, l'), w')) (tally : l.Tallies x w) :
    l' = { l with host := host } ∧ l'.Tallies x w' := by
  obtain ⟨a, l₁, w₁, writing, run⟩ := bind_eq_ok.mp run
  obtain ⟨rfl, rfl⟩ := modify_eq_ok.mp writing
  obtain ⟨hset, rfl⟩ := lift_eq_ok.mp run
  cases hset
  exact ⟨rfl, tally.tasks, tally.queues⟩

theorem poll_outcome {events : List Event}
    (run : (stage s x size).poll l w = .ok ((events, l'), w')) (tally : l.Tallies x w) :
    l = l' ∧ l'.Tallies x w' := by
  obtain ⟨hpoll, rfl⟩ := lift_eq_ok.mp run
  cases hpoll
  exact ⟨rfl, tally.tasks, tally.queues⟩

/-- The task that is taken is the first one deferred that has not been run. -/
theorem nextTask_outcome {next : Option (Task κ)}
    (run : (stage s x size).nextTask l w = .ok ((next, l'), w')) (tally : l.Tallies x w) :
    l = l' ∧ ((next = none ∧ l.Tallies x w' ∧ l.Idle) ∨ ∃ task, next = some task ∧ w'.Queues x ∧
      HostEntry.deferrals l.entries = HostEntry.starts l.entries ++ task :: w'.waiting x) := by
  obtain ⟨htask, rfl⟩ := lift_eq_ok.mp run
  rcases Machine.nextTask_outcome htask with ⟨rfl, hnone, rfl⟩ | ⟨task, rfl, hfirst, hqueues⟩
  · exact ⟨rfl, .inl ⟨rfl, tally, tally.idle hnone⟩⟩
  · exact ⟨rfl, .inr ⟨task, rfl, hqueues tally.queues, by rw [tally.tasks, hfirst]⟩⟩

/-- When a task is run that has been taken, the others wait. -/
theorem runTask_outcome {task : Task κ} {u : Unit}
    (run : (stage s x size).runTask task l w = .ok ((u, l'), w')) (queues : w.Queues x)
    (first : HostEntry.deferrals l.entries = HostEntry.starts l.entries ++ task :: w.waiting x) :
    ∃ tasks, l' = (l.add (.started task)).add (.deferred tasks) ∧ l'.Tallies x w' := by
  obtain ⟨u, l₁, w₁, writing, run⟩ := bind_eq_ok.mp run
  obtain ⟨rfl, rfl⟩ := modify_eq_ok.mp writing
  have tally : (l.add (.started task)).Tallies x w := by
    refine ⟨?_, queues⟩
    rw [add, HostEntry.deferrals_append, HostEntry.starts_append, first]
    simp [HostEntry.deferrals, HostEntry.starts]
  exact (watching_outcome ((Machine.reentry_respects s).task task) run tally).2

theorem prepare_outcome {view after : Nat × View κ} {failure : Option ViewError}
    (run : (stage s x size).prepare view l w = .ok (((after, failure), l'), w'))
    (tally : l.Tallies x w) :
    ∃ tasks, after.1 = view.1 ∧ l'.Tallies x w' ∧
      l' = (l.add (.deferred tasks)).call view.1 (.prepared failure.isNone) := by
  obtain ⟨a, l₁, w₁, doing, run⟩ := bind_eq_ok.mp run
  obtain ⟨-, tasks, rfl, htally⟩ :=
    watching_outcome (Machine.prepareView_respects s x view.2) doing tally
  obtain ⟨u, l₂, w₂, writing, run⟩ := bind_eq_ok.mp run
  obtain ⟨rfl, rfl⟩ := modify_eq_ok.mp writing
  obtain ⟨h, rfl, rfl⟩ := pure_eq_ok.mp run
  cases h
  exact ⟨tasks, rfl, htally.call _ _, rfl⟩

theorem destroy_outcome {view : Nat × View κ} {failure : Option ViewError}
    (run : (stage s x size).destroy view l w = .ok ((failure, l'), w')) (tally : l.Tallies x w) :
    ∃ tasks, l'.Tallies x w' ∧
      l' = (l.add (.deferred tasks)).call view.1 (.destroyed failure.isNone) := by
  obtain ⟨a, l₁, w₁, doing, run⟩ := bind_eq_ok.mp run
  obtain ⟨-, tasks, rfl, htally⟩ :=
    watching_outcome (Machine.destroyView_respects s view.2) doing tally
  obtain ⟨u, l₂, w₂, writing, run⟩ := bind_eq_ok.mp run
  obtain ⟨rfl, rfl⟩ := modify_eq_ok.mp writing
  obtain ⟨rfl, rfl, rfl⟩ := pure_eq_ok.mp run
  exact ⟨tasks, htally.call _ _, rfl⟩

theorem handleEvents_outcome {view : Nat × View κ} {events : List Event} {u : Unit}
    (run : (stage s x size).handleEvents view events l w = .ok ((u, l'), w'))
    (tally : l.Tallies x w) :
    ∃ tasks, l'.Tallies x w' ∧ l' = (l.call view.1 .handled).add (.deferred tasks) := by
  obtain ⟨u, l₁, w₁, writing, run⟩ := bind_eq_ok.mp run
  obtain ⟨rfl, rfl⟩ := modify_eq_ok.mp writing
  obtain ⟨-, tasks, rfl, htally⟩ :=
    watching_outcome (Machine.viewEvents_respects s _ view.2) run (tally.call _ _)
  exact ⟨tasks, htally, rfl⟩

theorem draw_outcome {view : Nat × View κ} {ops : List (DrawOp Float)}
    (run : (stage s x size).draw view l w = .ok ((ops, l'), w')) (tally : l.Tallies x w) :
    ∃ tasks, l'.Tallies x w' ∧ l' = (l.call view.1 .drew).add (.deferred tasks) := by
  obtain ⟨u, l₁, w₁, writing, run⟩ := bind_eq_ok.mp run
  obtain ⟨rfl, rfl⟩ := modify_eq_ok.mp writing
  obtain ⟨-, tasks, rfl, htally⟩ :=
    watching_outcome (Machine.viewOps_respects s size view.2) run (tally.call _ _)
  exact ⟨tasks, htally, rfl⟩

theorem runOnClose_outcome {code : κ} {u : Unit}
    (run : (stage s x size).runOnClose code l w = .ok ((u, l'), w')) (tally : l.Tallies x w) :
    ∃ tasks, l'.Tallies x w' ∧ l' = (l.add (.closing code)).add (.deferred tasks) := by
  obtain ⟨u, l₁, w₁, writing, run⟩ := bind_eq_ok.mp run
  obtain ⟨rfl, rfl⟩ := modify_eq_ok.mp writing
  obtain ⟨-, tasks, rfl, htally⟩ :=
    watching_outcome (Program.run_respects (Machine.reentry_respects s) _) run (tally.closing _)
  exact ⟨tasks, htally, rfl⟩

/-! ## The parts of a step -/

theorem swap_outcome {failure : Option ViewError}
    (run : (stage s x size).swap l w = .ok ((failure, l'), w')) (tally : l.Tallies x w) :
    Swapped l failure l' ∧ l'.Tallies x w' := by
  obtain ⟨host, l₁, w₁, looking, run⟩ := bind_eq_ok.mp run
  obtain ⟨rfl, rfl, rfl⟩ := get_outcome looking
  cases hnext : l.host.next with
  | none =>
      rw [hnext] at run
      obtain ⟨rfl, rfl, rfl⟩ := pure_eq_ok.mp run
      exact ⟨.none hnext, tally⟩
  | some v =>
      rw [hnext] at run
      obtain ⟨u, l₂, w₂, writing, run⟩ := bind_eq_ok.mp run
      obtain ⟨rfl, htally⟩ := set_outcome writing tally
      cases hview : l.host.view with
      | none =>
          rw [hview] at run
          obtain ⟨failure', l₃, w₃, hfailure, run⟩ := bind_eq_ok.mp run
          obtain ⟨rfl, rfl, rfl⟩ := pure_eq_ok.mp hfailure
          obtain ⟨host, l₃, w₃, looking, run⟩ := bind_eq_ok.mp run
          obtain ⟨rfl, rfl, rfl⟩ := get_outcome looking
          obtain ⟨u, l₄, w₄, writing, run⟩ := bind_eq_ok.mp run
          obtain ⟨rfl, htally⟩ := set_outcome writing htally
          obtain ⟨rfl, rfl, rfl⟩ := pure_eq_ok.mp run
          exact ⟨.first hnext hview, htally⟩
      | some old =>
          rw [hview] at run
          obtain ⟨failure', l₃, w₃, destroying, run⟩ := bind_eq_ok.mp run
          obtain ⟨tasks, htally, rfl⟩ := destroy_outcome destroying htally
          cases failure' with
          | some e =>
              obtain ⟨rfl, rfl, rfl⟩ := pure_eq_ok.mp run
              exact ⟨.failed tasks e hnext hview, htally⟩
          | none =>
              obtain ⟨host, l₄, w₄, looking, run⟩ := bind_eq_ok.mp run
              obtain ⟨rfl, rfl, rfl⟩ := get_outcome looking
              obtain ⟨u, l₅, w₅, writing, run⟩ := bind_eq_ok.mp run
              obtain ⟨rfl, htally⟩ := set_outcome writing htally
              obtain ⟨rfl, rfl, rfl⟩ := pure_eq_ok.mp run
              exact ⟨.replaced tasks hnext hview, htally⟩

theorem begin_outcome {failure : Option ViewError}
    (run : (stage s x size).begin l w = .ok ((failure, l'), w')) (tally : l.Tallies x w) :
    Begun l failure l' ∧ l'.Tallies x w' := by
  obtain ⟨host, l₁, w₁, looking, run⟩ := bind_eq_ok.mp run
  obtain ⟨rfl, rfl, rfl⟩ := get_outcome looking
  cases hprepared : l.host.prepared with
  | true =>
      rw [hprepared] at run
      obtain ⟨rfl, rfl, rfl⟩ := pure_eq_ok.mp run
      exact ⟨.ready (.inl hprepared), tally⟩
  | false =>
      cases hview : l.host.view with
      | none =>
          rw [hprepared, hview] at run
          obtain ⟨rfl, rfl, rfl⟩ := pure_eq_ok.mp run
          exact ⟨.ready (.inr hview), tally⟩
      | some view =>
          rw [hprepared, hview] at run
          obtain ⟨⟨⟨n, after⟩, failure'⟩, l₂, w₂, preparing, run⟩ := bind_eq_ok.mp run
          obtain ⟨tasks, rfl, htally, rfl⟩ := prepare_outcome preparing tally
          obtain ⟨host, l₃, w₃, looking, run⟩ := bind_eq_ok.mp run
          obtain ⟨rfl, rfl, rfl⟩ := get_outcome looking
          obtain ⟨u, l₄, w₄, writing, run⟩ := bind_eq_ok.mp run
          obtain ⟨rfl, htally⟩ := set_outcome writing htally
          obtain ⟨rfl, rfl, rfl⟩ := pure_eq_ok.mp run
          exact ⟨.prepared tasks after _ hprepared hview, htally⟩

theorem runTasks_outcome {limit n : Nat}
    (run : (stage s x size).runTasks limit l w = .ok ((n, l'), w')) (tally : l.Tallies x w) :
    Worked l l' ∧ l'.Tallies x w' := by
  induction limit generalizing l w n with
  | zero =>
      obtain ⟨next, l₁, w₁, taking, run⟩ := bind_eq_ok.mp run
      obtain ⟨rfl, ⟨rfl, htally, hidle⟩ | ⟨task, rfl, -, -⟩⟩ := nextTask_outcome taking tally
      · obtain ⟨rfl, rfl, rfl⟩ := pure_eq_ok.mp run
        exact ⟨.done hidle, htally⟩
      · obtain ⟨stopping, -⟩ := lift_eq_ok.mp run
        exact absurd stopping (Machine.stop_ne_ok (w := w₁))
  | succ limit ih =>
      obtain ⟨next, l₁, w₁, taking, run⟩ := bind_eq_ok.mp run
      obtain ⟨rfl, ⟨rfl, htally, hidle⟩ | ⟨task, rfl, hqueues, hfirst⟩⟩ :=
        nextTask_outcome taking tally
      · obtain ⟨rfl, rfl, rfl⟩ := pure_eq_ok.mp run
        exact ⟨.done hidle, htally⟩
      · obtain ⟨u, l₂, w₂, running, run⟩ := bind_eq_ok.mp run
        obtain ⟨tasks, rfl, htally⟩ := runTask_outcome running hqueues hfirst
        obtain ⟨n', l₃, w₃, working, run⟩ := bind_eq_ok.mp run
        obtain ⟨rfl, rfl, rfl⟩ := pure_eq_ok.mp run
        obtain ⟨hrest, htally⟩ := ih working htally
        exact ⟨.next task tasks ⟨_, hfirst⟩ hrest, htally⟩

theorem frame_outcome {outcome : Except ViewError (Option (List (DrawOp Float)))}
    (run : (stage s x size).frame l w = .ok ((outcome, l'), w')) (tally : l.Tallies x w) :
    Framed .closed l outcome l' ∧ l'.Tallies x w' := by
  obtain ⟨host, l₁, w₁, looking, run⟩ := bind_eq_ok.mp run
  obtain ⟨rfl, rfl, rfl⟩ := get_outcome looking
  cases hclosed : l.host.closed with
  | true =>
      rw [if_pos hclosed] at run
      obtain ⟨rfl, rfl, rfl⟩ := pure_eq_ok.mp run
      exact ⟨.closed hclosed, tally⟩
  | false =>
      rw [if_neg (by rw [hclosed]; exact Bool.false_ne_true)] at run
      obtain ⟨events, l₂, w₂, polling, run⟩ := bind_eq_ok.mp run
      obtain ⟨rfl, htally⟩ := poll_outcome polling tally
      obtain ⟨failure, l₃, w₃, swapping, run⟩ := bind_eq_ok.mp run
      obtain ⟨hswap, htally⟩ := swap_outcome swapping htally
      cases failure with
      | some e =>
          obtain ⟨rfl, rfl, rfl⟩ := pure_eq_ok.mp run
          exact ⟨.swapFailed hclosed hswap, htally⟩
      | none =>
          obtain ⟨failure, l₄, w₄, beginning, run⟩ := bind_eq_ok.mp run
          obtain ⟨hbegin, htally⟩ := begin_outcome beginning htally
          cases failure with
          | some e =>
              obtain ⟨rfl, rfl, rfl⟩ := pure_eq_ok.mp run
              exact ⟨.beginFailed hclosed hswap hbegin, htally⟩
          | none =>
              obtain ⟨host, l₅, w₅, looking, run⟩ := bind_eq_ok.mp run
              obtain ⟨rfl, rfl, rfl⟩ := get_outcome looking
              cases hview : l₄.host.view with
              | none =>
                  rw [hview] at run
                  obtain ⟨rfl, rfl, rfl⟩ := pure_eq_ok.mp run
                  exact ⟨.empty hclosed hswap hbegin hview, htally⟩
              | some view =>
                  rw [hview] at run
                  obtain ⟨n, l₆, w₆, working, run⟩ := bind_eq_ok.mp run
                  obtain ⟨hbefore, htally⟩ := runTasks_outcome working htally
                  obtain ⟨u, l₇, w₇, handling, run⟩ := bind_eq_ok.mp run
                  obtain ⟨handled, htally, rfl⟩ := handleEvents_outcome handling htally
                  obtain ⟨n, l₈, w₈, working, run⟩ := bind_eq_ok.mp run
                  obtain ⟨hafter, htally⟩ := runTasks_outcome working htally
                  obtain ⟨ops, l₉, w₉, drawing, run⟩ := bind_eq_ok.mp run
                  obtain ⟨drawn, htally, rfl⟩ := draw_outcome drawing htally
                  obtain ⟨rfl, rfl, rfl⟩ := pure_eq_ok.mp run
                  exact ⟨.shown handled drawn _ hclosed hswap hbegin hview hbefore hafter, htally⟩

theorem close_outcome {failure : Option ViewError}
    (run : (stage s x size).close l w = .ok ((failure, l'), w')) (tally : l.Tallies x w) :
    Ended l failure l' ∧ l'.Tallies x w' := by
  obtain ⟨host, l₁, w₁, looking, run⟩ := bind_eq_ok.mp run
  obtain ⟨rfl, rfl, rfl⟩ := get_outcome looking
  cases hclosed : l.host.closed with
  | true =>
      rw [if_pos hclosed] at run
      obtain ⟨rfl, rfl, rfl⟩ := pure_eq_ok.mp run
      exact ⟨.closed hclosed, tally⟩
  | false =>
      rw [if_neg (by rw [hclosed]; exact Bool.false_ne_true)] at run
      obtain ⟨u, l₂, w₂, writing, run⟩ := bind_eq_ok.mp run
      obtain ⟨hclosing, htally⟩ := set_outcome writing tally
      replace hclosing : l₂ = l.closing := hclosing
      obtain ⟨failure', l₃, w₃, hparted, htally, run⟩ : ∃ failure' l₃ w₃,
          Parted l failure' l₃ ∧ l₃.Tallies x w₃ ∧ (do
            let host ← (stage s x size).get
            (stage s x size).set { host with view := none, onClose := none }
            host.onClose.forM (stage s x size).runOnClose
            return failure') l₃ w₃ = .ok ((failure, l'), w') := by
        cases hview : l.host.view with
        | none =>
            rw [hview] at run
            obtain ⟨failure', l₃, w₃, hfailure, run⟩ := bind_eq_ok.mp run
            obtain ⟨rfl, rfl, rfl⟩ := pure_eq_ok.mp hfailure
            subst hclosing
            exact ⟨none, _, _, .empty hview, htally, run⟩
        | some view =>
            rw [hview] at run
            obtain ⟨failure', l₃, w₃, destroying, run⟩ := bind_eq_ok.mp run
            obtain ⟨tasks, htally, rfl⟩ := destroy_outcome destroying htally
            subst hclosing
            exact ⟨failure', _, _, .destroyed tasks failure' hview, htally, run⟩
      obtain ⟨host, l₄, w₄, looking, run⟩ := bind_eq_ok.mp run
      obtain ⟨rfl, rfl, rfl⟩ := get_outcome looking
      obtain ⟨u, l₅, w₅, writing, run⟩ := bind_eq_ok.mp run
      obtain ⟨rfl, htally⟩ := set_outcome writing htally
      obtain ⟨u, l₆, w₆, calling, run⟩ := bind_eq_ok.mp run
      obtain ⟨rfl, rfl, rfl⟩ := pure_eq_ok.mp run
      cases honClose : l₃.host.onClose with
      | none =>
          rw [honClose] at calling
          obtain ⟨-, rfl, rfl⟩ := pure_eq_ok.mp calling
          exact ⟨.silent hclosed hparted honClose, htally⟩
      | some code =>
          rw [honClose] at calling
          obtain ⟨tasks, htally, rfl⟩ := runOnClose_outcome calling htally
          exact ⟨.called code tasks hclosed hparted honClose, htally⟩

end HostStep

end Trellis
