import Trellis.Host.Views

/-!
# The ledger of a host

What a host does can be written down while it does it: the calls on its views, which go by the order
they were set in, and the tasks that are deferred and run. The host is driven by the same frames as
ever, on a stage that keeps a ledger of the calls it passes on.

* `HostEntry` — what is written down.
* `Stage.recorded` — passes on the calls of a stage and writes them down.
* `HostStep` — what is done with a host between frames, and the frames themselves.
* `HostStep.play` — opens a host and takes steps with it; `HostStep.retrace` keeps the ledger, too.
-/

namespace Trellis

variable {κ ρ ν χ ε δ τ : Type}

/-! ## Entries -/

/-- A call on a view. -/
inductive ViewCall
  | prepared (ok : Bool)
  | handled
  | drew
  | destroyed (ok : Bool)
  deriving DecidableEq

/-- Something that a host has done. -/
inductive HostEntry (χ τ : Type)
  /-- A view was called while the given one was shown. -/
  | called (view : Nat) (call : ViewCall) (shown : Option Nat)
  /-- What was set to run on closing was run. -/
  | closing (code : χ)
  /-- Tasks were added to those that wait. -/
  | deferred (tasks : List τ)
  /-- A task was run. -/
  | started (task : τ)
  deriving DecidableEq

namespace HostEntry

/-- The calls on one view. -/
def callsOn (n : Nat) (entries : List (HostEntry χ τ)) : List ViewCall :=
  entries.filterMap fun
    | .called m call _ => if m = n then some call else none
    | _ => none

/-- What was run on closing. -/
def closings (entries : List (HostEntry χ τ)) : List χ :=
  entries.filterMap fun
    | .closing code => some code
    | _ => none

/-- The tasks that were deferred, in order. -/
def deferrals (entries : List (HostEntry χ τ)) : List τ :=
  entries.flatMap fun
    | .deferred tasks => tasks
    | _ => []

/-- The tasks that were run, in order. -/
def starts (entries : List (HostEntry χ τ)) : List τ :=
  entries.filterMap fun
    | .started task => some task
    | _ => none

end HostEntry

/-! ## Keeping a ledger -/

/-- The host with other views in place of its own. -/
def Host.map {ν' : Type} (f : ν → ν') (host : Host ν χ) : Host ν' χ where
  view := host.view.map f
  next := host.next.map f
  prepared := host.prepared
  onClose := host.onClose
  closed := host.closed

/-- What is written down of a host: how it stands with its views numbered, how many there have been,
and what it has done. -/
structure Ledger (ν χ τ : Type) where
  host : Host (Nat × ν) χ := {}
  count : Nat := 0
  entries : List (HostEntry χ τ) := []

/-- The ledger with one more entry. -/
def Ledger.add (l : Ledger ν χ τ) (entry : HostEntry χ τ) : Ledger ν χ τ :=
  { l with entries := l.entries ++ [entry] }

/-- The ledger with one more call on a view. -/
def Ledger.call (l : Ledger ν χ τ) (n : Nat) (call : ViewCall) : Ledger ν χ τ :=
  l.add (.called n call (l.host.view.map (·.1)))

/-- Parts that keep a ledger. -/
abbrev Recorded (m : Type → Type) (ν χ τ : Type) : Type → Type := StateT (Ledger ν χ τ) m

section Recorded

variable {m : Type → Type} [Monad m]

/-- Does a part and writes down the tasks it has had deferred, those that wait being `tasks`. -/
def Recorded.watching {α : Type} (tasks : m (List τ)) (part : m α) : Recorded m ν χ τ α := do
  let before ← tasks
  let answer ← part
  let after ← tasks
  modify (·.add (.deferred (after.drop before.length)))
  pure answer

open Recorded in
/-- The stage with its views numbered and a ledger kept. Calls that can fail are written down when
they are over, the others when they begin. -/
def Stage.recorded (stage : Stage m ν χ ε δ τ) (tasks : m (List τ)) :
    Stage (Recorded m ν χ τ) (Nat × ν) χ ε δ τ where
  get := do pure (← getThe (Ledger ν χ τ)).host
  set host := do
    modify ({ · with host := host })
    stage.set (host.map (·.2))
  poll := stage.poll
  nextTask := stage.nextTask
  runTask task := do
    modify (·.add (.started task))
    watching tasks (stage.runTask task)
  taskLimit := stage.taskLimit
  giveUp := stage.giveUp
  prepare view := do
    let (after, failure) ← watching tasks (stage.prepare view.2)
    modify (·.call view.1 (.prepared failure.isNone))
    pure ((view.1, after), failure)
  destroy view := do
    let failure ← watching tasks (stage.destroy view.2)
    modify (·.call view.1 (.destroyed failure.isNone))
    pure failure
  handleEvents view events := do
    modify (·.call view.1 .handled)
    watching tasks (stage.handleEvents view.2 events)
  draw view := do
    modify (·.call view.1 .drew)
    watching tasks (stage.draw view.2)
  runOnClose code := do
    modify (·.add (.closing code))
    watching tasks (stage.runOnClose code)
  closed := stage.closed

end Recorded

/-! ## Runs -/

/-- What is done with a host, and what happens between frames. -/
inductive HostStep (κ ρ : Type)
  | setView (view : View κ)
  | onClose (code : κ)
  /-- The application does something by itself. -/
  | act (program : Program κ ρ Unit)
  | frame (size : Size Float)
  | close
  /-- The host is let go of, which closes it. -/
  | drop

/-- What a step answers. -/
inductive HostAnswer
  | done
  | framed (outcome : Except ViewError (Option (List (DrawOp Float))))
  | closed (failure : Option ViewError)

/-- A step with its answer and what the host has done in it. -/
structure Chapter (κ ρ : Type) where
  step : HostStep κ ρ
  answer : HostAnswer
  entries : List (HostEntry κ (Task κ))

namespace HostStep

variable [Ordered ρ] (s : Setting κ ρ) (x : WindowId)

/-- Takes a step with the host in a window. -/
def take : HostStep κ ρ → Machine κ ρ HostAnswer
  | .setView view => do
    Machine.setView view
    pure .done
  | .onClose code => do
    Machine.onClose code
    pure .done
  | .act program => do
    program.run s.reentry
    pure .done
  | .frame size => do pure (.framed (← (Machine.stage s x size).frame))
  | .close => do pure (.closed (← (Machine.stage s x Vec.zero).close))
  | .drop => do
    let _ ← (Machine.stage s x Vec.zero).close
    pure .done

/-- Takes steps one after another. -/
def takeAll (steps : List (HostStep κ ρ)) : Machine κ ρ (List HostAnswer) := steps.mapM (take s x)

/-- The calls that the host in a window makes, with a ledger kept. -/
def stage (size : Size Float) :
    Stage (Recorded (Machine κ ρ) (View κ) κ (Task κ)) (Nat × View κ) κ ViewError
      (List (DrawOp Float)) (Task κ) :=
  (Machine.stage s x size).recorded (Machine.waiting x)

/-- Takes a step with the host in a window and keeps the ledger. -/
def record : HostStep κ ρ → Recorded (Machine κ ρ) (View κ) κ (Task κ) HostAnswer
  | .setView view => do
    modify fun l => { l with host := l.host.setView (l.count, view), count := l.count + 1 }
    (Machine.setView view : Machine κ ρ Unit)
    pure .done
  | .onClose code => do
    modify fun l => { l with host := { l.host with onClose := some code } }
    (Machine.onClose code : Machine κ ρ Unit)
    pure .done
  | .act program => do
    Recorded.watching (Machine.waiting x) (program.run s.reentry)
    pure .done
  | .frame size => do pure (.framed (← (stage s x size).frame))
  | .close => do pure (.closed (← (stage s x Vec.zero).close))
  | .drop => do
    let _ ← (stage s x Vec.zero).close
    pure .done

/-- Takes a step and answers what it brought. -/
def chapter (step : HostStep κ ρ) :
    Recorded (Machine κ ρ) (View κ) κ (Task κ) (Chapter κ ρ) := do
  let before ← get
  let answer ← record s x step
  let after ← get
  pure { step, answer, entries := after.entries.drop before.entries.length }

/-- Takes steps one after another and answers what each of them brought. -/
def chronicle (steps : List (HostStep κ ρ)) :
    Recorded (Machine κ ρ) (View κ) κ (Task κ) (List (Chapter κ ρ)) :=
  steps.mapM (chapter s x)

/-- Opens a host and takes steps with it. -/
def play (config : Config) (steps : List (HostStep κ ρ)) : Machine κ ρ (List HostAnswer) := do
  let x ← Machine.openHost config
  takeAll s x steps

/-- Opens a host, takes steps with it, and answers what each of them brought. -/
def retrace (config : Config) (steps : List (HostStep κ ρ)) : Machine κ ρ (List (Chapter κ ρ)) := do
  let x ← Machine.openHost config
  let (chapters, _) ← chronicle s x steps {}
  pure chapters

end HostStep

end Trellis
