import Trellis.Event

/-!
# Showing views

A host shows one view at a time, frame by frame. A view that is set waits until the next frame,
where the one before it is destroyed and it is prepared; both can fail, which ends the frame.
What a view is and what its calls do is left open here.

* `Host` — what a host knows between frames.
* `Stage` — the calls on views, in any monad.
* `Stage.runTasks` — runs the deferred tasks.
* `Stage.frame`, `Stage.close` — one frame, and the end of the host.
-/

namespace Trellis

/-- What a host knows between frames; `ν` are its views and `χ` what runs when it closes. -/
structure Host (ν χ : Type) where
  view : Option ν := none
  /-- The view that takes over with the next frame. -/
  next : Option ν := none
  /-- Whether the view has been prepared. -/
  prepared : Bool := false
  onClose : Option χ := none
  closed : Bool := false

namespace Host

variable {ν χ : Type}

/-- Sets the view to show from the next frame on. -/
def setView (host : Host ν χ) (view : ν) : Host ν χ :=
  { host with next := some view, prepared := false }

end Host

/-- The calls a host makes. `ε` are the errors of views, `δ` is what drawing one gives, and `τ` are
the tasks that may be deferred. -/
structure Stage (m : Type → Type) (ν χ ε δ τ : Type) where
  /-- The host as it is now. -/
  get : m (Host ν χ)
  set : Host ν χ → m Unit
  /-- Takes the events that have arrived. -/
  poll : m (List Event)
  /-- Takes the deferred task that has waited longest. -/
  nextTask : m (Option τ)
  runTask : τ → m Unit
  /-- How many tasks may run one after another. -/
  taskLimit : Nat
  /-- What comes of more tasks than that. -/
  giveUp : m Nat
  /-- Prepares a view for display. Answers the view as it is then, also if that failed. -/
  prepare : ν → m (ν × Option ε)
  destroy : ν → m (Option ε)
  handleEvents : ν → List Event → m Unit
  draw : ν → m δ
  /-- Runs what was set to run when the host closes. -/
  runOnClose : χ → m Unit
  /-- The error of a frame after closing. -/
  closed : ε

namespace Stage

variable {m : Type → Type} [Monad m] {ν χ ε δ τ : Type} (stage : Stage m ν χ ε δ τ)

/-- Lets the waiting view take over from the one before it, which is destroyed first. If that fails,
neither of the two is kept. -/
def swap : m (Option ε) := do
  let host ← stage.get
  match host.next with
  | none => pure none
  | some next =>
    stage.set { host with next := none, view := none }
    let failure ← match host.view with
      | some old => stage.destroy old
      | none => pure none
    match failure with
    | some e => pure (some e)
    | none =>
      let host ← stage.get
      stage.set { host with view := some next, prepared := false }
      pure none

/-- Prepares the view if that has not been done. -/
def begin : m (Option ε) := do
  let host ← stage.get
  match host.prepared, host.view with
  | false, some view =>
    let (view, failure) ← stage.prepare view
    let host ← stage.get
    stage.set { host with view := some view, prepared := failure.isNone }
    pure failure
  | _, _ => pure none

/-- Runs the deferred tasks in order, also those that are deferred meanwhile. Answers how many
ran. -/
def runTasks : Nat → m Nat
  | 0 => do
    match ← stage.nextTask with
    | none => pure 0
    | some _ => stage.giveUp
  | limit + 1 => do
    match ← stage.nextTask with
    | none => pure 0
    | some task =>
      stage.runTask task
      pure ((← runTasks limit) + 1)

/-- Runs one frame: swaps and prepares views, then runs the deferred tasks, has the view handle
the events, runs the tasks deferred meanwhile, and draws. Without a view nothing is drawn. -/
def frame : m (Except ε (Option δ)) := do
  if (← stage.get).closed then return .error stage.closed
  let events ← stage.poll
  if let some e ← stage.swap then return .error e
  if let some e ← stage.begin then return .error e
  match (← stage.get).view with
  | none => return .ok none
  | some view =>
    let _ ← stage.runTasks stage.taskLimit
    stage.handleEvents view events
    let _ ← stage.runTasks stage.taskLimit
    return .ok (some (← stage.draw view))

/-- Closes the host: the view is destroyed and let go of, and what was set for this moment runs,
whether or not destroying failed. Closing again does nothing. -/
def close : m (Option ε) := do
  let host ← stage.get
  if host.closed then return none
  stage.set { host with closed := true, next := none }
  let failure ← match host.view with
    | some view => stage.destroy view
    | none => pure none
  let host ← stage.get
  stage.set { host with view := none, onClose := none }
  host.onClose.forM stage.runOnClose
  return failure

end Stage

end Trellis
