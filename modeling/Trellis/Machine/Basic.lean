import Trellis.Program

/-!
# Steps on the state

The monad in which a user interface runs, and the steps that call nobody.

* `Machine` — changes of the state that may stop: for lack of fuel, or in a deadlock.
* `Machine.bind` — has an element follow a binding.
* `Machine.takeOver`, `Machine.editMirror` — what happens to the copy of a value.
-/

namespace Trellis

/-- Why a run stops. -/
inductive Stop
  /-- The run was allowed too few nested calls and rounds. -/
  | outOfFuel
  /-- An element that is locked was waited for. -/
  | deadlock
  deriving DecidableEq

/-- Changes of the state that give an answer. -/
abbrev Machine (κ ρ : Type) : Type → Type := StateT (World κ ρ) (Except Stop)

namespace Machine

variable {κ ρ : Type}

/-- Stops the run. -/
def stop {α : Type} (reason : Stop) : Machine κ ρ α := fun _ => .error reason

/-- Writes a line. -/
def note (line : String) : Machine κ ρ Unit := modify (·.record (.note line))

/-- Asks a window, if there is one, for a new frame. -/
def invalidate (window : Option WindowId) : Machine κ ρ Unit :=
  window.forM fun x => modify (·.modifyWindow x fun window =>
    { window with invalidations := window.invalidations + 1, requested := true })

/-- Asks the window of an element for a new frame. -/
def invalidateElement (e : ElementId) : Machine κ ρ Unit := do
  invalidate (((← get).element? e).bind (·.window))

/-- Registers a watcher with a binding, whether or not anybody still holds it. -/
def watch (x : WatcherId) (b : BindingId) : Machine κ ρ Unit :=
  modify fun w => if (w.watcher? x).isSome then w.modifyBinding b (·.watch x) else w

/-- Removes a watcher from a binding. -/
def unwatch (x : WatcherId) (b : BindingId) : Machine κ ρ Unit :=
  modify (·.modifyBinding b (·.unwatch x))

/-- Lets go of a watcher. -/
def drop (x : WatcherId) : Machine κ ρ Unit :=
  modify (·.modifyWatcher x fun cell => { cell with dropped := true })

/-- The copy of a mirror. -/
def mirror? (x : WatcherId) : Machine κ ρ (Option (Mirror ρ)) := do
  pure ((← get).copy? x)

/-- Changes the copy of a mirror. -/
def modifyMirror (x : WatcherId) (f : Mirror ρ → Mirror ρ) : Machine κ ρ Unit :=
  modify (·.modifyCopy x f)

/-- Has a mirror take over the value of a binding. -/
def takeOver (x : WatcherId) (b : BindingId) : Machine κ ρ Unit := do
  match (← get).binding? b with
  | some binding => modifyMirror x (·.takeOver binding.content)
  | none => pure ()

/-- Edits the copy of a mirror without touching the binding. -/
def editMirror (x : WatcherId) (value : Scalar ρ) : Machine κ ρ Unit := do
  modifyMirror x (·.edit value)
  modify (·.record (.edited x))

/-- Takes the value of a mirror for its binding if it was edited since that last changed; the copy
counts as unedited from then on. -/
def takeEdit (x : WatcherId) : Machine κ ρ (Option (Scalar ρ)) := do
  match ← mirror? x with
  | some copy =>
    if copy.edited then
      modifyMirror x ({ · with edited := false })
      pure (some copy.value)
    else pure none
  | none => pure none

/-- Registers a mirror with a binding and takes over its value. -/
def attach (x : WatcherId) (b : BindingId) : Machine κ ρ Unit := do
  watch x b
  takeOver x b

/-- Has an element leave the binding it follows through a watcher. -/
def unfollow (e : ElementId) (x : WatcherId) (b : BindingId) : Machine κ ρ Unit := do
  modify (·.modifyElement e fun el => { el with binding := none })
  unwatch x b

/-- Has an element follow a binding through a watcher, taking over its value. -/
def follow (e : ElementId) (element : Element κ) (x : WatcherId) (b : BindingId) :
    Machine κ ρ Unit := do
  attach x b
  modify (·.modifyElement e fun el => { el with binding := some b })
  if element.body.asksOnBind then invalidate element.window

/-- Has an element follow another binding from now on, or none. -/
def bind (e : ElementId) (target : Option BindingId) : Machine κ ρ Unit := do
  let some element := (← get).element? e | pure ()
  let some follower := element.follower | pure ()
  element.binding.forM (unfollow e follower)
  target.forM (follow e element follower)

/-- The value of the mirror that an element follows a binding with. -/
def valueOf (e : ElementId) : Machine κ ρ (Option (Scalar ρ)) := do
  match ((← get).element? e).bind (·.follower) with
  | some x => pure ((← mirror? x).map (·.value))
  | none => pure none

/-- Sets the value an element shows, without touching the binding, and asks for a new frame. -/
def setValue (e : ElementId) (value : Scalar ρ) : Machine κ ρ Unit := do
  if let some x := ((← get).element? e).bind (·.follower) then editMirror x value
  invalidateElement e

/-- Creates an element with a fresh id, and has it follow its first binding. -/
def create (window : Option WindowId) (plan : Blueprint κ ρ) : Machine κ ρ ElementId := do
  let (id, w) := (← get).freshId
  let e : ElementId := ⟨w.elements.size⟩
  set { w with elements := w.elements.push { id, window, body := plan.body } }
  if let some follower := plan.follower then
    let watcher : Watcher κ ρ := match follower with
      | some value => .mirror { value, window }
      | none => .invalidator window
    let (x, w) := (← get).addWatcher { watcher, owner := some e }
    set w
    modify (·.modifyElement e fun el => { el with follower := some x })
  if plan.binding.isSome then bind e plan.binding
  pure e

/-! ## Locks -/

/-- Locks an element. Waiting for one that is locked would never end. -/
def lock (e : ElementId) : Machine κ ρ Unit := do
  match (← get).element? e with
  | some element =>
    if element.locked then stop .deadlock
    else modify (·.modifyElement e fun el => { el with locked := true })
  | none => pure ()

def unlock (e : ElementId) : Machine κ ρ Unit :=
  modify (·.modifyElement e fun el => { el with locked := false })

/-- Runs a part while an element is locked. -/
def locking {α : Type} (e : ElementId) (part : Machine κ ρ α) : Machine κ ρ α := do
  lock e
  let answer ← part
  unlock e
  pure answer

/-- A handle on an element, unless it is free and of another type. The type of a busy element shows
only later. -/
def handle? (e : ElementId) (kind : Kind) : Machine κ ρ (Option Handle) := do
  match (← get).element? e with
  | none => pure none
  | some element =>
    if element.locked then pure (some ⟨e, kind, none⟩)
    else if element.body.kind = kind then pure (some ⟨e, kind, element.window⟩)
    else pure none

/-- Whether the element of a handle can be locked now, being free and of the expected type. -/
def canLock (h : Handle) : Machine κ ρ Bool := do
  match (← get).element? h.element with
  | none => pure false
  | some element => pure (!element.locked && element.body.kind = h.kind)

end Machine

end Trellis
