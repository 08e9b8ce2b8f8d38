import Trellis.Definition.Build
import Trellis.Host.Stage
import Trellis.Machine.Events
import Trellis.Machine.Picture

/-!
# Views on the state of a user interface

A view is made of a model and a document, or a root element. Preparing it prepares the model and
then builds the document, whose names it resolves: functions among those it exports, bindings in its
model.

* `ViewError` — why preparing or destroying a view fails.
* `Machine.prepareView`, `Machine.destroyView` — the beginning and the end of a view.
* `Machine.stage` — the calls that a host makes on its views.
* `Machine.openHost`, `Machine.setView`, `Machine.onClose` — what is done with a host between
  frames.
-/

namespace Trellis

/-- What a user interface runs with. -/
structure Setting (κ ρ : Type) where
  app : App κ ρ
  registry : Registry κ ρ
  /-- How deep callbacks may nest, and how many rounds and tasks there may be. -/
  fuel : Nat

/-- Why a call on a view or a host fails. -/
inductive ViewError
  | definition (error : BuildError)
  | model (reason : String)
  | closed

def ViewError.message : ViewError → String
  | .definition _ => "failed to create definition"
  | .model _ => "view model failed"
  | .closed => "host has been closed"

variable {κ ρ : Type}

/-- What callbacks of a setting may start. -/
def Setting.reentry [Ordered ρ] (s : Setting κ ρ) : Reentry κ ρ := .ofFuel s.app s.fuel

/-- The binding of a name in a model. -/
def Model.binding? (app : App κ ρ) : Model κ → String → Option BindingId
  | .table bindings, name => bindings.lookup name
  | .scripted code, name => app.modelBinding code name

/-- What the names in a view's document stand for. -/
def View.lookup (app : App κ ρ) (w : World κ ρ) (view : View κ) : Lookup κ where
  function? name := view.exports.lookup name
  binding? name := do
    let b ← view.model.binding? app name
    pure (b, (← w.binding? b).content.shape)

namespace Machine

/-- The tasks that wait in a window. -/
def waiting (x : WindowId) : Machine κ ρ (List (Task κ)) := do
  pure ((((← get).window? x).map (·.tasks)).getD [])

/-- Takes the task that has waited longest in a window. -/
def nextTask (x : WindowId) : Machine κ ρ (Option (Task κ)) := do
  match ← waiting x with
  | [] => pure none
  | task :: rest =>
    modify (·.modifyWindow x ({ · with tasks := rest }))
    pure (some task)

variable [Ordered ρ]

/-- Prepares a model. Answers the reason if that failed. -/
def prepareModel (s : Setting κ ρ) : Model κ → Machine κ ρ (Option String)
  | .table _ => pure none
  | .scripted code => (s.app.prepareModel code).run s.reentry

/-- Prepares a view for a window: the model first, then the document. The view keeps the tree it had
if either fails. -/
def prepareView (s : Setting κ ρ) (window : WindowId) (view : View κ) :
    Machine κ ρ (View κ × Option ViewError) := do
  let view := { view with window := some window }
  if let some reason ← prepareModel s view.model then
    return (view, some (.model reason))
  match view.screen with
  | none => return (view, none)
  | some screen =>
    let ctx : BuildContext κ ρ :=
      { registry := s.registry, lookup := view.lookup s.app (← get), window := some window }
    match ← (Definition.load ctx screen.source screen.name).run with
    | .error e => return (view, some (.definition e))
    | .ok definition =>
      modify ({ · with scope := definition.index })
      return ({ view with definition := some definition, root := some definition.root }, none)

/-- Destroys a view. -/
def destroyView (s : Setting κ ρ) (view : View κ) : Machine κ ρ (Option ViewError) := do
  match view.model with
  | .table _ => pure none
  | .scripted code => pure ((← (s.app.destroyModel code).run s.reentry).map .model)

/-- Has a view handle the events of a frame. -/
def viewEvents (s : Setting κ ρ) (ctx : EventContext) (view : View κ) : Machine κ ρ Unit := do
  if let some hook := view.hook then (s.app.hook hook ctx).run s.reentry
  if let some root := view.root then handleEvents s.app s.reentry ctx root

/-- Draws a view on a canvas of the given size. Answers the ops. -/
def viewOps (s : Setting κ ρ) (size : Size Float) (view : View κ) :
    Machine κ ρ (List (DrawOp Float)) := do
  match view.root with
  | none => pure []
  | some root => pure (← draw s.app s.reentry root (.ofSize size)).2.ops

/-- Changes the session, if there is one. -/
def modifySession (f : Session κ → Session κ) : Machine κ ρ Unit :=
  modify fun w => { w with session := w.session.map f }

/-- The host of the session; without a session one that has been closed. -/
def getHost : Machine κ ρ (Host (View κ) κ) := do
  pure (((← get).session.map (·.host)).getD { closed := true })

/-- The calls that the host in a window makes, frames being of the given size. -/
def stage (s : Setting κ ρ) (window : WindowId) (size : Size Float) :
    Stage (Machine κ ρ) (View κ) κ ViewError (List (DrawOp Float)) (Task κ) where
  get := getHost
  set host := modifySession ({ · with host := host })
  poll := do
    let events := ((← get).session.map (·.events)).getD []
    modifySession ({ · with events := [] })
    pure events
  nextTask := nextTask window
  runTask := s.reentry.task
  taskLimit := s.fuel
  giveUp := stop .outOfFuel
  prepare := prepareView s window
  destroy := destroyView s
  handleEvents view events := viewEvents s { events, window := some window } view
  draw := viewOps s size
  runOnClose code := (s.app.task code).run s.reentry
  closed := .closed

/-- Opens a window for a host that shows nothing yet. -/
def openHost (config : Config) : Machine κ ρ WindowId := do
  let window ← modifyGet (·.addWindow
    { title := config.title, asksOnDefer := true, requested := true })
  modify ({ · with session := some { config, window } })
  pure window

/-- Sets the view that the host shows from the next frame on. -/
def setView (view : View κ) : Machine κ ρ Unit := do
  modifySession fun session => { session with host := session.host.setView view }
  invalidate ((← get).session.map (·.window))

/-- Sets what runs when the host closes. -/
def onClose (code : κ) : Machine κ ρ Unit :=
  modifySession fun session => { session with host := { session.host with onClose := some code } }

end Machine

end Trellis
