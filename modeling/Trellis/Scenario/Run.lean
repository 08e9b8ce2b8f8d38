import Trellis.Registry.Builtin
import Trellis.Scenario.Step

/-!
# Playing a scenario

* `Scenario` — the user interface with the names that steps use.
* `Scenario.step` — takes one step.
* `Scenario.play` — takes several, each with the lines written and the frames asked for meanwhile.
-/

namespace Trellis

/-- A user interface with the names that the steps of a scenario use. -/
structure Scenario where
  world : World Script Interval := {}
  names : Names := {}
  /-- Mirrors by name. -/
  mirrors : List (String × WatcherId) := []
  /-- The window that was there from the start. -/
  window : Option WindowId := none
  /-- How much of what happened has been reported. -/
  reported : Nat := 0
  /-- How many of the frames asked for have been reported. -/
  counted : Nat := 0

/-- Playing, which stops where a run of callbacks stops. -/
abbrev Playing := StateT Scenario (Except Stop)

namespace Scenario

/-- How far callbacks of a scenario may go. -/
def fuel : Nat := 1000

/-- The element types of scenarios: the layouts and widgets, and three for trials. -/
def registry : Registry Script Interval :=
  ((Registry.builtin.register "test.Stack" Construct.stack).register
    "test.Block" Construct.block).register "test.Fail" Construct.failing

/-- What scripts run with at the moment. -/
def setting (s : Scenario) : Setting Script Interval where
  app := Script.app s.names
  registry := registry
  fuel := fuel

/-- Runs a part on the state of the user interface. -/
def on {α : Type} (part : Machine Script Interval α) : Playing α := fun s => do
  let (answer, world) ← part s.world
  pure (answer, { s with world })

/-- Changes the names in use. -/
def modifyNames (f : Names → Names) : Playing Unit := modify fun s => { s with names := f s.names }

/-- Runs a callback. -/
def callback {α : Type} (program : Program Script Interval α) : Playing α := do
  on (program.run (← get).setting.reentry)

/-- Names something, in place of what had the name before. -/
def rename {α : Type} (entries : List (String × α)) (name : String) (value : α) :
    List (String × α) :=
  (name, value) :: entries.filter (·.1 ≠ name)

/-- Adds a binding to the table and under its key. -/
def addBinding (plan : BindingPlan) : Playing Unit := do
  let b ← on (modifyGet (·.addBinding plan.name plan.content))
  modifyNames fun names =>
    { names with bindings := rename names.bindings plan.key b
                 table := rename names.table plan.name b }

/-- Exports a function under a name. -/
def addFunction (name : String) (body : FunctionBody) : Playing Unit :=
  modifyNames fun names =>
    { names with functions := rename names.functions name (body.export name) }

/-- Opens the window that is there from the start. -/
def addWindow (title : String) (queues : Bool) : Playing Unit := do
  let window ← on (modifyGet (·.addWindow { title, queues }))
  modify fun s => { s with window := some window }
  modifyNames ({ · with window := some window })

/-- The binding of a key. -/
def bindingOf (key : String) : Playing (Option (BindingId × Binding Interval)) := do
  let s ← get
  pure do
    let b ← s.names.bindings.lookup key
    pure (b, ← s.world.binding? b)

/-- The bindings that have a key, by their names; of equal names that of the latest key comes
first. -/
def named (s : Scenario) : List (String × BindingId) :=
  s.names.bindings.filterMap fun entry =>
    (s.world.binding? entry.2).map fun binding => (binding.name, entry.2)

/-- What the names in a document stand for. -/
def lookup (s : Scenario) : Lookup Script where
  function? name := s.names.functions.lookup name
  binding? name := do
    let b ← s.names.table.lookup name
    pure (b, (← s.world.binding? b).content.shape)

/-- What trees are built with, in a window or without one. -/
def context (s : Scenario) (window : Option WindowId) : BuildContext Script Interval where
  registry := registry
  lookup := s.lookup
  window := window

/-- Builds a tree. -/
def buildTree (document : Document) (window : Option WindowId) :
    Playing (Except BuildError Definition) := do
  let ctx := (← get).context window
  on (match document with
    | .node node => (Definition.build ctx node).run
    | .stored source name => (Definition.load ctx source name).run
    | .text text format => (Definition.parse ctx format text).run)

/-- The view that the host shows. -/
def currentView : Playing (Option (View Script)) := do
  pure ((← get).world.session.bind fun session => session.host.view)

/-- The tree in use: that of the current view if there is a host. -/
def currentDefinition : Playing (Option Definition) := do
  let s ← get
  match s.world.session with
  | some session => pure (session.host.view.bind (·.definition))
  | none => pure s.world.definition

/-- The root of the tree in use. -/
def currentRoot : Playing (Option ElementId) := do
  let s ← get
  match s.world.session with
  | some session => pure (session.host.view.bind (·.root))
  | none => pure (s.world.definition.map (·.root))

/-- The element of an id in the tree in use. -/
def elementOf (id : String) : Playing (Option ElementId) := do
  if id = "$root" then currentRoot
  else
    let world := (← get).world
    pure ((← currentDefinition).bind fun definition => world.find? definition.index id)

/-! ## Bindings, watchers and mirrors -/

/-- Makes a watcher of a name; one that had the name is let go of. -/
def addWatcher (name : String) (code : Script) : Playing Unit := do
  if let some old := (← get).names.watchers.lookup name then on (Machine.drop old)
  let w ← on (modifyGet (·.addWatcher { watcher := .callback code }))
  modifyNames fun names => { names with watchers := rename names.watchers name w }

/-- Lets go of a watcher. -/
def dropWatcher (name : String) : Playing Unit := do
  if let some old := (← get).names.watchers.lookup name then
    on (Machine.drop old)
    modifyNames fun names =>
      { names with watchers := names.watchers.filter (·.1 ≠ name) }

/-- Makes a mirror of a name in the current window; one that had the name is let go of. -/
def addMirror (name : String) (value : Scalar Interval) : Playing Unit := do
  let s ← get
  if let some old := s.mirrors.lookup name then on (Machine.drop old)
  let m ← on (modifyGet (·.addWatcher { watcher := .mirror { value, window := s.names.window } }))
  modify fun s => { s with mirrors := rename s.mirrors name m }

/-- Does something with a mirror, and with a binding that it can follow. -/
def withMirror (mirror key : String)
    (part : WatcherId → BindingId → Machine Script Interval Unit) : Playing Reply := do
  let some m := (← get).mirrors.lookup mirror | pure .nothing
  if let some (b, binding) ← bindingOf key then
    let copy ← on (Machine.mirror? m)
    if copy.map (Shape.one ·.value.kind) = some binding.content.shape then on (part m b)
  pure (.scalar ((← on (Machine.mirror? m)).map (·.value)))

/-! ## Trees -/

/-- Builds a tree in the current window and puts it in place of the one before. -/
def build (document : Document) : Playing Reply := do
  match ← buildTree document (← get).names.window with
  | .error e => pure (.buildFailure e)
  | .ok definition =>
    on (modify fun w => { w with definition := some definition, scope := definition.index })
    pure (.description ((← get).world.describe definition))

/-- Draws the tree in use. -/
def draw (plan : DrawPlan) : Playing Reply := do
  let some root ← currentRoot | pure .nothing
  let setting := (← get).setting
  let canvas : Canvas Float (Request Script) := .ofSize plan.constraints.max
  let canvas := { canvas with
    constraints := plan.constraints
    metrics := plan.metrics.getD canvas.metrics
    origin := canvas.origin + plan.offset.getD Vec.zero }
  let (size, after) ← on (Machine.draw setting.app setting.reentry root canvas)
  pure (.drawing size after.ops)

/-- Makes an element from a node and adds it to another one. -/
def addChild (id : String) (node : Node) : Playing Reply := do
  let some parent ← elementOf id | pure (.text "missing")
  let s ← get
  let ctx := s.context s.names.window
  let type := node.text? "type"
  let making : Build Script Interval ElementId := do
    let some type := type | throw (.missingType [])
    let e ← Build.instantiate ctx type [] node
    modifyThe (World Script Interval) (·.setId e ((node.text? "id").getD ""))
    pure e
  match ← on making.run with
  | .error e => pure (.buildFailure e)
  | .ok child =>
    let w := (← get).world
    let some element := w.element? parent | pure (.text "missing")
    match element.body.addChild child (w.offer child (node.single? "weight")) with
    | .ok body =>
      on (modify (·.modifyElement parent ({ · with body := body })))
      pure (.answer .done)
    | .error (.rejected reason) => pure (.rejection reason)
    | .error .noContainer => pure (.text "not a container")

/-- Tries to find an element of a type by its id, and to lock it. -/
def findAs (id : String) (kind : Kind) : Playing Reply := do
  let some e ← elementOf id | pure .nothing
  match ← on (Machine.handle? e kind) with
  | none => pure .nothing
  | some h =>
    let locked ← on (Machine.canLock h)
    let element := ((← get).world.element? e).filter fun el => !el.locked
    pure (.found locked (element.map (·.body.kind)))

/-- Runs the tasks that the first window holds now, in order. -/
def runTasks : Playing Reply := do
  let s ← get
  let some window := s.window | pure (.count 0)
  let n := (← on (Machine.waiting window)).length
  for _ in List.range n do
    if let some task ← on (Machine.nextTask window) then on (s.setting.reentry.task task)
  pure (.count n)

/-! ## Hosts -/

/-- The titles of the configuration and of the window of the host. -/
def titles : Playing Reply := do
  let world := (← get).world
  match world.session with
  | some session =>
    pure (.titles session.config.title ((world.titleOf (some session.window)).getD ""))
  | none => pure .nothing

/-- Does something with the host, frames being of the given size. -/
def withHost (size : Size Float)
    (part : Stage (Machine Script Interval) (View Script) Script ViewError (List (DrawOp Float))
      (Task Script) → Machine Script Interval Reply) : Playing Reply := do
  let s ← get
  match s.world.session with
  | some session => on (part (Machine.stage s.setting session.window size))
  | none => pure .nothing

/-- Closes the host. -/
def close : Playing Reply :=
  withHost Vec.zero fun stage => do
    match ← stage.close with
    | some e => pure (.viewFailure e)
    | none => pure .nothing

/-- Closes the host and lets go of it. -/
def dropHost : Playing Unit := do
  let _ ← close
  on (modify ({ · with session := none }))

/-- Makes a new host in place of the tree and the host in use. Its window is the current one from
then on. -/
def host (config : Config) : Playing Reply := do
  on (modify ({ · with definition := none }))
  dropHost
  let window ← on (Machine.openHost config)
  modifyNames ({ · with window := some window })
  titles

/-- Makes a view and has the host show it. -/
def setView (plan : ViewPlan) : Playing Reply := do
  let built ← match plan.root with
    | some node => do pure (some (← buildTree (.node node) none))
    | none => pure none
  match built with
  | some (.error e) => pure (.buildFailure e)
  | other =>
    let root := match other with
      | some (.ok definition) => some definition.root
      | _ => none
    let s ← get
    let id := (plan.id <|> plan.screen.map (·.name)).getD ""
    let id ← if id.isEmpty then on (modifyGet World.freshId) else pure id
    on (Machine.setView
      { id
        model := if plan.table then .table s.named else .scripted .model
        screen := plan.screen
        root
        exports := s.names.functions
        hook := plan.hook.map .hook })
    pure .nothing

/-- Runs one frame. -/
def frame (size : Size Float) : Playing Reply :=
  withHost size fun stage => do
    match ← stage.frame with
    | .error e => pure (.viewFailure e)
    | .ok ops => pure (.drawing size (ops.getD []))

/-- Whether the host's window was asked for a new frame since this was last looked at. -/
def takeInvalidated : Playing Reply := do
  let world := (← get).world
  match world.session with
  | none => pure .nothing
  | some session =>
    on (modify (·.modifyWindow session.window ({ · with requested := false })))
    pure (.flag (((world.window? session.window).map (·.requested)).getD false))

/-- Looks at the view that the host shows. -/
def viewInfo (function binding : Option String) : Playing Reply := do
  let some view ← currentView | pure .nothing
  let s ← get
  let lookup := view.lookup s.setting.app s.world
  let found := (binding.bind lookup.binding?).bind fun found => s.world.binding? found.1
  pure (.view
    { id := view.id
      window := s.world.titleOf view.window
      root := view.root.bind s.world.sight
      definition := view.definition.map s.world.describe
      function := (function.bind lookup.function?).map (·.kind)
      binding := found.map (·.content)
      modelBinding := found.map (·.name) })

/-- Prepares the current view once more. -/
def prepareAgain : Playing Reply := do
  let some view ← currentView | pure (.text "no view")
  withHost Vec.zero fun stage => do
    let (view, failure) ← stage.prepare view
    stage.set { (← stage.get) with view := some view }
    match failure with
    | some e => pure (.viewFailure e)
    | none => pure .nothing

/-! ## Steps -/

/-- The lines written and the number of frames asked for since they were last reported. -/
def news : Playing (List String × Nat) := do
  let s ← get
  let count := ((s.window.bind s.world.window?).map (·.invalidations)).getD 0
  set { s with reported := s.world.trail.length, counted := count }
  pure (s.world.notesSince s.reported, count - s.counted)

mutual

/-- Takes one step. -/
def step : ScenarioStep → Playing Reply
  | .set key value => do
    match ← bindingOf key with
    | some (b, binding) =>
      match Content.ofDatum? binding.content.shape value with
      | some content => .flag <$> callback (.set b content .done)
      | none => pure .nothing
    | none => pure .nothing
  | .get key => do pure (((← bindingOf key).map (.content ·.2.content)).getD .nothing)
  | .name key => do pure (((← bindingOf key).map (.text ·.2.name)).getD .nothing)
  | .getAt key i => do
    pure (.scalar ((← bindingOf key).bind fun b => b.2.content.items?.bind (·[i]?)))
  | .asList key => do
    match (← bindingOf key).bind (·.2.content.items?) with
    | some items =>
      pure (.items items.length ((List.range (items.length + 1)).map fun i => items[i]?))
    | none => pure .nothing
  | .watchers key => do
    match ← bindingOf key with
    | some (_, binding) =>
      if binding.content.shape.isList then pure .nothing
      else pure (.count binding.watchers.length)
    | none => pure .nothing
  | .watcher name actions => do
    addWatcher name (.watcher name actions)
    pure .nothing
  | .watch w key => do
    callback (Action.run (← get).names none (.watch w key))
    pure .nothing
  | .unwatch w key => do
    callback (Action.run (← get).names none (.unwatch w key))
    pure .nothing
  | .dropWatcher name => do
    dropWatcher name
    pure .nothing
  | .mirror name value => do
    addMirror name value
    pure .nothing
  | .attach m key => withMirror m key Machine.attach
  | .detach m key => withMirror m key Machine.unwatch
  | .mirrorGet name => do
    match (← get).mirrors.lookup name with
    | some m => pure (.scalar ((← on (Machine.mirror? m)).map (·.value)))
    | none => pure .nothing
  | .mirrorSet name value => do
    if let some m := (← get).mirrors.lookup name then
      if let some copy ← on (Machine.mirror? m) then
        if let some value := Scalar.ofDatum? copy.value.kind value then
          on (Machine.editMirror m value)
    pure .nothing
  | .writeBack m key => do
    let s ← get
    match s.mirrors.lookup m, s.names.bindings.lookup key with
    | some m, some b => .flag <$> on (Machine.writeBack s.setting.reentry m b)
    | _, _ => pure .nothing
  | .dropMirror name => do
    match (← get).mirrors.lookup name with
    | some m =>
      on (Machine.drop m)
      modify fun s => { s with mirrors := s.mirrors.filter (·.1 ≠ name) }
      pure (.flag true)
    | none => pure (.flag false)
  | .binding plan => do
    addBinding plan
    pure .nothing
  | .table name => do
    let s ← get
    let found := (s.names.table.lookup name).bind s.world.binding?
    pure (.table s.names.table.length (found.map (·.content)))
  | .act actions => do
    callback (Action.runAll (← get).names none actions)
    pure .nothing
  | .build document => build document
  | .drop => do
    on (modify ({ · with definition := none }))
    pure .nothing
  | .events events => do
    let some root ← currentRoot | pure .nothing
    let s ← get
    let ctx : EventContext := { events, window := s.names.window }
    on (Machine.handleEvents s.setting.app s.setting.reentry ctx root)
    pure .nothing
  | .draw plan => draw plan
  | .query id => do
    let e ← elementOf id
    pure (.sight (e.bind (← get).world.sight))
  | .call id call => do
    match ← elementOf id with
    | some e =>
      let s ← get
      let call := s.names.call call
      .answer <$> on do (← Machine.perform s.setting.app e call).run s.setting.reentry
    | none => pure (.text "missing")
  | .findAs id kind => findAs id kind
  | .addChild id node => addChild id node
  | .hold id steps => do
    let some e ← elementOf id | pure .nothing
    on do
      Machine.lock e
      modify fun w => { w with pinned := e :: w.pinned }
    let outcomes ← play steps
    on do
      Machine.unlock e
      modify fun w => { w with pinned := w.pinned.erase e }
    pure (.steps outcomes)
  | .runTasks => runTasks
  | .host config => host config
  | .dropHost => do
    dropHost
    pure .nothing
  | .view plan => setView plan
  | .send events => do
    on (events.forM Machine.send)
    pure .nothing
  | .frame size => frame size
  | .invalidated => takeInvalidated
  | .setTitle title => do
    if let some session := (← get).world.session then
      on (modify (·.modifyWindow session.window ({ · with title := title })))
    titles
  | .onClose line => do
    on (Machine.onClose (.later [.log line]))
    pure .nothing
  | .close => close
  | .viewInfo function binding => viewInfo function binding
  | .prepareAgain => prepareAgain
  | .prepareFault reason => do
    modifyNames ({ · with prepareFault := reason })
    pure .nothing
  | .destroyFault reason => do
    modifyNames ({ · with destroyFault := reason })
    pure .nothing

/-- Takes several steps. -/
def play : List ScenarioStep → Playing (List (Reply × List String × Nat))
  | [] => pure []
  | first :: rest => do
    let reply ← step first
    let news ← news
    pure ((reply, news) :: (← play rest))

end

end Scenario

end Trellis
