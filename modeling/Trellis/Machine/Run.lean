import Trellis.Element.Accept
import Trellis.Machine.Basic

/-!
# Running callbacks

Setting a binding to a content that differs calls its watchers in rounds. A binding that is set
while a round of it is under way gets another round after that one, so rounds of one binding never
overlap. Callbacks may call back without end, so a run has fuel: a bound on the nesting of calls and
on the rounds of one binding.

* `Machine.setContent` — sets a binding.
* `Machine.drain` — the rounds of a binding.
* `Program.run` — runs a callback.
* `Machine.perform` — a call on an element.
* `Reentry.ofFuel` — what a callback may start, to a given depth.
-/

namespace Trellis

/-- What a callback may start that calls other callbacks in turn. -/
structure Reentry (κ ρ : Type) where
  /-- Tells the watchers of a binding that it changed. -/
  notify : BindingId → Machine κ ρ Unit
  /-- Runs a task. -/
  task : Task κ → Machine κ ρ Unit

variable {κ ρ : Type}

namespace Machine

/-- Stores a content in a binding if it differs from the one it had. Answers whether it does. A
content of another shape is refused. -/
def store [Ordered ρ] (b : BindingId) (content : Content ρ) : Machine κ ρ Bool := do
  match (← get).binding? b with
  | none => pure false
  | some binding =>
    if binding.content.shape = content.shape ∧ binding.content.differs content then
      modify fun w => (w.modifyBinding b ({ · with content := content })).record (.changed b)
      pure true
    else pure false

/-- Sets a binding and tells its watchers if the content differs from the one it had. Answers
whether it does. -/
def setContent [Ordered ρ] (r : Reentry κ ρ) (b : BindingId) (content : Content ρ) :
    Machine κ ρ Bool := do
  let changed ← store b content
  if changed then r.notify b
  pure changed

/-- Sets a binding to the copy of a mirror if that was edited since the binding last changed.
Answers whether the binding changed. -/
def writeBack [Ordered ρ] (r : Reentry κ ρ) (x : WatcherId) (b : BindingId) :
    Machine κ ρ Bool := do
  match ← takeEdit x with
  | some value => setContent r b (.one value)
  | none => pure false

/-- Reports the value of an element to the binding it follows. -/
def report [Ordered ρ] (r : Reentry κ ρ) (e : ElementId) : Machine κ ρ Unit := do
  if let some element := (← get).element? e then
    if let (some x, some b) := (element.follower, element.binding) then
      let _ ← writeBack r x b

/-- Hands a task to a window. Answers the tasks to run at once: the task itself if the window keeps
none. -/
def enqueue (x : WindowId) (task : Task κ) : Machine κ ρ (List (Task κ)) := do
  match (← get).window? x with
  | none => pure []
  | some window =>
    if window.queues then
      modify (·.modifyWindow x fun window => { window with tasks := window.tasks ++ [task] })
      if window.asksOnDefer then invalidate (some x)
      pure []
    else pure [task]

/-- Has a window run a task once the tree is released, or at once if it keeps no tasks. -/
def defer (r : Reentry κ ρ) (x : WindowId) (task : Task κ) : Machine κ ρ Unit := do
  (← enqueue x task).forM r.task

/-- Hands a call on the element of a handle to the window of the handle if the element is busy;
without a window nothing comes of it. Answers the tasks to run at once: the call itself if the
element is free. -/
def handIn (h : Handle) (call : Call κ BindingId) (reply : κ) : Machine κ ρ (List (Task κ)) := do
  match (← get).element? h.element with
  | none => pure []
  | some element =>
    let task : Task κ := .edit h.element h.kind call reply
    if element.locked then
      match h.window with
      | some x => enqueue x task
      | none => pure []
    else pure [task]

/-- Updates the element of a handle now if it is free, or else has the window of the handle do it. -/
def update (r : Reentry κ ρ) (h : Handle) (call : Call κ BindingId) (reply : κ) : Machine κ ρ Unit := do
  (← handIn h call reply).forM r.task

/-- Sends an event to the host, if there is one. -/
def send (event : Event) : Machine κ ρ Unit :=
  modify fun w =>
    { w with session := w.session.map fun s => { s with events := s.events ++ [event] } }

end Machine

/-- Runs a callback. -/
def Program.run [Ordered ρ] {α : Type} (r : Reentry κ ρ) : Program κ ρ α → Machine κ ρ α
  | .done answer => pure answer
  | .note line next => do Machine.note line; next.run r
  | .read b next => do
    (next (((← get).binding? b).map fun binding => (binding.name, binding.content))).run r
  | .set b content next => do (next (← Machine.setContent r b content)).run r
  | .watch w b next => do Machine.watch w b; next.run r
  | .unwatch w b next => do Machine.unwatch w b; next.run r
  | .drop w next => do Machine.drop w; next.run r
  | .keeps x next => do (next ((← get).keeps x)).run r
  | .attach m b next => do Machine.attach m b; next.run r
  | .edit m value next => do Machine.editMirror m value; next.run r
  | .writeBack m b next => do (next (← Machine.writeBack r m b)).run r
  | .invalidate window next => do Machine.invalidate (some window); next.run r
  | .title window next => do
    (next (((← get).window? window).map (·.title) |>.getD "")).run r
  | .defer window code next => do Machine.defer r window (.run code); next.run r
  | .send event next => do Machine.send event; next.run r
  | .find id next => do
    let w ← get
    (next (w.find? w.scope id)).run r
  | .handle element kind next => do (next (← Machine.handle? element kind)).run r
  | .tryLock h next => do (next (← Machine.canLock h)).run r
  | .update h call reply next => do Machine.update r h call reply; next.run r

namespace Machine

/-! ## Rounds -/

/-- Begins the call of a watcher for a binding that changed. Answers what the application runs in
it. A mirror of values of another kind ignores the call. -/
def call (app : App κ ρ) (x : WatcherId) (b : BindingId) : Machine κ ρ (Program κ ρ Unit) := do
  modify (·.record (.called x b))
  let w ← get
  match w.watcher? x with
  | none => pure (.done ())
  | some cell =>
    match cell.watcher with
    | .mirror copy =>
      if (w.binding? b).map (·.content.shape) = some (.one copy.value.kind) then
        takeOver x b
        invalidate copy.window
      pure (.done ())
    | .invalidator window =>
      invalidate window
      pure (.done ())
    | .callback code => pure (app.watcher code b)

/-- Ends the call of a watcher, which need not be kept alive any longer. -/
def release (x : WatcherId) (b : BindingId) : Machine κ ρ Unit :=
  modify fun w => { w.record (.returned x b) with awaiting := w.awaiting.erase x }

/-- Begins a round: the watchers that are gone are dropped, and the others, which are to be called,
are kept alive until then. -/
def beginRound (b : BindingId) : Machine κ ρ (List WatcherId) := do
  let watchers := (← get).listeners b
  modify fun w => w.modifyBinding b fun binding =>
    { binding.prune w.watcherAlive with pending := false }
  modify fun w => { w.record (.round b watchers) with awaiting := watchers ++ w.awaiting }
  pure watchers

/-- Notes that a binding has changed. Answers whether its rounds are to begin; if they are under way,
another one is left to them. -/
def announce (b : BindingId) : Machine κ ρ Bool := do
  modify (·.modifyBinding b ({ · with pending := true }))
  if (((← get).binding? b).map (·.notifying)).getD true then pure false
  else
    modify (·.modifyBinding b ({ · with notifying := true }))
    pure true

/-- Ends the rounds of a binding. -/
def settle (b : BindingId) : Machine κ ρ Unit :=
  modify fun w => (w.modifyBinding b ({ · with notifying := false })).record (.settled b)

variable [Ordered ρ]

/-- Calls watchers one after another. -/
def callEach (app : App κ ρ) (r : Reentry κ ρ) (b : BindingId) : List WatcherId → Machine κ ρ Unit
  | [] => pure ()
  | x :: rest => do
    (← call app x b).run r
    release x b
    callEach app r b rest

/-- One round: every watcher that is alive now is called. -/
def round (app : App κ ρ) (r : Reentry κ ρ) (b : BindingId) : Machine κ ρ Unit := do
  callEach app r b (← beginRound b)

/-- Rounds of a binding until no change is left untold. -/
def drain (app : App κ ρ) (r : Reentry κ ρ) : Nat → BindingId → Machine κ ρ Unit
  | rounds, b => do
    if (((← get).binding? b).map (·.pending)).getD false then
      match rounds with
      | 0 => stop .outOfFuel
      | rounds + 1 =>
        round app r b
        drain app r rounds b

/-- Tells the watchers of a binding that it changed. -/
def notify (app : App κ ρ) (r : Reentry κ ρ) (rounds : Nat) (b : BindingId) :
    Machine κ ρ Unit := do
  if ← announce b then
    drain app r rounds b
    settle b

/-! ## Calls on elements -/

omit [Ordered ρ] in
/-- The characters that an input accepts after a text. -/
def filterAfter (app : App κ ρ) (ctx : EventContext) (id : String) (input : Input κ)
    (text : String) : Program κ ρ String :=
  match input.filter with
  | some code => app.filter code ctx id text
  | none => .done (String.ofList (input.type.filterAfter text.toList))

omit [Ordered ρ] in
/-- Changes an element, or asks it something. The answer may be up to the application. -/
def performChange (app : App κ ρ) (e : ElementId) (element : Element κ) :
    Change → Machine κ ρ (Program κ ρ Answer)
  | .setId id => do
    modify (·.setId e id)
    pure (.done .done)
  | .filterAfter text =>
    match element.body with
    | .input input => pure ((filterAfter app {} element.id input text).bind (.done ∘ .text))
    | _ => pure (.done .unsupported)
  | change => do
    if let some (value : Scalar ρ) := element.body.edit? change then
      setValue e value
      pure (.done .done)
    else if let some body := element.body.restyle? change then
      modify (·.modifyElement e ({ · with body := body }))
      invalidate element.window
      pure (.done .done)
    else if let some body := element.body.configure? change then
      modify (·.modifyElement e ({ · with body := body }))
      pure (.done .done)
    else pure (.done .unsupported)

omit [Ordered ρ] in
/-- Makes a call on an element. A binding that the element cannot follow counts as none. -/
def perform (app : App κ ρ) (e : ElementId) (call : Call κ BindingId) :
    Machine κ ρ (Program κ ρ Answer) := do
  let w ← get
  let some element := w.element? e | pure (.done .unsupported)
  match element.body, call with
  | _, .change change => performChange app e element change
  | body, .bind target =>
    if body.bindable then
      bind e (target.filter fun b => ((w.binding? b).map (body.follows ·.content.shape)).getD false)
      pure (.done .done)
    else pure (.done .unsupported)
  | .list s, .renderer code =>
    modify (·.modifyElement e ({ · with body := .list { s with renderer := code } }))
    pure (.done .done)
  | .list s, .handler code =>
    modify (·.modifyElement e ({ · with body := .list { s with handler := code } }))
    pure (.done .done)
  | _, _ => pure (.done .unsupported)

omit [Ordered ρ] in
/-- Makes a call on an element if it is of the expected type. Answers what is left to run, the report
of the element's answer included. -/
def edit (app : App κ ρ) (e : ElementId) (kind : Kind) (call : Call κ BindingId) (reply : κ) :
    Machine κ ρ (Program κ ρ Unit) := do
  if ((← get).element? e).map (·.body.kind) = some kind then
    pure ((← perform app e call).bind (app.reply reply))
  else pure (.done ())

/-- Runs a task. An element is locked during a call on it. -/
def runTask (app : App κ ρ) (r : Reentry κ ρ) : Task κ → Machine κ ρ Unit
  | .run code => (app.task code).run r
  | .edit e kind call reply => locking e do (← edit app e kind call reply).run r

end Machine

/-- What callbacks may start with the given fuel. -/
def Reentry.ofFuel [Ordered ρ] (app : App κ ρ) : Nat → Reentry κ ρ
  | 0 => { notify := fun _ => Machine.stop .outOfFuel, task := fun _ => Machine.stop .outOfFuel }
  | fuel + 1 =>
    let inner := ofFuel app fuel
    { notify := Machine.notify app inner (fuel + 1), task := Machine.runTask app inner }

end Trellis
