import Trellis.Machine.Run

/-!
# Handling events

Every frame the events go down the tree. An element is locked while it handles them, and so are all
above it; callbacks run meanwhile.

* `Machine.handlePointer` — what pressable widgets do with pointer events.
* `Machine.handleLeaf` — what each type of element without children does.
* `Machine.handleEvents` — the whole tree below an element.
-/

namespace Trellis.Machine

variable {κ ρ : Type} [Ordered ρ]

/-- Runs callbacks of an element one after another. -/
def runHandlers (app : App κ ρ) (r : Reentry κ ρ) (ctx : EventContext) (id : String)
    (codes : List κ) : Machine κ ρ Unit :=
  codes.forM fun code => (app.handler code ctx id).run r

/-- What a pressable widget does once its state has changed, before it calls the application: a change
asks for a new frame, and a check box is toggled by an odd number of clicks and reports its value. -/
def react (r : Reentry κ ρ) (e : ElementId) (element : Element κ) (before now : PointerState)
    (clicks : Nat) : Machine κ ρ Unit := do
  match element.body with
  | .checkbox _ =>
    if clicks % 2 = 1 then
      if let some (.flag value) ← valueOf e then setValue e (.flag !value)
    report r e
  | _ => if before ≠ now then invalidate element.window

/-- Follows the pointer on a pressable widget: the state is updated, the widget reacts to that, and the
callbacks run for the calls that are due. -/
def handlePointer (app : App κ ρ) (r : Reentry κ ρ) (ctx : EventContext) (e : ElementId)
    (element : Element κ) (handlers : PointerHandlers κ) (before : PointerState) :
    Machine κ ρ Unit := do
  let (now, clicks) := before.apply (ctx.phases element.id)
  modify (·.modifyElement e fun el => { el with body := el.body.withPointer now })
  react r e element before now clicks
  runHandlers app r ctx element.id ((handlers.due before now clicks).map (·.2))

/-- Takes an edited text into an input, as far as it is accepted. -/
def enterText (app : App κ ρ) (r : Reentry κ ρ) (ctx : EventContext) (e : ElementId)
    (id : String) (input : Input κ) (edited : String) : Machine κ ρ Unit := do
  let allowed (taken : List Char) : Machine κ ρ (List Char) := do
    pure (← (filterAfter app ctx id input (String.ofList taken)).run r).toList
  let taken ← accept allowed input.multiLine input.maxLength edited.toList
  setValue e (.text (String.ofList taken))

/-- What an input does with one of its events: a text is entered, unless the input is read-only. -/
def takeEvent (app : App κ ρ) (r : Reentry κ ρ) (ctx : EventContext) (e : ElementId)
    (id : String) (input : Input κ) : EventKind → Machine κ ρ Unit
  | .text text => if input.readOnly then pure () else enterText app r ctx e id input text
  | _ => pure ()

/-- Handles the events of an input: texts are entered in order, the value is reported, and then the
content is confirmed once if that was asked for. -/
def handleInput (app : App κ ρ) (r : Reentry κ ρ) (ctx : EventContext) (e : ElementId)
    (id : String) (input : Input κ) : Machine κ ρ Unit := do
  let events := ctx.addressedTo id
  events.forM (takeEvent app r ctx e id input)
  report r e
  runHandlers app r ctx id (input.confirmation? events).toList

/-- Sets a slider to the value of the last event, if there is one, and reports it. -/
def handleSlider (r : Reentry κ ρ) (ctx : EventContext) (e : ElementId) (id : String) :
    Machine κ ρ Unit := do
  let values := (ctx.addressedTo id).filterMap fun
    | .value x => some x
    | _ => none
  if let some x := values.getLast? then
    setValue e (.single (Number.unit (Number.single x)))
  report r e

/-- Calls the item handler for every item that the list has at the start. -/
def handleItems (app : App κ ρ) (r : Reentry κ ρ) (ctx : EventContext) (element : Element κ)
    (list : ItemList κ) : Machine κ ρ Unit := do
  if let (some b, some code) := (element.binding, list.handler) then
    let items := (((← get).binding? b).bind (·.content.items?)).getD []
    (List.range items.length).forM fun i => (app.itemHandler code ctx i b).run r

/-- Handles the events of an element without children. -/
def handleLeaf (app : App κ ρ) (r : Reentry κ ρ) (ctx : EventContext) (e : ElementId)
    (element : Element κ) : Machine κ ρ Unit := do
  match element.body with
  | .button s => handlePointer app r ctx e element s.handlers s.pointer
  | .checkbox s => handlePointer app r ctx e element s.handlers s.pointer
  | .iconButton s => handlePointer app r ctx e element s.handlers s.pointer
  | .input input => handleInput app r ctx e element.id input
  | .slider .. => handleSlider r ctx e element.id
  | .label _ | .progressBar _ => report r e
  | .list list => handleItems app r ctx element list
  | .block size frames =>
    modify (·.modifyElement e fun el => { el with body := .block size (frames + 1) })
  | _ => pure ()

/-- Handles the events of a tree of at most the given depth. -/
def handleWithin (app : App κ ρ) (r : Reentry κ ρ) (ctx : EventContext) :
    Nat → ElementId → Machine κ ρ Unit
  | 0, _ => stop .outOfFuel
  | depth + 1, e => locking e do
    if let some element := (← get).element? e then
      match element.body with
      | .flex .. | .inset .. | .minSize .. | .stack .. =>
        element.body.children.forM (handleWithin app r ctx depth)
      | _ => handleLeaf app r ctx e element

/-- Handles the events of the tree below an element. No tree is deeper than there are elements. -/
def handleEvents (app : App κ ρ) (r : Reentry κ ρ) (ctx : EventContext) (e : ElementId) :
    Machine κ ρ Unit := do
  handleWithin app r ctx ((← get).elements.size + 1) e

end Trellis.Machine
