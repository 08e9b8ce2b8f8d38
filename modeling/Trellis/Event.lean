import Trellis.Observable.Binding

/-!
# Input events

Events are addressed to elements by id; finding the element under the pointer is the work of
whoever sends them. A widget that can be pressed follows the pointer through `PointerState`.

* `Event`, `EventContext` — the input of one frame.
* `PointerState.apply` — the state after some phases, and the clicks they complete.
-/

namespace Trellis

/-- Phases of a pointer's stay on an element. -/
inductive PointerPhase
  | enter | leave | press | release
  deriving DecidableEq

/-- What an event says. -/
inductive EventKind
  | pointer (phase : PointerPhase)
  /-- Replaces the text of an input. -/
  | text (text : String)
  /-- Sets the value of a slider. -/
  | value (value : Float)
  /-- Confirms the content of an input. -/
  | submit

/-- Whether an event confirms the content of an input. -/
def EventKind.isSubmit : EventKind → Bool
  | .submit => true
  | _ => false

/-- An input event addressed to one element. -/
structure Event where
  target : String
  kind : EventKind

/-- The events of a frame and the window it belongs to. -/
structure EventContext where
  events : List Event := []
  window : Option WindowId := none

/-- What the events addressed to an element say, in order of arrival. -/
def EventContext.addressedTo (ctx : EventContext) (id : String) : List EventKind :=
  (ctx.events.filter (·.target = id)).map (·.kind)

/-- The pointer phases addressed to an element. -/
def EventContext.phases (ctx : EventContext) (id : String) : List PointerPhase :=
  (ctx.addressedTo id).filterMap fun
    | .pointer phase => some phase
    | _ => none

/-- Whether the pointer is on an element, and whether it is held down there. -/
structure PointerState where
  hovered : Bool := false
  pressed : Bool := false
  deriving DecidableEq

namespace PointerState

/-- The state after one phase. -/
def step (state : PointerState) : PointerPhase → PointerState
  | .enter => { state with hovered := true }
  | .leave => { hovered := false, pressed := false }
  | .press => { hovered := true, pressed := true }
  | .release => { state with pressed := false }

/-- The clicks that one phase completes: a release does if the pointer was held down. -/
def clicksOf (state : PointerState) : PointerPhase → Nat
  | .release => if state.pressed then 1 else 0
  | _ => 0

/-- The state after some phases, and the number of clicks they complete. -/
def apply (state : PointerState) : List PointerPhase → PointerState × Nat
  | [] => (state, 0)
  | phase :: rest =>
    let (final, clicks) := apply (state.step phase) rest
    (final, state.clicksOf phase + clicks)

end PointerState

end Trellis
