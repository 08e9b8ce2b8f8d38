import Trellis.Event
import Trellis.Icon
import Trellis.Layout.Flex
import Trellis.Layout.Single
import Trellis.Look.Palette
import Trellis.Style.InputType

/-!
# Elements

An element has an id, the window it lives in, a lock, and a body with the settings of its type. A
value that follows a binding is not in the body but in the element's follower, a watcher of its own:
a mirror of the value, or for a list one that only asks for new frames.

* `Kind` — the type of an element.
* `Body` — the settings of each type of element; `Body.addChild` adds a child.
* `Element` — an element.
-/

namespace Trellis

/-- What a pressable widget calls the application for. -/
inductive PointerCall
  | pressDown | pressUp | pressed | hoverEntered | hoverExited | hovered | clicked
  deriving DecidableEq

/-- The callbacks of a pressable widget. -/
structure PointerHandlers (κ : Type) where
  clicked : Option κ := none
  hovered : Option κ := none
  hoverEntered : Option κ := none
  hoverExited : Option κ := none
  pressed : Option κ := none
  pressDown : Option κ := none
  pressUp : Option κ := none

namespace PointerHandlers

variable {κ : Type}

/-- The callbacks by the keys that documents set them with. -/
def entries (h : PointerHandlers κ) : List (String × Option κ) :=
  [("onClicked", h.clicked), ("onHovered", h.hovered), ("onHoverEntered", h.hoverEntered),
    ("onHoverExited", h.hoverExited), ("onPressed", h.pressed), ("onPressDown", h.pressDown),
    ("onPressUp", h.pressUp)]

/-- The callback that is set for a call. -/
def code? (h : PointerHandlers κ) : PointerCall → Option κ
  | .pressDown => h.pressDown
  | .pressUp => h.pressUp
  | .pressed => h.pressed
  | .hoverEntered => h.hoverEntered
  | .hoverExited => h.hoverExited
  | .hovered => h.hovered
  | .clicked => h.clicked

/-- A call with its callback, if one is set. -/
def call (h : PointerHandlers κ) (call : PointerCall) : List (PointerCall × κ) :=
  ((h.code? call).map (call, ·)).toList

/-- The calls to make, in order, for the change from `before` to `now` and the clicks completed
between the two, each with its callback. -/
def due (h : PointerHandlers κ) (before now : PointerState) (clicks : Nat) :
    List (PointerCall × κ) :=
  let call (c : PointerCall) (when : Bool) : List (PointerCall × κ) := if when then h.call c else []
  call .pressDown (now.pressed && !before.pressed) ++
    call .pressUp (!now.pressed && before.pressed) ++
    call .pressed now.pressed ++
    call .hoverEntered (now.hovered && !before.hovered) ++
    call .hoverExited (!now.hovered && before.hovered) ++
    call .hovered now.hovered ++
    (List.replicate clicks (h.call .clicked)).flatten

end PointerHandlers

/-- A pressable button with a line of text. -/
structure Button (κ : Type) where
  label : String
  background : Color Float := Palette.accent
  handlers : PointerHandlers κ := {}
  pointer : PointerState := {}

/-- A check box with a line of text. Clicking it toggles its value. -/
structure Checkbox (κ : Type) where
  label : String
  handlers : PointerHandlers κ := {}
  pointer : PointerState := {}

/-- A pressable button with an icon. The description is for those who cannot see it. -/
structure IconButton (κ : Type) where
  icon : Option Icon
  description : String
  background : Color Float := Palette.accent
  color : Color Float := Palette.onAccent
  handlers : PointerHandlers κ := {}
  pointer : PointerState := {}

/-- An editable text. -/
structure Input (κ : Type) where
  hint : String
  type : InputType
  alignment : TextAlignment := default
  /-- The largest number of characters accepted; zero for no limit. -/
  maxLength : Nat := 0
  readOnly : Bool := false
  multiLine : Bool := false
  wrapPolicy : WrapPolicy := default
  /-- Whether the content can be confirmed. -/
  submit : Bool := false
  mask : Option Char := none
  filter : Option κ := none
  onSubmit : Option κ := none

/-- The callback for a confirmation, if there is one among the events and the input takes it. -/
def Input.confirmation? {κ : Type} (input : Input κ) (events : List EventKind) : Option κ :=
  if input.submit && events.any EventKind.isSubmit then input.onSubmit else none

/-- Text that is shown. -/
structure Label where
  format : LabelFormat
  color : Color Float := Palette.text
  alignment : TextAlignment := default
  maxLines : Nat := 0
  wrapPolicy : WrapPolicy := default
  lineHeight : Float := 0
  lineHeightScale : Float := 0
  truncator : String := "…"
  font : Option Font := none

/-- The items of a bound sequence along an axis. -/
structure ItemList (κ : Type) where
  axis : Axis
  alignment : Alignment := default
  scrollToEnd : Bool := false
  renderer : Option κ := none
  handler : Option κ := none

/-- The types of elements. -/
inductive Kind
  | flex | inset | minSize | button | checkbox | graphic | iconButton | input | label | list
  | loader | progressBar | slider | spacer | stack | block
  deriving DecidableEq

namespace Kind

/-- All types of elements. -/
def all : List Kind :=
  [.flex, .inset, .minSize, .button, .checkbox, .graphic, .iconButton, .input, .label, .list,
    .loader, .progressBar, .slider, .spacer, .stack, .block]

def name : Kind → String
  | .flex => "Flex"
  | .inset => "Inset"
  | .minSize => "MinSize"
  | .button => "Button"
  | .checkbox => "Checkbox"
  | .graphic => "Graphic"
  | .iconButton => "IconButton"
  | .input => "Input"
  | .label => "Label"
  | .list => "List"
  | .loader => "Loader"
  | .progressBar => "ProgressBar"
  | .slider => "Slider"
  | .spacer => "Spacer"
  | .stack => "Stack"
  | .block => "Block"

/-- The type of that name. -/
def ofName? (s : String) : Option Kind := all.find? (·.name == s)

end Kind

/-- What a container is told of a child that it is to take: the weight of the child, and its type, if
there is such an element. -/
structure Offer where
  weight : Option Float
  kind : Option Kind

/-- A child with the weight it was added with. -/
abbrev WeightedChild := Option Float × ElementId

/-- The settings of an element, by its type. -/
inductive Body (κ : Type)
  | flex (settings : Flex) (children : List WeightedChild)
  | inset (edges : Edges Float) (child : Option ElementId)
  | minSize (minimum : Size Float) (child : Option ElementId)
  | button (settings : Button κ)
  | checkbox (settings : Checkbox κ)
  /-- A drawing by the application. -/
  | graphic (painter : κ)
  | iconButton (settings : IconButton κ)
  | input (settings : Input κ)
  | label (settings : Label)
  | list (settings : ItemList κ)
  | loader (color : Color Float)
  | progressBar (color : Color Float)
  | slider (axis : Axis) (color : Color Float)
  | spacer (size : Size Float)
  /-- Children on one spot. The rule says why a child is refused after those that were taken, if it
  is; it belongs to the application. -/
  | stack (rule : List Offer → Offer → Option String) (children : List WeightedChild)
  /-- An invisible rectangle that counts the frames it has seen. -/
  | block (size : Size Float) (frames : Nat)

namespace Body

variable {κ : Type}

def kind : Body κ → Kind
  | .flex .. => .flex
  | .inset .. => .inset
  | .minSize .. => .minSize
  | .button .. => .button
  | .checkbox .. => .checkbox
  | .graphic .. => .graphic
  | .iconButton .. => .iconButton
  | .input .. => .input
  | .label .. => .label
  | .list .. => .list
  | .loader .. => .loader
  | .progressBar .. => .progressBar
  | .slider .. => .slider
  | .spacer .. => .spacer
  | .stack .. => .stack
  | .block .. => .block

/-- The children, in order. -/
def children : Body κ → List ElementId
  | .flex _ children => children.map (·.2)
  | .inset _ child => child.toList
  | .minSize _ child => child.toList
  | .stack _ children => children.map (·.2)
  | _ => []

/-- Why a body takes no child, or not this one. -/
inductive Refusal
  | noContainer
  | rejected (reason : String)
  deriving DecidableEq

/-- The body with a child added, if it takes that. A flex layout keeps positive weights only; a
layout of one child lets go of the one it had. What a rule says later is what it says after this
child. -/
def addChild (body : Body κ) (child : ElementId) (offer : Offer) : Except Refusal (Body κ) :=
  match body with
  | .flex settings children =>
    .ok (.flex settings (children ++ [(Flex.keepWeight offer.weight, child)]))
  | .inset edges _ => .ok (.inset edges (some child))
  | .minSize minimum _ => .ok (.minSize minimum (some child))
  | .stack rule children =>
    match rule [] offer with
    | some reason => .error (.rejected reason)
    | none => .ok (.stack (fun taken => rule (offer :: taken)) (children ++ [(offer.weight, child)]))
  | _ => .error .noContainer

/-- Whether the shape of a binding is one that the element can follow. -/
def follows (body : Body κ) (shape : Shape) : Bool :=
  match body with
  | .checkbox _ => shape = .one .flag
  | .input _ | .label _ => shape = .one .text
  | .progressBar _ | .slider _ _ => shape = .one .single
  | .list _ => shape.isList
  | _ => false

/-- The pointer handlers of a pressable widget, with its pointer state. -/
def pressable? : Body κ → Option (PointerHandlers κ × PointerState)
  | .button s => some (s.handlers, s.pointer)
  | .checkbox s => some (s.handlers, s.pointer)
  | .iconButton s => some (s.handlers, s.pointer)
  | _ => none

/-- The body with another pointer state, if it has one. -/
def withPointer (body : Body κ) (pointer : PointerState) : Body κ :=
  match body with
  | .button s => .button { s with pointer := pointer }
  | .checkbox s => .checkbox { s with pointer := pointer }
  | .iconButton s => .iconButton { s with pointer := pointer }
  | body => body

end Body

/-- Why a container refused a child, in words. -/
def Body.Refusal.message : Body.Refusal → String
  | .noContainer => "element does not accept children"
  | .rejected reason => reason

/-- An element. -/
structure Element (κ : Type) where
  id : String
  window : Option WindowId
  body : Body κ
  /-- The watcher through which the element follows a binding. -/
  follower : Option WatcherId := none
  /-- The binding that is followed. -/
  binding : Option BindingId := none
  locked : Bool := false

/-- What a new element starts with. -/
structure Blueprint (κ ρ : Type) where
  body : Body κ
  /-- The value of the mirror, or none inside for an element that follows without a value. -/
  follower : Option (Option (Scalar ρ)) := none
  /-- The binding to follow from the start. -/
  binding : Option BindingId := none

end Trellis
