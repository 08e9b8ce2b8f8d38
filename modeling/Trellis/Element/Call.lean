import Trellis.Element.Body

/-!
# Calls on elements

What can be asked of a single element: changes of its settings, and few questions. Every type of
element knows some of the calls.

* `Call` — the calls, most of which are a `Change`.
* `Body.configure?`, `Body.restyle?` — the body after a change of its settings.
-/

namespace Trellis

/-- A change of an element, or a question, that involves nobody else. -/
inductive Change
  | setId (id : String)
  /-- An axis by name. -/
  | axis (name : String)
  | spacing (name : String)
  | alignment (name : String)
  | edges (edges : Edges Float)
  | clearChild
  | minimum (size : Size Float)
  | setLabel (label : String)
  | background (color : Color Float)
  | setIcon (name : String)
  | setDescription (description : String)
  | color (color : Color Float)
  | setText (text : String)
  /-- Sets a check box. -/
  | setFlag (value : Bool)
  /-- Sets a progress bar or a slider. -/
  | setValue (value : Float)
  | hint (text : String)
  | inputType (name : String)
  | wrapPolicy (name : String)
  | maxLength (n : Nat)
  | readOnly (value : Bool)
  | multiLine (value : Bool)
  | submit (value : Bool)
  | mask (character : Option Char)
  /-- Asks for the characters accepted after a text. -/
  | filterAfter (text : String)
  | format (name : String)
  | maxLines (n : Nat)
  | truncator (text : String)
  | scrollToEnd (value : Bool)
  | size (size : Size Float)
  /-- A change that no element knows. -/
  | unknown

/-- Something asked of an element. `κ` are the codes of callbacks and `β` stands for bindings. -/
inductive Call (κ β : Type)
  | change (change : Change)
  /-- Follows another binding, or none. -/
  | bind (binding : Option β)
  /-- Draws the items of a list from now on. -/
  | renderer (code : Option κ)
  /-- Handles the events of the items of a list from now on. -/
  | handler (code : Option κ)

/-- What an element answers to a call. -/
inductive Answer
  | done
  /-- The element does not know the call. -/
  | unsupported
  | text (s : String)
  deriving DecidableEq

namespace Body

variable {κ : Type}

/-- The body after a change that does not ask for a new frame. None if the change is not of that
sort or not one for this type of element. Unknown names change nothing. -/
def configure? (body : Body κ) (change : Change) : Option (Body κ) :=
  match body, change with
  | .flex s children, .axis name =>
    some (.flex { s with axis := (Named.ofName? name).getD s.axis } children)
  | .flex s children, .spacing name =>
    some (.flex { s with spacing := (Named.ofName? name).getD s.spacing } children)
  | .flex s children, .alignment name =>
    some (.flex { s with alignment := (Named.ofName? name).getD s.alignment } children)
  | .inset _ child, .edges edges => some (.inset edges child)
  | .inset edges _, .clearChild => some (.inset edges none)
  | .minSize _ child, .minimum size => some (.minSize size child)
  | .minSize minimum _, .clearChild => some (.minSize minimum none)
  | .button s, .background color => some (.button { s with background := color })
  | .iconButton s, .color color => some (.iconButton { s with color := color })
  | .input s, .hint text => some (.input { s with hint := text })
  | .input s, .inputType name => some (.input { s with type := (Named.ofName? name).getD s.type })
  | .input s, .alignment name =>
    some (.input { s with alignment := (Named.ofName? name).getD s.alignment })
  | .input s, .wrapPolicy name =>
    some (.input { s with wrapPolicy := (Named.ofName? name).getD s.wrapPolicy })
  | .input s, .maxLength n => some (.input { s with maxLength := n })
  | .input s, .readOnly value => some (.input { s with readOnly := value })
  | .input s, .multiLine value => some (.input { s with multiLine := value })
  | .input s, .submit value => some (.input { s with submit := value })
  | .input s, .mask character => some (.input { s with mask := character })
  | .label s, .format name =>
    some (.label { s with format := (Named.ofName? name).getD s.format })
  | .label s, .alignment name =>
    some (.label { s with alignment := (Named.ofName? name).getD s.alignment })
  | .label s, .wrapPolicy name =>
    some (.label { s with wrapPolicy := (Named.ofName? name).getD s.wrapPolicy })
  | .label s, .maxLines n => some (.label { s with maxLines := n })
  | .label s, .truncator text => some (.label { s with truncator := text })
  | .list s, .axis name => some (.list { s with axis := (Named.ofName? name).getD s.axis })
  | .list s, .alignment name =>
    some (.list { s with alignment := (Named.ofName? name).getD s.alignment })
  | .list s, .scrollToEnd value => some (.list { s with scrollToEnd := value })
  | .slider axis color, .axis name => some (.slider ((Named.ofName? name).getD axis) color)
  | .spacer _, .size size => some (.spacer size)
  | _, _ => none

/-- The body after a change that asks for a new frame. -/
def restyle? (body : Body κ) (change : Change) : Option (Body κ) :=
  match body, change with
  | .button s, .setLabel text => some (.button { s with label := text })
  | .checkbox s, .setLabel text => some (.checkbox { s with label := text })
  | .iconButton s, .setIcon name => some (.iconButton { s with icon := Icon.find? name })
  | .iconButton s, .setDescription text => some (.iconButton { s with description := text })
  | _, _ => none

/-- The value that a change gives to the element's mirror. -/
def edit? {ρ : Type} (body : Body κ) (change : Change) : Option (Scalar ρ) :=
  match body, change with
  | .input _, .setText s => some (.text s)
  | .label _, .setText s => some (.text s)
  | .checkbox _, .setFlag b => some (.flag b)
  | .progressBar _, .setValue x => some (.single (Number.single x))
  | .slider _ _, .setValue x => some (.single (Number.unit (Number.single x)))
  | _, _ => none

/-- Whether the element can be told to follow a binding. -/
def bindable : Body κ → Bool
  | .checkbox _ | .input _ | .label _ | .list _ | .progressBar _ | .slider _ _ => true
  | _ => false

/-- Whether following a binding asks for a new frame. -/
def asksOnBind : Body κ → Bool
  | .checkbox _ => false
  | _ => true

end Body

end Trellis
