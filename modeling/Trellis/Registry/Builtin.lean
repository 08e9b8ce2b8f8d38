import Trellis.Canvas.Paragraph
import Trellis.Registry.Basic

/-!
# The constructors of the element types

What each type of element reads from its node, and the registry of all types.

* `Construct.flex`, `Construct.label`, … — the constructors.
* `Registry.builtin` — the registry of the layouts and widgets.
-/

namespace Trellis

variable {κ ρ : Type}

/-- The pointer handlers of a node. -/
def PointerHandlers.ofNode (lookup : Lookup κ) (node : Node) : PointerHandlers κ where
  clicked := node.handler? lookup "onClicked"
  hovered := node.handler? lookup "onHovered"
  hoverEntered := node.handler? lookup "onHoverEntered"
  hoverExited := node.handler? lookup "onHoverExited"
  pressed := node.handler? lookup "onPressed"
  pressDown := node.handler? lookup "onPressDown"
  pressUp := node.handler? lookup "onPressUp"

namespace Construct

/-- The plan of an element that follows no binding. -/
def plain (body : Body κ) : Except String (Blueprint κ ρ) := .ok { body }

def flex : Constructor κ ρ := fun _ node =>
  plain (.flex ⟨node.constantD "axis", node.constantD "spacing", node.constantD "alignment"⟩ [])

def inset : Constructor κ ρ := fun _ node =>
  plain (.inset ⟨(node.real? "top").getD 0, (node.real? "bottom").getD 0,
    (node.real? "left").getD 0, (node.real? "right").getD 0⟩ none)

def minSize : Constructor κ ρ := fun _ node =>
  plain (.minSize ⟨(node.real? "minWidth").getD 0, (node.real? "minHeight").getD 0⟩ none)

def button : Constructor κ ρ := fun lookup node =>
  plain (.button
    { label := (node.text? "label").getD ""
      background := (node.color? "background").getD Palette.accent
      handlers := .ofNode lookup node })

def checkbox : Constructor κ ρ := fun lookup node => .ok
  { body := .checkbox { label := (node.text? "label").getD "", handlers := .ofNode lookup node }
    follower := some (some (.flag ((node.flag? "value").getD false)))
    binding := node.binding? lookup .flag "binding" }

def graphic : Constructor κ ρ := fun lookup node =>
  match node.painter? lookup "drawFunction" with
  | some painter => plain (.graphic painter)
  | none => .error "no draw function"

def iconButton : Constructor κ ρ := fun lookup node =>
  plain (.iconButton
    { icon := Icon.find? ((node.text? "icon").getD "")
      description := (node.text? "description").getD ""
      background := (node.color? "background").getD Palette.accent
      color := (node.color? "color").getD Palette.onAccent
      handlers := .ofNode lookup node })

def input : Constructor κ ρ := fun lookup node =>
  let type : InputType := node.constantD "inputType"
  let mask := (node.text? "mask").bind (·.toList.head?)
  .ok
    { body := .input
        { hint := (node.text? "hint").getD ""
          type
          alignment := node.constantD "alignment"
          maxLength := (node.natural? "maxLen").getD 0
          readOnly := (node.flag? "readOnly").getD false
          multiLine := (node.flag? "multiLine").getD false
          wrapPolicy := node.constantD "wrapPolicy"
          submit := (node.flag? "submit").getD false
          mask := mask <|> type.mask
          filter := node.filter? lookup "filterCallback"
          onSubmit := node.handler? lookup "onSubmit" }
      follower := some (some (.text ""))
      binding := node.binding? lookup .text "binding" }

def label : Constructor κ ρ := fun lookup node => .ok
  { body := .label
      { format := node.constantD "labelFormat"
        color := (node.color? "color").getD Palette.text
        alignment := node.constantD "alignment"
        maxLines := (node.natural? "maxLines").getD 0
        wrapPolicy := node.constantD "wrapPolicy"
        lineHeight := (node.real? "lineHeight").getD 0
        lineHeightScale := (node.real? "lineHeightScale").getD 0
        truncator := (node.text? "truncator").getD TextStyle.ellipsis
        font := node.font? "font" "fontStyle" "fontWeight" }
    follower := some (some (.text ((node.text? "text").getD "")))
    binding := node.binding? lookup .text "binding" }

def list : Constructor κ ρ := fun lookup node => .ok
  { body := .list
      { axis := node.constantD "axis"
        alignment := node.constantD "alignment"
        scrollToEnd := (node.flag? "scrollToEnd").getD false
        renderer := node.itemRenderer? lookup "itemRenderer"
        handler := node.itemHandler? lookup "itemEventHandler" }
    follower := some none
    binding := node.listBinding? lookup "binding" }

def loader : Constructor κ ρ := fun _ node =>
  plain (.loader ((node.color? "color").getD Palette.accent))

def progressBar : Constructor κ ρ := fun lookup node => .ok
  { body := .progressBar ((node.color? "color").getD Palette.accent)
    follower := some (some (.single ((node.single? "value").getD 0)))
    binding := node.binding? lookup .single "binding" }

def slider : Constructor κ ρ := fun lookup node => .ok
  { body := .slider (node.constantD "axis") ((node.color? "color").getD Palette.accent)
    follower := some (some (.single 0))
    binding := node.binding? lookup .single "binding" }

def spacer : Constructor κ ρ := fun _ node =>
  plain (.spacer ⟨(node.real? "width").getD 0, (node.real? "height").getD 0⟩)

/-- A stack takes as many children as its limit says, if it has one. -/
def stack : Constructor κ ρ := fun _ node =>
  let full (taken : List Offer) : Bool := (node.natural? "limit").any fun n => n ≤ taken.length
  plain (.stack (fun taken _ => if full taken then some "stack is full" else none) [])

def block : Constructor κ ρ := fun _ node =>
  plain (.block ⟨(node.real? "w").getD 0, (node.real? "h").getD 0⟩ 0)

/-- A type whose elements cannot be made. -/
def failing : Constructor κ ρ := fun _ node => .error ((node.text? "message").getD "failed")

end Construct

namespace Registry

/-- The layouts and widgets. -/
def builtin : Registry κ ρ where
  entries :=
    [("layout.Flex", Construct.flex), ("layout.Inset", Construct.inset),
      ("layout.MinSize", Construct.minSize), ("widget.Button", Construct.button),
      ("widget.Checkbox", Construct.checkbox), ("widget.Graphic", Construct.graphic),
      ("widget.IconButton", Construct.iconButton), ("widget.Input", Construct.input),
      ("widget.Label", Construct.label), ("widget.List", Construct.list),
      ("widget.Loader", Construct.loader), ("widget.ProgressBar", Construct.progressBar),
      ("widget.Slider", Construct.slider), ("widget.Spacer", Construct.spacer)]

end Registry

end Trellis
