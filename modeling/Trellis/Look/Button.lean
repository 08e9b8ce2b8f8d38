import Trellis.Canvas.Paragraph
import Trellis.Icon
import Trellis.Look.Palette

/-!
# The looks of buttons and check boxes

* `ButtonLook.draw` — a filled rectangle with a line of text in its middle.
* `IconButtonLook.draw` — a filled rectangle with an icon in its middle.
* `CheckboxLook.draw` — a box, filled if checked, with a line of text after it.
-/

namespace Trellis

variable {α ε : Type} [Number α]

/-- The background of a pressable widget, a little fainter while it is pressed. -/
def pressedColor (background : Color α) (pressed : Bool) : Color α :=
  if pressed then background.fade 0.8 else background

/-- What shows of a button. -/
structure ButtonLook (α : Type) where
  id : String
  label : String
  background : Color α
  pressed : Bool

namespace ButtonLook

/-- The space between the label and the edges of the button. -/
def padding : Vec α := ⟨12, 10⟩

def draw (look : ButtonLook α) : Draw α ε (Size α) := do
  let limits ← Canvas.limits
  let metrics ← Canvas.textMetrics
  let text := metrics.measure look.label.toList 16
  let edges : Vec α := ⟨padding.x * 2, padding.y * 2⟩
  let size := limits.constrain (text + edges)
  Canvas.paint look.id size (.fill (pressedColor look.background look.pressed))
  let style : TextStyle α := { TextStyle.plain Palette.onAccent with alignment := .middle }
  let _ ← Canvas.withOffset ⟨padding.x, Number.max ((size.y - text.y) / 2) 0⟩
    (Canvas.withConstraints (.tight (size.shrink edges)) (style.draw look.id look.label))
  pure size

end ButtonLook

/-- What shows of an icon button. -/
structure IconButtonLook (α : Type) where
  id : String
  icon : Option Icon
  background : Color α
  color : Color α
  pressed : Bool

namespace IconButtonLook

/-- The side of the icon where there is room for it. -/
def iconSide : α := 24

/-- The space between the icon and the edges of the button. -/
def padding : α := 12

def draw (look : IconButtonLook α) : Draw α ε (Size α) := do
  let limits ← Canvas.limits
  let side : α := iconSide + padding * 2
  let size := limits.constrain ⟨side, side⟩
  Canvas.paint look.id size (.fill (pressedColor look.background look.pressed))
  match look.icon with
  | none => pure ()
  | some icon =>
    let side := Number.min (Number.min iconSide size.x) size.y
    Canvas.withOffset ⟨(size.x - side) / 2, (size.y - side) / 2⟩
      (Canvas.paint look.id ⟨side, side⟩ (.icon icon.name look.color))
  pure size

end IconButtonLook

/-- What shows of a check box. -/
structure CheckboxLook (α : Type) where
  id : String
  label : String
  checked : Bool

namespace CheckboxLook

/-- The side of the box. -/
def boxSide : α := 18

/-- The space between the box and the label. -/
def gap : α := 8

def draw (look : CheckboxLook α) : Draw α ε (Size α) := do
  let limits ← Canvas.limits
  let metrics ← Canvas.textMetrics
  let text := metrics.measure look.label.toList 16
  let size := limits.constrain ⟨boxSide + gap + text.x, Number.max boxSide text.y⟩
  Canvas.withOffset ⟨0, Number.max (size.y - boxSide) 0 / 2⟩ do
    let bounds ← Canvas.rect ⟨boxSide, boxSide⟩
    Canvas.push [⟨look.id, bounds, .stroke 2 Palette.text⟩]
    if look.checked then
      Canvas.push [⟨look.id, bounds.inset 4 4 4 4, .fill Palette.accent⟩]
  let _ ← Canvas.withOffset ⟨boxSide + gap, Number.max (size.y - text.y) 0 / 2⟩
    ((TextStyle.plain Palette.text).draw look.id look.label)
  pure size

end CheckboxLook

end Trellis
