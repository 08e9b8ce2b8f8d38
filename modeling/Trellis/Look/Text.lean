import Trellis.Canvas.Paragraph
import Trellis.Look.Palette

/-!
# The looks of labels and text fields

* `LabelLook.draw` — a block of text.
* `InputLook.draw` — a framed text, or the hint if there is none.
-/

namespace Trellis

variable {α ε : Type} [Number α]

/-- What shows of a label. -/
structure LabelLook (α : Type) where
  id : String
  text : String
  style : TextStyle α

namespace LabelLook

def draw (look : LabelLook α) : Draw α ε (Size α) := look.style.draw look.id look.text

end LabelLook

/-- What shows of a text field. -/
structure InputLook where
  id : String
  text : String
  hint : String
  alignment : TextAlignment
  multiLine : Bool
  wrapPolicy : WrapPolicy
  mask : Option Char

namespace InputLook

/-- The width of the frame. -/
def border : α := 2

/-- The space between the frame and the text. -/
def padding : α := 3

/-- The text that shows: the hint if there is no text, else the text behind its mask. -/
def shown (look : InputLook) : String :=
  if look.text.isEmpty then look.hint
  else match look.mask with
    | some mask => String.ofList (look.text.toList.map fun _ => mask)
    | none => look.text

/-- The colour of what shows; a hint is half transparent. -/
def color (look : InputLook) : Color α :=
  if look.text.isEmpty then { Palette.text with a := 0.5 } else Palette.text

/-- Only a text field of several lines wraps, and only it shows more than one line. -/
def style (look : InputLook) : TextStyle α :=
  { TextStyle.plain look.color with
    alignment := look.alignment
    maxLines := if look.multiLine then 0 else 1
    wrap := if look.multiLine then some look.wrapPolicy else none }

def draw (look : InputLook) : Draw α ε (Size α) := do
  let limits ← Canvas.limits
  let edge : α := border + padding
  let edges : Vec α := ⟨edge * 2, edge * 2⟩
  let content ← Canvas.withOffset ⟨edge, edge⟩
    (Canvas.withConstraints (limits.shrink edges) (look.style.draw look.id look.shown))
  let size := limits.constrain (content + edges)
  Canvas.paint look.id size (.stroke border Palette.border)
  pure size

end InputLook

end Trellis
