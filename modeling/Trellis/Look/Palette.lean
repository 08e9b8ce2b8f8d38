import Trellis.Color

/-!
# The colours widgets share
-/

namespace Trellis.Palette

variable {α : Type} [Number α]

/-- The colour of text and outlines: black. -/
def text : Color α := .opaque8 0 0 0

/-- The accent of active parts: indigo. -/
def accent : Color α := .opaque8 63 81 181

/-- The colour of text on an accent: white. -/
def onAccent : Color α := .opaque8 255 255 255

/-- The colour of the frame around an input: light grey. -/
def border : Color α := ⟨0.8, 0.8, 0.8, 1⟩

end Trellis.Palette
