import Trellis.Canvas
import Trellis.Layout.Direction
import Trellis.Look.Palette

/-!
# The looks of progress bars, sliders and loaders

* `ProgressBarLook.draw` — a track with a filled part.
* `SliderLook.draw` — a track with a filled part and a thumb.
* `LoaderLook.draw` — an arc of three quarters of a turn.
-/

namespace Trellis

variable {α ε : Type} [Number α]

/-- What shows of a progress bar. -/
structure ProgressBarLook (α : Type) where
  id : String
  value : α
  color : Color α

namespace ProgressBarLook

def height : α := 4

/-- The bar is as wide as it may be, and has no width if that is unbounded. -/
def draw (look : ProgressBarLook α) : Draw α ε (Size α) := do
  let limits ← Canvas.limits
  let width := if Number.isFinite limits.max.x then limits.max.x else 0
  let size := limits.constrain ⟨width, height⟩
  Canvas.paint look.id size (.fill (look.color.fade 0.25))
  Canvas.paint look.id ⟨size.x * Number.unit look.value, size.y⟩ (.fill look.color)
  pure size

end ProgressBarLook

/-- What shows of a slider. -/
structure SliderLook (α : Type) where
  id : String
  value : α
  axis : Axis
  color : Color α

namespace SliderLook

/-- The side of the thumb. -/
def thickness : α := 20

/-- The thickness of the track. -/
def track : α := 4

/-- The length where there is no bound on it. -/
def defaultLength : α := 200

/-- Draws a slider as long as it may be. -/
def draw (look : SliderLook α) : Draw α ε (Size α) := do
  let limits ← Canvas.limits
  let axis := look.axis
  let longest := axis.main limits.max
  let length := if Number.isFinite longest then longest else defaultLength
  let size := limits.constrain (axis.along length thickness)
  let length := axis.main size
  Canvas.withOffset (axis.along 0 ((thickness - track) / 2)) do
    Canvas.paint look.id (axis.along length track) (.fill (look.color.fade 0.4))
    Canvas.paint look.id (axis.along (length * look.value) track) (.fill look.color)
  Canvas.withOffset (axis.along (Number.max ((length - thickness) * look.value) 0) 0)
    (Canvas.paint look.id (axis.along thickness thickness) (.fill look.color))
  pure size

end SliderLook

/-- What shows of a loader; `turn` is the part of a turn its arc has moved on. The loader asks for
`again`, its next frame. -/
structure LoaderLook (α ε : Type) where
  id : String
  turn : α
  color : Color α
  again : Option ε

namespace LoaderLook

/-- A full turn in radians. -/
def tau : α := 6.28318530717958647692528676655900577

/-- The angle that the arc covers. -/
def sweep : α := tau * 0.75

/-- The diameter where the constraints leave it open. -/
def defaultDiameter : α := 24

def draw (look : LoaderLook α ε) : Draw α ε (Size α) := do
  let limits ← Canvas.limits
  let diameter := if 0 < limits.min.x then limits.min.x else defaultDiameter
  let size := limits.constrain ⟨diameter, diameter⟩
  Canvas.paint look.id size
    (.arc (look.turn * tau) sweep (Number.min size.x size.y / 10) look.color)
  look.again.forM Canvas.request
  pure size

end LoaderLook

end Trellis
