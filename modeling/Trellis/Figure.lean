import Trellis.Layout.Flex
import Trellis.Layout.Single
import Trellis.Look.Button
import Trellis.Look.Gauge
import Trellis.Look.Items
import Trellis.Look.Text

/-!
# Figures

A figure is an element tree as it stands at one moment, with all that its drawing depends on. The
elements themselves change between frames; a figure does not, so drawing is a function of it.

* `Look` — what shows of an element without children.
* `Figure` — the tree.
* `Figure.draw` — its drawing.
-/

namespace Trellis

/-- What shows of an element without children. -/
inductive Look (α ε : Type)
  | button (look : ButtonLook α)
  | checkbox (look : CheckboxLook α)
  | iconButton (look : IconButtonLook α)
  | input (look : InputLook)
  | label (look : LabelLook α)
  | list (look : ListLook α ε)
  | loader (look : LoaderLook α ε)
  | progressBar (look : ProgressBarLook α)
  | slider (look : SliderLook α)
  /-- Empty space of a fixed size. -/
  | spacer (size : Size α)
  /-- A drawing that the application supplies. -/
  | graphic (drawing : Draw α ε (Size α))
  /-- An invisible rectangle of a fixed size. -/
  | block (id : String) (size : Size α)

/-- An element tree at one moment. -/
inductive Figure (α ε : Type)
  | flex (settings : Flex) (children : List (Option α × Figure α ε))
  | inset (edges : Edges α) (child : Option (Figure α ε))
  | minSize (minimum : Size α) (child : Option (Figure α ε))
  /-- Children drawn on top of each other. -/
  | stack (children : List (Figure α ε))
  | leaf (look : Look α ε)

variable {α ε : Type} [Number α]

/-- Draws an element without children. -/
def Look.draw : Look α ε → Draw α ε (Size α)
  | .button look => look.draw
  | .checkbox look => look.draw
  | .iconButton look => look.draw
  | .input look => look.draw
  | .label look => look.draw
  | .list look => look.draw
  | .loader look => look.draw
  | .progressBar look => look.draw
  | .slider look => look.draw
  | .spacer size => do pure ((← Canvas.limits).constrain size)
  | .graphic drawing => drawing
  | .block id size => do
    let size := (← Canvas.limits).constrain size
    Canvas.paint id size (.fill .clear)
    pure size

/-- Draws in turn on one spot and answers the smallest size allowed. -/
def drawStack : List (Draw α ε (Size α)) → Draw α ε (Size α)
  | [] => do pure (← Canvas.limits).min
  | drawing :: rest => do
    let _ ← drawing
    drawStack rest

mutual

/-- Draws a tree and answers the size it takes up. -/
def Figure.draw : Figure α ε → Draw α ε (Size α)
  | .flex settings children => settings.draw (drawWeighted children)
  | .inset edges child => edges.draw (drawChild child)
  | .minSize minimum child => drawAtLeast minimum (drawChild child)
  | .stack children => drawStack (drawEach children)
  | .leaf look => look.draw

/-- The drawings of weighted children. -/
def Figure.drawWeighted : List (Option α × Figure α ε) → List (Flex.Child α (Draw α ε (Size α)))
  | [] => []
  | (weight, figure) :: rest => (weight, figure.draw) :: drawWeighted rest

/-- The drawing of a child that may be missing. -/
def Figure.drawChild : Option (Figure α ε) → Option (Draw α ε (Size α))
  | none => none
  | some figure => some figure.draw

/-- The drawings of several children. -/
def Figure.drawEach : List (Figure α ε) → List (Draw α ε (Size α))
  | [] => []
  | figure :: rest => figure.draw :: drawEach rest

end

end Trellis
