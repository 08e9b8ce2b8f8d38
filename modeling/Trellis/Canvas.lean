import Trellis.Color
import Trellis.Geometry

/-!
# Drawing contexts

Elements draw at the current origin within the current constraints and answer the size they took
up. A drawing is recorded in a scratch context and replayed elsewhere, which is how layouts size
their children before they place them. While it draws, an element may also make requests of the
outside, which are collected in order.

* `Canvas` — the context: constraints, metrics, origin, the ops drawn and the requests made.
* `Draw` — drawing: a change of the context that gives an answer, most often the size taken up.
* `Canvas.withOffset`, `Canvas.withConstraints` — run a part in a changed context and restore it.
* `Canvas.record`, `Canvas.replay` — draw into a scratch context and place the result.
-/

namespace Trellis

/-- What an op puts into its rectangle. Angles run clockwise from the positive x axis. -/
inductive Ink (α : Type)
  | fill (color : Color α)
  | stroke (width : α) (color : Color α)
  | text (text : String) (size : α) (color : Color α)
  | icon (name : String) (color : Color α)
  | arc (start sweep width : α) (color : Color α)
  deriving DecidableEq

/-- One entry of the display list. -/
structure DrawOp (α : Type) where
  /-- The id of the element that drew it. -/
  element : String
  bounds : Rect α
  ink : Ink α
  deriving DecidableEq

/-- The op moved by `offset`. -/
def DrawOp.translate {α : Type} [Number α] (op : DrawOp α) (offset : Vec α) : DrawOp α :=
  { op with bounds := op.bounds.translate offset }

/-- How wide characters and how high lines are, as fractions of the text size. -/
structure TextMetrics (α : Type) where
  advance : α
  lineHeight : α
  deriving DecidableEq

namespace TextMetrics

variable {α : Type} [Number α]

def standard : TextMetrics α := ⟨0.5, 1.2⟩

/-- The size of a single line of text. -/
def measure (m : TextMetrics α) (text : List Char) (size : α) : Size α :=
  ⟨Number.natural text.length * size * m.advance, size * m.lineHeight⟩

end TextMetrics

/-- A drawing kept for later, its ops placed relative to the point they were drawn at. -/
structure Recording (α : Type) where
  size : Size α
  ops : List (DrawOp α)
  deriving DecidableEq

/-- The context an element draws in. `ε` is what may be asked of the outside while drawing. -/
structure Canvas (α ε : Type) where
  constraints : Constraints α
  metrics : TextMetrics α
  origin : Point α
  ops : List (DrawOp α)
  requests : List ε

/-- Drawing: a change of the context that gives an answer. -/
abbrev Draw (α ε : Type) : Type → Type := StateM (Canvas α ε)

namespace Canvas

variable {α ε β : Type}

/-- The limits that the parent has set. -/
def limits : Draw α ε (Constraints α) := fun c => (c.constraints, c)

/-- The metrics text is measured with. -/
def textMetrics : Draw α ε (TextMetrics α) := fun c => (c.metrics, c)

/-- Changes the metrics text is measured with. -/
def setMetrics (metrics : TextMetrics α) : Draw α ε Unit :=
  fun c => ((), { c with metrics := metrics })

/-- The ops drawn so far. -/
def drawn : Draw α ε (List (DrawOp α)) := fun c => (c.ops, c)

/-- Asks something of the outside. -/
def request (r : ε) : Draw α ε Unit :=
  fun c => ((), { c with requests := c.requests ++ [r] })

/-- Runs a part under other constraints, which are restored afterwards. -/
def withConstraints (constraints : Constraints α) (part : Draw α ε β) :
    Draw α ε β := fun c =>
  let (answer, after) := part { c with constraints := constraints }
  (answer, { after with constraints := c.constraints })

variable [Number α]

/-- A context for a frame of the given size, which the root is made to fill. -/
def ofSize (size : Size α) : Canvas α ε where
  constraints := .tight size
  metrics := .standard
  origin := Vec.zero
  ops := []
  requests := []

/-- A rectangle of the given size at the current origin. -/
def rect (size : Size α) : Draw α ε (Rect α) := fun c => (⟨c.origin, size⟩, c)

/-- Appends ops. -/
def push (ops : List (DrawOp α)) : Draw α ε Unit := fun c => ((), { c with ops := c.ops ++ ops })

/-- Puts `ink` into a rectangle of the given size at the current origin. -/
def paint (element : String) (size : Size α) (ink : Ink α) : Draw α ε Unit := do
  push [⟨element, ← rect size, ink⟩]

/-- Runs a part with the origin moved by `offset`; the origin is restored afterwards. -/
def withOffset (offset : Vec α) (part : Draw α ε β) : Draw α ε β := fun c =>
  let (answer, after) := part { c with origin := c.origin + offset }
  (answer, { after with origin := c.origin })

/-- Runs a part in a scratch context at the origin, under the given constraints, and answers what it
answers and the ops it drew. The context itself only takes over the requests. -/
def scratch (constraints : Constraints α) (part : Draw α ε β) :
    Draw α ε (β × List (DrawOp α)) := fun c =>
  let (answer, after) :=
    part { c with constraints := constraints, origin := Vec.zero, ops := [] }
  ((answer, after.ops), { c with requests := after.requests })

/-- Draws into a scratch context and keeps the result. -/
def record (constraints : Constraints α) (drawing : Draw α ε (Size α)) :
    Draw α ε (Recording α) := fun c =>
  let ((size, ops), after) := scratch constraints drawing c
  (⟨size, ops⟩, after)

/-- Appends the recorded ops, placed at the current origin moved by `offset`. -/
def replay (recording : Recording α) (offset : Vec α) : Draw α ε Unit := fun c =>
  ((), { c with ops := c.ops ++ recording.ops.map (·.translate (c.origin + offset)) })

end Canvas

end Trellis
