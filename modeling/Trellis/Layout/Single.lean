import Trellis.Canvas

/-!
# Layouts of one child

* `Edges.draw` — a child surrounded by empty space.
* `drawAtLeast` — a child drawn with a raised minimum size.
-/

namespace Trellis

/-- Widths of the four edges of a rectangle. -/
structure Edges (α : Type) where
  top : α
  bottom : α
  left : α
  right : α
  deriving DecidableEq

variable {α ε : Type} [Number α]

/-- Draws the child if there is one; none takes up no space. -/
def drawOptional (child : Option (Draw α ε (Size α))) : Draw α ε (Size α) :=
  child.getD (pure Vec.zero)

/-- What the edges take off a size. -/
def Edges.total (edges : Edges α) : Size α := ⟨edges.left + edges.right, edges.top + edges.bottom⟩

/-- Draws a child inside the edges and answers the size of both together. -/
def Edges.draw (edges : Edges α) (child : Option (Draw α ε (Size α))) : Draw α ε (Size α) := do
  let limits ← Canvas.limits
  let size ← Canvas.withOffset ⟨edges.left, edges.top⟩
    (Canvas.withConstraints (limits.shrink edges.total) (drawOptional child))
  pure (limits.constrain (size + edges.total))

/-- The lower and upper limit of a length whose minimum is raised to `least`, the maximum following
where it falls short. A minimum that is not positive changes nothing. -/
def raiseLimits (least lower upper : α) : α × α :=
  if 0 < least ∧ lower < least then (least, Number.max upper least) else (lower, upper)

/-- Constraints with the minimum size raised to `minimum`. -/
def Constraints.raise (limits : Constraints α) (minimum : Size α) : Constraints α :=
  let width := raiseLimits minimum.x limits.min.x limits.max.x
  let height := raiseLimits minimum.y limits.min.y limits.max.y
  ⟨⟨width.1, height.1⟩, ⟨width.2, height.2⟩⟩

/-- Draws a child at no less than `minimum`. -/
def drawAtLeast (minimum : Size α) (child : Option (Draw α ε (Size α))) : Draw α ε (Size α) := do
  let limits ← Canvas.limits
  Canvas.withConstraints (limits.raise minimum) (drawOptional child)

end Trellis
