import Trellis.Number

/-!
# Sizes, rectangles and constraints

* `Vec` — a pair of lengths: a size, a point or an offset.
* `Rect` — a rectangle, half open: its far edges are outside.
* `Constraints` — the smallest and the largest size a parent allows a child.
-/

namespace Trellis

/-- Two lengths, across and down. -/
structure Vec (α : Type) where
  x : α
  y : α
  deriving DecidableEq

/-- A size in points. -/
abbrev Size := Vec

/-- A position in points. -/
abbrev Point := Vec

namespace Vec

variable {α : Type}

/-- The pair with across and down exchanged. -/
def transpose (v : Vec α) : Vec α := ⟨v.y, v.x⟩

@[simp] theorem transpose_transpose (v : Vec α) : v.transpose.transpose = v := rfl

/-- Both lengths changed alike. -/
def map (f : α → α) (v : Vec α) : Vec α := ⟨f v.x, f v.y⟩

variable [Number α]

/-- No extent at all; as a point, the origin. -/
def zero : Vec α := ⟨0, 0⟩

instance : Add (Vec α) := ⟨fun v w => ⟨v.x + w.x, v.y + w.y⟩⟩
instance : Sub (Vec α) := ⟨fun v w => ⟨v.x - w.x, v.y - w.y⟩⟩

@[simp] theorem add_x (v w : Vec α) : (v + w).x = v.x + w.x := rfl
@[simp] theorem add_y (v w : Vec α) : (v + w).y = v.y + w.y := rfl
@[simp] theorem sub_x (v w : Vec α) : (v - w).x = v.x - w.x := rfl
@[simp] theorem sub_y (v w : Vec α) : (v - w).y = v.y - w.y := rfl

/-- The pair with `edges` taken off, neither length falling below zero. -/
def shrink (v edges : Vec α) : Vec α :=
  ⟨Number.max (v.x - edges.x) 0, Number.max (v.y - edges.y) 0⟩

end Vec

/-- A rectangle by its near corner and its size. -/
structure Rect (α : Type) where
  origin : Point α
  size : Size α
  deriving DecidableEq

namespace Rect

variable {α : Type}

/-- The rectangle with across and down exchanged. -/
def transpose (r : Rect α) : Rect α := ⟨r.origin.transpose, r.size.transpose⟩

variable [Number α]

/-- The empty rectangle at the origin. -/
def zero : Rect α := ⟨Vec.zero, Vec.zero⟩

/-- Whether the point lies inside; the near edges do, the far ones do not. -/
def contains (r : Rect α) (p : Point α) : Bool :=
  decide (r.origin.x ≤ p.x) && decide (r.origin.y ≤ p.y) &&
    decide (p.x < r.origin.x + r.size.x) && decide (p.y < r.origin.y + r.size.y)

/-- The rectangle with a strip cut off each edge. The size never falls below zero. -/
def inset (r : Rect α) (top bottom left right : α) : Rect α where
  origin := ⟨r.origin.x + left, r.origin.y + top⟩
  size := ⟨Number.max (r.size.x - left - right) 0, Number.max (r.size.y - top - bottom) 0⟩

/-- The rectangle moved by `offset`. -/
def translate (r : Rect α) (offset : Vec α) : Rect α := { r with origin := r.origin + offset }

end Rect

/-- The sizes a parent allows a child to take. -/
structure Constraints (α : Type) where
  min : Size α
  max : Size α
  deriving DecidableEq

namespace Constraints

variable {α : Type}

/-- Exactly one size. -/
def tight (size : Size α) : Constraints α := ⟨size, size⟩

/-- The constraints with across and down exchanged. -/
def transpose (c : Constraints α) : Constraints α := ⟨c.min.transpose, c.max.transpose⟩

variable [Number α]

/-- Any size up to `max`. -/
def loose (max : Size α) : Constraints α := ⟨Vec.zero, max⟩

/-- The allowed size nearest to `size`. Where the minimum exceeds the maximum, the minimum wins. -/
def constrain (c : Constraints α) (size : Size α) : Size α :=
  ⟨Number.min (Number.max size.x c.min.x) (Number.max c.max.x c.min.x),
    Number.min (Number.max size.y c.min.y) (Number.max c.max.y c.min.y)⟩

/-- Both limits with `edges` taken off. -/
def shrink (c : Constraints α) (edges : Vec α) : Constraints α :=
  ⟨c.min.shrink edges, c.max.shrink edges⟩

end Constraints

end Trellis
