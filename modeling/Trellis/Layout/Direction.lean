import Trellis.Geometry
import Trellis.Style.Constants

/-!
# Lengths along and across an axis

* `Axis.main`, `Axis.cross` — the part of a pair along and across the axis.
* `Axis.along` — the pair with given parts.
-/

namespace Trellis

namespace Axis

variable {α : Type}

/-- The length along the axis. -/
def main (axis : Axis) (v : Vec α) : α :=
  match axis with
  | .horizontal => v.x
  | .vertical => v.y

/-- The length across the axis. -/
def cross (axis : Axis) (v : Vec α) : α :=
  match axis with
  | .horizontal => v.y
  | .vertical => v.x

/-- The pair with the given lengths along and across the axis. -/
def along (axis : Axis) (main cross : α) : Vec α :=
  match axis with
  | .horizontal => ⟨main, cross⟩
  | .vertical => ⟨cross, main⟩

/-- The other axis. -/
def flip : Axis → Axis
  | .horizontal => .vertical
  | .vertical => .horizontal

@[simp] theorem main_along (axis : Axis) (m c : α) : axis.main (axis.along m c) = m := by
  cases axis <;> rfl

@[simp] theorem cross_along (axis : Axis) (m c : α) : axis.cross (axis.along m c) = c := by
  cases axis <;> rfl

@[simp] theorem along_main_cross (axis : Axis) (v : Vec α) :
    axis.along (axis.main v) (axis.cross v) = v := by
  cases axis <;> rfl

@[simp] theorem main_flip (axis : Axis) (v : Vec α) : axis.flip.main v = axis.main v.transpose := by
  cases axis <;> rfl

@[simp] theorem cross_flip (axis : Axis) (v : Vec α) :
    axis.flip.cross v = axis.cross v.transpose := by
  cases axis <;> rfl

@[simp] theorem along_flip (axis : Axis) (m c : α) :
    axis.flip.along m c = (axis.along m c).transpose := by
  cases axis <;> rfl

end Axis

end Trellis
