import Trellis.Canvas
import Trellis.Layout.Direction

/-!
# Rows and columns

A flex layout places its children one after another. Children without a weight are rigid: they are
measured first, in order, each within what is left. The others then share the rest of the space in
proportion to their weights. If the children end up shorter than the minimum, the space left over
is spread as the style says.

* `Flex.keepWeight` — the weight a child is kept with.
* `Flex.distribute` — the space before the first child and between two children.
* `Flex.measure` — the recordings of the children, in the order they were added.
* `Flex.draw` — measures the children and places them.
-/

namespace Trellis

/-- How far a child moves across the axis, given what it leaves free there. -/
def Alignment.shift {α : Type} [Number α] (alignment : Alignment) (free : α) : α :=
  match alignment with
  | .start | .baseline => 0
  | .stop => free
  | .middle => free / 2

/-- The settings of a row or column. -/
structure Flex where
  axis : Axis
  spacing : Spacing
  alignment : Alignment
  deriving DecidableEq

namespace Flex

variable {α ε : Type} [Number α]

/-- The weight a child is kept with: none unless it is positive. -/
def keepWeight (weight : Option α) : Option α := weight.filter fun w => decide (0 < w)

/-- The space before the first of `count` children and the gap between two of them, `space` being
what all of them leave over. -/
def distribute (spacing : Spacing) (count : Nat) (space : α) : α × α :=
  let n : α := Number.natural count
  if space ≤ 0 ∨ count = 0 then (0, 0)
  else match spacing with
    | .spaceEnd => (0, 0)
    | .spaceStart => (space, 0)
    | .spaceSides => (space / 2, 0)
    | .spaceAround => (space / (n * 2), space / n)
    | .spaceBetween => if 1 < count then (0, space / (n - 1)) else (0, 0)
    | .spaceEvenly => (space / (n + 1), space / (n + 1))

/-- A child with its weight; `τ` is its drawing, or what has come of it. -/
abbrev Child (α τ : Type) := Option α × τ

/-- Measures the rigid children in order. `used` is the length taken up so far. Weighted children
are left for later. -/
def measureRigid (flex : Flex) (limits : Constraints α) (used : α) :
    List (Child α (Draw α ε (Size α))) →
      Draw α ε (α × List (Child α (Draw α ε (Size α) ⊕ Recording α)))
  | [] => pure (used, [])
  | (some weight, child) :: rest => do
    let (used, measured) ← measureRigid flex limits used rest
    pure (used, (some weight, .inl child) :: measured)
  | (none, child) :: rest => do
    let remaining := Number.max (flex.axis.main limits.max - used) 0
    let recording ← Canvas.record
      ⟨flex.axis.along 0 (flex.axis.cross limits.min),
        flex.axis.along remaining (flex.axis.cross limits.max)⟩ child
    let (used, measured) ← measureRigid flex limits (used + flex.axis.main recording.size) rest
    pure (used, (none, .inr recording) :: measured)

/-- The sum of the weights, in single precision. -/
def totalWeight {τ : Type} (children : List (Child α τ)) : α :=
  (children.filterMap (·.1)).foldl Number.addSingle 0

/-- Measures the weighted children in order, each with its share of `space`. -/
def measureWeighted (flex : Flex) (limits : Constraints α) (space total used : α) :
    List (Child α (Draw α ε (Size α) ⊕ Recording α)) → Draw α ε (α × List (Recording α))
  | [] => pure (used, [])
  | (_, .inr recording) :: rest => do
    let (used, recordings) ← measureWeighted flex limits space total used rest
    pure (used, recording :: recordings)
  | (weight, .inl child) :: rest => do
    let share := space * weight.getD 0 / total
    let recording ← Canvas.record
      ⟨flex.axis.along share (flex.axis.cross limits.min),
        flex.axis.along share (flex.axis.cross limits.max)⟩ child
    let (used, recordings) ←
      measureWeighted flex limits space total (used + flex.axis.main recording.size) rest
    pure (used, recording :: recordings)

/-- Measures all children. Answers the length they take up together and their recordings in the
order the children were added. Weighted children get nothing if the space is unbounded. -/
def measure (flex : Flex) (limits : Constraints α) (children : List (Child α (Draw α ε (Size α)))) :
    Draw α ε (α × List (Recording α)) := do
  let (used, measured) ← measureRigid flex limits 0 children
  let longest := flex.axis.main limits.max
  let space := if Number.isFinite longest then Number.max (longest - used) 0 else 0
  measureWeighted flex limits space (totalWeight measured) used measured

/-- Places recordings one after another, the first at `main`, with `gap` between two. -/
def place (flex : Flex) (cross gap : α) (main : α) : List (Recording α) → Draw α ε Unit
  | [] => pure ()
  | recording :: rest => do
    let shift := flex.alignment.shift (cross - flex.axis.cross recording.size)
    Canvas.replay recording (flex.axis.along main shift)
    let next := main + flex.axis.main recording.size
    place flex cross gap (if rest.isEmpty then next else next + gap) rest

/-- Draws the children and answers the size they take up within the constraints. -/
def draw (flex : Flex) (children : List (Child α (Draw α ε (Size α)))) : Draw α ε (Size α) := do
  let limits ← Canvas.limits
  let (used, recordings) ← measure flex limits children
  let cross := (recordings.map fun r => flex.axis.cross r.size).foldl Number.max
    (flex.axis.cross limits.min)
  let shortest := flex.axis.main limits.min
  let (lead, gap) :=
    distribute flex.spacing children.length (Number.max (shortest - used) 0)
  place flex cross gap lead recordings
  pure (limits.constrain (flex.axis.along (Number.max used shortest) cross))

end Flex

end Trellis
