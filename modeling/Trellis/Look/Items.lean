import Trellis.Canvas
import Trellis.Layout.Direction
import Trellis.Layout.Flex

/-!
# The look of a list

Items stand one after another along an axis. Only items that fit entirely are drawn: the first ones,
or with `scrollToEnd` the last ones.

* `ListLook.place` — draws the items that fit.
* `ListLook.draw` — sizes the items and places them.
-/

namespace Trellis

variable {α ε : Type} [Number α]

/-- What shows of a list. A list that is not bound or has no way to draw its items has none. -/
structure ListLook (α ε : Type) where
  axis : Axis
  alignment : Alignment
  scrollToEnd : Bool
  items : Option (List (Draw α ε (Size α)))

namespace ListLook

/-- How far an item may stand out and still count as fitting. -/
def slack : α := 1e-9

/-- Records the items in order, each as long as it likes. -/
def measure (look : ListLook α ε) (limits : Constraints α) :
    List (Draw α ε (Size α)) → Draw α ε (List (Recording α))
  | [] => pure []
  | item :: rest => do
    let recording ← Canvas.record
      ⟨look.axis.along 0 (look.axis.cross limits.min),
        look.axis.along Number.infinity (look.axis.cross limits.max)⟩ item
    let recordings ← measure look limits rest
    pure (recording :: recordings)

/-- Places the items that fit into the visible length, the first one at `main`. -/
def place (look : ListLook α ε) (visible cross main : α) : List (Recording α) → Draw α ε Unit
  | [] => pure ()
  | item :: rest => do
    let length := look.axis.main item.size
    if 0 - slack ≤ main ∧ main + length ≤ visible + slack then
      let shift := look.alignment.shift (cross - look.axis.cross item.size)
      Canvas.replay item (look.axis.along main shift)
    place look visible cross (main + length) rest

/-- Draws the items that fit and answers the size of the visible part. -/
def draw (look : ListLook α ε) : Draw α ε (Size α) := do
  let limits ← Canvas.limits
  match look.items with
  | none => pure (limits.constrain (look.axis.along 0 0))
  | some items =>
    let recordings ← look.measure limits items
    let total := (recordings.map fun r => look.axis.main r.size).foldl (· + ·) 0
    let visible := Number.min total (look.axis.main limits.max)
    let cross := (recordings.map fun r => look.axis.cross r.size).foldl Number.max
      (look.axis.cross limits.min)
    look.place visible cross (if look.scrollToEnd then visible - total else 0) recordings
    pure (limits.constrain (look.axis.along visible cross))

end ListLook

end Trellis
