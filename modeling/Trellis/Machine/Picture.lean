import Trellis.Figure
import Trellis.Machine.Run

/-!
# Drawing the tree

The elements below one are put together into a figure, which is drawn; what the drawing asked for is
done afterwards, in order.

* `World.look` — what shows of an element without children.
* `Machine.figure` — the figure of a tree.
* `Machine.draw` — draws a figure in a context.
-/

namespace Trellis

variable {κ ρ : Type}

/-- What shows of an element without children, given the value it shows. -/
def World.look (app : App κ ρ) (w : World κ ρ) (element : Element κ) (value : Option (Scalar ρ)) :
    Look Float (Request κ) :=
  let text := match value with
    | some (.text s) => s
    | _ => ""
  let number := match value with
    | some (.single x) => x
    | _ => 0
  let id := element.id
  match element.body with
  | .button s =>
    .button { id, label := s.label, background := s.background, pressed := s.pointer.pressed }
  | .checkbox s =>
    let checked := match value with
      | some (.flag b) => b
      | _ => false
    .checkbox { id, label := s.label, checked }
  | .iconButton s =>
    .iconButton { id, icon := s.icon, background := s.background, color := s.color,
                  pressed := s.pointer.pressed }
  | .input s =>
    .input { id, text, hint := s.hint, alignment := s.alignment, multiLine := s.multiLine,
             wrapPolicy := s.wrapPolicy, mask := s.mask }
  | .label s =>
    .label { id, text, style :=
      { size := Number.natural s.format.textSize, color := s.color, alignment := s.alignment,
        maxLines := s.maxLines, wrap := some s.wrapPolicy, lineHeight := s.lineHeight,
        lineHeightScale := s.lineHeightScale, truncator := s.truncator } }
  | .list s =>
    let items := do
      let binding ← w.binding? (← element.binding)
      let renderer ← s.renderer
      let items ← binding.content.items?
      pure ((List.range items.length).map fun i => app.itemRenderer renderer i items)
    .list { axis := s.axis, alignment := s.alignment, scrollToEnd := s.scrollToEnd, items }
  | .loader color => .loader { id, turn := 0, color, again := element.window.map .invalidate }
  | .progressBar color => .progressBar { id, value := number, color }
  | .slider axis color => .slider { id, value := number, axis, color }
  | .spacer size => .spacer size
  | .graphic painter => .graphic (app.painter painter id)
  | .block size _ => .block id size
  | .flex .. | .inset .. | .minSize .. | .stack .. => .spacer Vec.zero

namespace Machine

/-- The figure of a tree of at most the given depth. A locked element cannot be drawn. -/
def figureWithin (app : App κ ρ) : Nat → ElementId → Machine κ ρ (Figure Float (Request κ))
  | 0, _ => stop .outOfFuel
  | depth + 1, e => do
    let w ← get
    match w.element? e with
    | none => pure (.stack [])
    | some element =>
      if element.locked then stop .deadlock
      else match element.body with
        | .flex settings children =>
          pure (.flex settings (← children.mapM fun child => do
            pure (child.1, ← figureWithin app depth child.2)))
        | .inset edges child => pure (.inset edges (← child.mapM (figureWithin app depth)))
        | .minSize minimum child => pure (.minSize minimum (← child.mapM (figureWithin app depth)))
        | .stack _ children =>
          pure (.stack (← children.mapM fun child => figureWithin app depth child.2))
        | _ => pure (.leaf (w.look app element (← valueOf e)))

/-- The figure of the tree below an element. -/
def figure (app : App κ ρ) (e : ElementId) : Machine κ ρ (Figure Float (Request κ)) := do
  figureWithin app ((← get).elements.size + 1) e

/-- Does what a drawing asked for. -/
def grant (r : Reentry κ ρ) : Request κ → Machine κ ρ Unit
  | .note line => note line
  | .invalidate window => invalidate (some window)
  | .defer window code => defer r window (.run code)

/-- Draws the tree below an element. Answers the size it took up and the context afterwards. -/
def draw (app : App κ ρ) (r : Reentry κ ρ) (e : ElementId) (canvas : Canvas Float (Request κ)) :
    Machine κ ρ (Size Float × Canvas Float (Request κ)) := do
  let (size, after) := (← figure app e).draw { canvas with requests := [] }
  after.requests.forM (grant r)
  pure (size, { after with requests := canvas.requests })

end Machine

end Trellis
