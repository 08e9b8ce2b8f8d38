import Trellis.Canvas
import Trellis.Style.Constants
import Trellis.Text.Wrap

/-!
# Drawing text

A text is drawn line by line at the origin: it breaks at newlines, at the maximum width if its
style wraps, and it is cut off after a number of lines.

* `TextStyle` — how a block of text is drawn.
* `TextStyle.lines` — the lines that are drawn.
* `TextStyle.draw` — draws them, one op per line from top to bottom.
-/

namespace Trellis

/-- How a block of text is drawn. -/
structure TextStyle (α : Type) where
  size : α
  color : Color α
  alignment : TextAlignment
  /-- The number of lines after which text is cut off; zero for no limit. -/
  maxLines : Nat
  /-- How paragraphs are broken; without a policy each stays on one line. -/
  wrap : Option WrapPolicy
  /-- The distance between lines; unless positive it follows from the text size. -/
  lineHeight : α
  /-- A factor on the distance between lines; unless positive it is one. -/
  lineHeightScale : α
  /-- What ends the last line when text is cut off. -/
  truncator : String

namespace TextStyle

variable {α ε : Type} [Number α]

/-- The ellipsis that shows that text has been cut off. -/
def ellipsis : String := "…"

/-- The style of plain text on one line per paragraph. -/
def plain (color : Color α) : TextStyle α where
  size := 16
  color := color
  alignment := .start
  maxLines := 0
  wrap := none
  lineHeight := 0
  lineHeightScale := 0
  truncator := ellipsis

/-- The distance from one line to the next. -/
def lineDistance (style : TextStyle α) (metrics : TextMetrics α) : α :=
  let height := if 0 < style.lineHeight then style.lineHeight else style.size * metrics.lineHeight
  if 0 < style.lineHeightScale then height * style.lineHeightScale else height

/-- The lines of the whole text, none cut off. -/
def allLines (style : TextStyle α) (metrics : TextMetrics α) (width : α) (text : List Char) :
    List (List Char) :=
  (Text.pieces '\n' text).flatMap fun paragraph =>
    match style.wrap with
    | some policy =>
      if Number.isFinite width then
        Text.wrapParagraph (fun line => (metrics.measure line style.size).x ≤ width) policy paragraph
      else [paragraph]
    | none => [paragraph]

/-- The lines that are drawn: if there are more than the style allows, the surplus is dropped and
the last line kept is truncated. -/
def lines (style : TextStyle α) (metrics : TextMetrics α) (width : α) (text : List Char) :
    List (List Char) :=
  let all := style.allLines metrics width text
  if 0 < style.maxLines ∧ style.maxLines < all.length then
    let kept := all.take style.maxLines
    let tooWide (line : List Char) : Bool := width < (metrics.measure line style.size).x
    kept.dropLast ++ (kept.getLast?.map (Text.truncateLine tooWide style.truncator.toList)).toList
  else all

/-- How far a line of width `lineWidth` starts into a text of width `width`. -/
def indent (style : TextStyle α) (width lineWidth : α) : α :=
  match style.alignment with
  | .start => 0
  | .middle => Number.max ((width - lineWidth) / 2) 0
  | .stop => Number.max (width - lineWidth) 0

/-- The ops of the lines, top to bottom, for a text of width `width` whose near corner is at
`origin`. -/
def lineOps (style : TextStyle α) (metrics : TextMetrics α) (element : String) (origin : Point α)
    (width : α) (lines : List (List Char)) : List (DrawOp α) :=
  let distance := style.lineDistance metrics
  lines.mapIdx fun i line =>
    let lineWidth := (metrics.measure line style.size).x
    let op : DrawOp α :=
      ⟨element, ⟨origin, ⟨lineWidth, distance⟩⟩,
        .text (String.ofList line) style.size style.color⟩
    op.translate ⟨style.indent width lineWidth, distance * Number.natural i⟩

/-- The size the lines take up if nothing constrains it. -/
def naturalSize (style : TextStyle α) (metrics : TextMetrics α) (lines : List (List Char)) :
    Size α where
  x := (lines.map fun line => (metrics.measure line style.size).x).foldl Number.max 0
  y := style.lineDistance metrics * Number.natural lines.length

/-- Draws a text and answers its size within the constraints. -/
def draw (style : TextStyle α) (element text : String) : Draw α ε (Size α) := do
  let metrics ← Canvas.textMetrics
  let limits ← Canvas.limits
  let lines := style.lines metrics limits.max.x text.toList
  let size := limits.constrain (style.naturalSize metrics lines)
  let corner ← Canvas.rect size
  Canvas.push (style.lineOps metrics element corner.origin size.x lines)
  pure size

end TextStyle

end Trellis
