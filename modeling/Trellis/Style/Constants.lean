import Trellis.Style.Named

/-!
# Style constants

The enumerated settings of layouts and texts, each with the names documents use for them.
-/

namespace Trellis

/-- The direction a linear layout runs in. -/
inductive Axis
  | horizontal | vertical
  deriving DecidableEq, Inhabited

instance : Named Axis where
  values := [.horizontal, .vertical]
  name
    | .horizontal => "Horizontal"
    | .vertical => "Vertical"

/-- Where a linear layout puts the space that its children leave over. -/
inductive Spacing
  | spaceEnd | spaceStart | spaceSides | spaceAround | spaceBetween | spaceEvenly
  deriving DecidableEq, Inhabited

instance : Named Spacing where
  values := [.spaceEnd, .spaceStart, .spaceSides, .spaceAround, .spaceBetween, .spaceEvenly]
  name
    | .spaceEnd => "SpaceEnd"
    | .spaceStart => "SpaceStart"
    | .spaceSides => "SpaceSides"
    | .spaceAround => "SpaceAround"
    | .spaceBetween => "SpaceBetween"
    | .spaceEvenly => "SpaceEvenly"

/-- Where a child stands across a linear layout. -/
inductive Alignment
  | start | stop | middle | baseline
  deriving DecidableEq, Inhabited

instance : Named Alignment where
  values := [.start, .stop, .middle, .baseline]
  name
    | .start => "Start"
    | .stop => "End"
    | .middle => "Middle"
    | .baseline => "Baseline"

/-- Where a line stands in the width of its text. -/
inductive TextAlignment
  | start | stop | middle
  deriving DecidableEq, Inhabited

instance : Named TextAlignment where
  values := [.start, .stop, .middle]
  name
    | .start => "Start"
    | .stop => "End"
    | .middle => "Middle"

inductive FontStyle
  | regular | italic
  deriving DecidableEq, Inhabited

instance : Named FontStyle where
  values := [.regular, .italic]
  name
    | .regular => "Regular"
    | .italic => "Italic"

inductive FontWeight
  | normal | thin | extraLight | light | medium | semiBold | bold | extraBold | black
  deriving DecidableEq, Inhabited

instance : Named FontWeight where
  values := [.normal, .thin, .extraLight, .light, .medium, .semiBold, .bold, .extraBold, .black]
  name
    | .normal => "Normal"
    | .thin => "Thin"
    | .extraLight => "ExtraLight"
    | .light => "Light"
    | .medium => "Medium"
    | .semiBold => "SemiBold"
    | .bold => "Bold"
    | .extraBold => "ExtraBold"
    | .black => "Black"

/-- A typeface with its style and weight. -/
structure Font where
  typeface : String
  style : FontStyle
  weight : FontWeight
  deriving DecidableEq

/-- How text wider than its space is broken into lines. -/
inductive WrapPolicy
  | heuristically | words | graphemes
  deriving DecidableEq, Inhabited

instance : Named WrapPolicy where
  values := [.heuristically, .words, .graphemes]
  name
    | .heuristically => "WrapHeuristically"
    | .words => "WrapWords"
    | .graphemes => "WrapGraphemes"

/-- The typographic role of a label. -/
inductive LabelFormat
  | text | h1 | h2 | h3 | h4 | h5 | h6 | subtitle1 | subtitle2 | body1 | body2 | caption | overline
  deriving DecidableEq, Inhabited

instance : Named LabelFormat where
  values := [.text, .h1, .h2, .h3, .h4, .h5, .h6, .subtitle1, .subtitle2, .body1, .body2,
    .caption, .overline]
  name
    | .text => "Text"
    | .h1 => "H1"
    | .h2 => "H2"
    | .h3 => "H3"
    | .h4 => "H4"
    | .h5 => "H5"
    | .h6 => "H6"
    | .subtitle1 => "Subtitle1"
    | .subtitle2 => "Subtitle2"
    | .body1 => "Body1"
    | .body2 => "Body2"
    | .caption => "Caption"
    | .overline => "Overline"

/-- The text size of a label in points. -/
def LabelFormat.textSize : LabelFormat → Nat
  | .h1 => 96
  | .h2 => 60
  | .h3 => 48
  | .h4 => 34
  | .h5 => 24
  | .h6 => 20
  | .subtitle1 => 16
  | .subtitle2 => 14
  | .body1 => 16
  | .body2 => 14
  | .caption => 12
  | .overline => 10
  | .text => 16

end Trellis
