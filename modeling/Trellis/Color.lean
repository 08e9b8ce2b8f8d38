import Trellis.Geometry
import Trellis.Text.Blank
import Trellis.Text.Digit

/-!
# Colours

A colour is written as `#` with three, six or eight hexadecimal digits, or by a name of a fixed
palette without regard to case. It is printed as `#` with eight digits.

* `Color.parse?` reads both written forms.
* `Color.text` prints a colour, each channel rounded to eight bits.
-/

namespace Trellis

/-- Red, green, blue and opacity, each between zero and one. -/
structure Color (α : Type) where
  r : α
  g : α
  b : α
  a : α
  deriving DecidableEq

namespace Color

variable {α : Type} [Number α]

/-- A colour from four channels of eight bits. -/
def ofBytes (r g b a : Nat) : Color α :=
  ⟨Number.natural r / 255, Number.natural g / 255, Number.natural b / 255, Number.natural a / 255⟩

/-- An opaque colour from three channels of eight bits. -/
def opaque8 (r g b : Nat) : Color α := ofBytes r g b 255

/-- The opaque colour whose channels are the three bytes of `rgb`. -/
def ofRgb (rgb : Nat) : Color α := opaque8 (rgb / 65536 % 256) (rgb / 256 % 256) (rgb % 256)

/-- The colours that have a name. -/
def palette : List (String × Nat) :=
  [("black", 0x000000), ("white", 0xffffff), ("red", 0xf44336), ("pink", 0xe91e63),
    ("purple", 0x9c27b0), ("deeppurple", 0x673ab7), ("indigo", 0x3f51b5), ("blue", 0x2196f3),
    ("lightblue", 0x03a9f4), ("cyan", 0x00bcd4), ("teal", 0x009688), ("green", 0x4caf50),
    ("lightgreen", 0x8bc34a), ("lime", 0xcddc39), ("yellow", 0xffeb3b), ("amber", 0xffc107),
    ("orange", 0xff9800), ("deeporange", 0xff5722), ("brown", 0x795548), ("grey", 0x9e9e9e),
    ("gray", 0x9e9e9e), ("bluegrey", 0x607d8b)]

/-- The colour spelled by the digits after `#`. Three digits are each doubled. -/
def ofHex? (digits : List Char) : Option (Color α) := do
  match ← digits.mapM Text.hexDigit? with
  | [r, g, b] => some (opaque8 (r * 16 + r) (g * 16 + g) (b * 16 + b))
  | [r, r', g, g', b, b'] => some (opaque8 (r * 16 + r') (g * 16 + g') (b * 16 + b'))
  | [r, r', g, g', b, b', a, a'] =>
    some (ofBytes (r * 16 + r') (g * 16 + g') (b * 16 + b') (a * 16 + a'))
  | _ => none

/-- The palette colour of that name, in upper or lower case. -/
def ofName? (name : List Char) : Option (Color α) :=
  let lower := String.ofList (name.map Char.toLower)
  (palette.find? (·.1 == lower)).map fun entry => ofRgb entry.2

/-- Reads a colour from its digits or its name, white space around it aside. -/
def parseChars? (s : List Char) : Option (Color α) :=
  match Text.trim s with
  | '#' :: digits => ofHex? digits
  | name => ofName? name

/-- Reads a colour from its digits or its name, white space around it aside. -/
def parse? (s : String) : Option (Color α) := parseChars? s.toList

/-- A channel on the scale from 0 to 255. -/
def channelByte (v : α) : Nat := Number.byte (Number.unit v * 255)

/-- The printed form, `#rrggbbaa`. -/
def textChars (c : Color α) : List Char :=
  '#' :: ([c.r, c.g, c.b, c.a].map fun v => Text.toHex 2 (channelByte v)).flatten

/-- The printed form, `#rrggbbaa`. -/
def text (c : Color α) : String := String.ofList c.textChars

/-- No colour at all: every channel zero, so fully transparent. -/
def clear : Color α := ⟨0, 0, 0, 0⟩

/-- The colour with its opacity multiplied by `factor`. -/
def fade (c : Color α) (factor : α) : Color α := { c with a := c.a * factor }

end Color

end Trellis
