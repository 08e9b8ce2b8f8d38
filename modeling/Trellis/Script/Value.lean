import Trellis.Document.Datum
import Trellis.Document.Json.Quote
import Trellis.Number
import Trellis.Observable.Value
import Trellis.Text.Exact

/-!
# Values of scripts

The records of scripts are intervals, of which one comes before another if it ends before the other
begins. Values are given as document data and written as text.

* `Interval` — the records.
* `Content.ofDatum?` — reads a content of a shape.
* `Scalar.written`, `Content.written` — the written forms, those of JSON without spaces.
-/

namespace Trellis

/-- An interval of integers with a label. -/
structure Interval where
  low : Int
  high : Int
  label : String
  deriving DecidableEq, Inhabited

/-- Intervals that overlap are not ordered, whatever their labels are. -/
instance : Ordered Interval where
  less a b := a.high < b.low

namespace Datum

/-- A number, or one of the words `nan`, `inf` and `-inf`. -/
def toNumber? : Datum → Option Float
  | .int n => some (Float.ofInt n)
  | .real x => some x
  | .text "nan" => some (0.0 / 0.0)
  | .text "inf" => some (1.0 / 0.0)
  | .text "-inf" => some (-1.0 / 0.0)
  | _ => none

end Datum

namespace Scalar

/-- Reads a value of a kind. -/
def ofDatum? : Kind → Datum → Option (Scalar Interval)
  | .int, .int n => some (.int n)
  | .text, .text s => some (.text s)
  | .flag, .flag b => some (.flag b)
  | .single, d => d.toNumber?.map fun x => .single (Number.single x)
  | .double, d => d.toNumber?.map .double
  | .record, .list [.int low, .int high, .text label] => some (.record ⟨low, high, label⟩)
  | _, _ => none

/-- A float written as a whole number or a word. -/
def realText (x : Float) : String :=
  match Text.Real.exact x with
  | .inl n => toString n
  | .inr word => word

/-- A float in the written form of JSON, where words stand in quotation marks. -/
def realWritten (x : Float) : String :=
  match Text.Real.exact x with
  | .inl n => toString n
  | .inr word => Json.quote word

/-- The written form. -/
def written : Scalar Interval → String
  | .int n => toString n
  | .text s => Json.quote s
  | .flag b => if b then "true" else "false"
  | .single x => realWritten x
  | .double x => realWritten x
  | .record r => s!"[{r.low},{r.high},{Json.quote r.label}]"

/-- The text of an item: the written form, but without the quotation marks of texts and words. No
item is `null`. -/
def itemText : Option (Scalar Interval) → String
  | some (.text s) => s
  | some (.single x) => realText x
  | some (.double x) => realText x
  | some v => v.written
  | none => "null"

end Scalar

namespace Content

/-- Reads a content of a shape. -/
def ofDatum? : Shape → Datum → Option (Content Interval)
  | .one kind, d => (Scalar.ofDatum? kind d).map .one
  | .many kind, .list items => (items.mapM (Scalar.ofDatum? kind)).map (.many kind)
  | _, _ => none

/-- The written form. -/
def written : Content Interval → String
  | .one v => v.written
  | .many _ items => "[" ++ String.intercalate "," (items.map Scalar.written) ++ "]"

end Content

end Trellis
