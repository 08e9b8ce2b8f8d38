/-!
# Observable values

A binding holds one value or a sequence of values, all of one kind. Whether a new value counts as a
change is decided by equality, or for records of the application by an order.

* `Scalar` — one value.
* `Content` — what a binding holds.
* `Scalar.differs`, `Content.differs` — when a value counts as different from another.
-/

namespace Trellis

/-- Records of an application, which are compared by an order only. -/
class Ordered (ρ : Type) where
  less : ρ → ρ → Bool

instance : Ordered Empty where
  less x _ := nomatch x

/-- One observable value; `ρ` is the type of the application's records. -/
inductive Scalar (ρ : Type)
  | int (n : Int)
  | text (s : String)
  | flag (b : Bool)
  /-- A number of single precision. -/
  | single (x : Float)
  /-- A number of double precision. -/
  | double (x : Float)
  | record (r : ρ)
  deriving Inhabited

/-- The kinds of values. -/
inductive Scalar.Kind
  | int | text | flag | single | double | record
  deriving DecidableEq

namespace Scalar

variable {ρ : Type}

def kind : Scalar ρ → Kind
  | .int _ => .int
  | .text _ => .text
  | .flag _ => .flag
  | .single _ => .single
  | .double _ => .double
  | .record _ => .record

/-- Whether two values of one kind are different: records if either one comes before the other, all
other values if they are not equal. -/
def differs [Ordered ρ] : Scalar ρ → Scalar ρ → Bool
  | .int a, .int b => a != b
  | .text a, .text b => a != b
  | .flag a, .flag b => a != b
  | .single a, .single b => a != b
  | .double a, .double b => a != b
  | .record a, .record b => Ordered.less a b || Ordered.less b a
  | _, _ => true

end Scalar

/-- What a binding holds: one value, or a sequence of values of one kind. -/
inductive Content (ρ : Type)
  | one (value : Scalar ρ)
  | many (kind : Scalar.Kind) (items : List (Scalar ρ))

/-- The shape of a content, which never changes. -/
inductive Shape
  | one (kind : Scalar.Kind)
  | many (kind : Scalar.Kind)
  deriving DecidableEq

/-- Whether it is the shape of a sequence. -/
def Shape.isList : Shape → Bool
  | .one _ => false
  | .many _ => true

namespace Content

variable {ρ : Type}

def shape : Content ρ → Shape
  | .one v => .one v.kind
  | .many kind _ => .many kind

/-- The values of a sequence; a single value is none. -/
def items? : Content ρ → Option (List (Scalar ρ))
  | .one _ => none
  | .many _ items => some items

/-- The single value. -/
def value? : Content ρ → Option (Scalar ρ)
  | .one v => some v
  | .many _ _ => none

/-- Whether two contents of one shape are different: sequences if their lengths are, or any two
values at the same place. -/
def differs [Ordered ρ] : Content ρ → Content ρ → Bool
  | .one a, .one b => a.differs b
  | .many _ as, .many _ bs =>
    as.length != bs.length || (as.zip bs).any fun pair => pair.1.differs pair.2
  | _, _ => true

end Content

end Trellis
