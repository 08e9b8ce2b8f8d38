/-!
# Values that documents call by name

A finite domain of values with one name each. The first value is the default. A name resolves
exactly if it is listed, upper and lower case being different.
-/

namespace Trellis

/-- A domain of values that documents name. -/
class Named (σ : Type) where
  /-- All values, the default first. -/
  values : List σ
  name : σ → String

namespace Named

variable {σ : Type} [Named σ]

/-- The names with their values, in order. -/
def table : List (String × σ) := (values : List σ).map fun v => (name v, v)

/-- The value of that name. -/
def ofName? (s : String) : Option σ := ((table : List (String × σ)).find? (·.1 == s)).map (·.2)

/-- The names, separated by commas. -/
def listing (σ : Type) [Named σ] : String :=
  String.intercalate ", " ((values : List σ).map name)

end Named

end Trellis
