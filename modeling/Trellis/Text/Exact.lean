import Trellis.Text.Digit

/-!
# Floats written exactly

A float that is a whole number of at most 53 bits is written as that number. Any other is written as
a word: `nan`, `inf`, `-inf`, or its bits in hexadecimal digits.

* `Real.exact` — the written form.
-/

namespace Trellis.Text.Real

/-- The written form of a float: a whole number or a word. -/
def exact (x : Float) : Int ⊕ String :=
  if x.isNaN then .inr "nan"
  else if x.isInf then .inr (if x < 0 then "-inf" else "inf")
  else if x.floor == x && x.abs ≤ 9007199254740992 then .inl x.toInt64.toInt
  else .inr (String.ofList ("0x".toList ++ toHex 16 x.toBits.toNat))

end Trellis.Text.Real
