import Mathlib.Algebra.Order.Floor.Ring
import Mathlib.Data.Rat.Floor
import Trellis.Geometry

/-!
# Exact arithmetic

Double precision rounds, so positions that are summed up in another order may differ in the last
bit. Statements about where things are drawn are about arithmetic that does not round.

* `ExactSum` — numbers whose addition is exact.
* `Exact` — the numbers that double precision approximates: rational ones, two infinities, and what
  is no number.
-/

namespace Trellis

/-- Numbers that can be added in any order. -/
class ExactSum (α : Type) [Number α] : Prop where
  add_comm : ∀ x y : α, x + y = y + x
  add_assoc : ∀ x y z : α, x + y + z = x + (y + z)
  zero_add : ∀ x : α, 0 + x = x

namespace Vec

variable {α : Type} [Number α] [ExactSum α]

theorem add_comm (u v : Vec α) : u + v = v + u :=
  congrArg₂ Vec.mk (ExactSum.add_comm _ _) (ExactSum.add_comm _ _)

theorem add_assoc (u v w : Vec α) : u + v + w = u + (v + w) :=
  congrArg₂ Vec.mk (ExactSum.add_assoc _ _ _) (ExactSum.add_assoc _ _ _)

theorem zero_add (v : Vec α) : zero + v = v :=
  congrArg₂ Vec.mk (ExactSum.zero_add _) (ExactSum.zero_add _)

theorem add_right_comm (u v w : Vec α) : u + v + w = u + w + v := by
  rw [add_assoc, add_comm v w, ← add_assoc]

end Vec

/-! ## The numbers that double precision approximates -/

/-- A rational number, an infinity, or no number. -/
inductive Exact
  | of (q : ℚ)
  | infinite (negative : Bool)
  | undefined
  deriving DecidableEq

namespace Exact

/-- Infinities of opposite signs have no sum. -/
def add : Exact → Exact → Exact
  | of p, of q => of (p + q)
  | infinite s, infinite t => if s = t then infinite s else undefined
  | infinite s, of _ => infinite s
  | of _, infinite t => infinite t
  | undefined, _ => undefined
  | _, undefined => undefined

def neg : Exact → Exact
  | of q => of (-q)
  | infinite s => infinite !s
  | undefined => undefined

/-- An infinity times a rational number, which has no value if that is zero. -/
def scale (s : Bool) (q : ℚ) : Exact :=
  if q = 0 then undefined else infinite (s != decide (q < 0))

def mul : Exact → Exact → Exact
  | of p, of q => of (p * q)
  | infinite s, infinite t => infinite (s != t)
  | infinite s, of q => scale s q
  | of p, infinite t => scale t p
  | undefined, _ => undefined
  | _, undefined => undefined

/-- A number other than zero, divided by zero, is infinite. -/
def div : Exact → Exact → Exact
  | of p, of q => if q = 0 then scale false p else of (p / q)
  | infinite s, of q => infinite (s != decide (q < 0))
  | of _, infinite _ => of 0
  | infinite _, infinite _ => undefined
  | undefined, _ => undefined
  | _, undefined => undefined

/-- What is no number is less than nothing, and nothing is less than it. -/
def less : Exact → Exact → Bool
  | of p, of q => decide (p < q)
  | infinite s, infinite t => s && !t
  | infinite s, of _ => s
  | of _, infinite t => !t
  | undefined, _ => false
  | _, undefined => false

instance : Number Exact where
  add := add
  sub x y := add x (neg y)
  mul := mul
  div := div
  lt x y := less x y
  le x y := less x y ∨ x = y ∧ x ≠ undefined
  decideLt x y := inferInstanceAs (Decidable (less x y = true))
  decideLe x y := inferInstanceAs (Decidable (less x y = true ∨ x = y ∧ x ≠ undefined))
  natural n := of n
  decimal m small e := of (if small then m / 10 ^ e else m * 10 ^ e)
  infinity := infinite false
  isFinite
    | of _ => true
    | _ => false
  max x y := if x = undefined then y else if less x y then y else x
  min x y := if x = undefined then y else if less y x then y else x
  single x := x
  byte
    | of q => min 255 ⌊q + 1 / 2⌋.toNat
    | infinite s => if s then 0 else 255
    | undefined => 0

instance : ExactSum Exact where
  add_comm x y := by
    show add x y = add y x
    rcases x with p | (_ | _) | _ <;> rcases y with q | (_ | _) | _ <;> simp [add, Rat.add_comm]
  add_assoc x y z := by
    show add (add x y) z = add x (add y z)
    rcases x with p | (_ | _) | _ <;> rcases y with q | (_ | _) | _ <;>
      rcases z with r | (_ | _) | _ <;> simp [add, Rat.add_assoc]
  zero_add x := by
    show add (of (0 : ℕ)) x = x
    cases x <;> simp [add]

end Exact

end Trellis
