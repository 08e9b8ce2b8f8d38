import Trellis.Look.Gauge
import Trellis.Proofs.Number.Double

/-!
# The filled part of a slider

A number that is moved into the range from zero to one lies there, unless it is none. A slider that
shows a number of this range fills a part of its track, which is neither negative nor longer than the
track.

* `Number.InUnit` — numbers between zero and one, with `Number.inUnit_unit_iff`.
* `SliderLook.draw_ops` — what a slider draws.
* `SliderLook.Filled`, `SliderLook.fills` — the part of its track that it fills.
-/

namespace Trellis

/-- The number lies between zero and one. -/
def Number.InUnit {α : Type} [Number α] (x : α) : Prop := 0 ≤ x ∧ x ≤ 1

namespace Exact

open Binary

variable {x y : Float} {p q : ℚ}

theorem ofFloat_one : ofFloat 1 = of 1 := by decide +kernel

theorem ofFloat_min (x y : Float) :
    ofFloat (Number.min x y) = Number.min (ofFloat x) (ofFloat y) := by
  show ofFloat (if x.isNaN then y else if y.isNaN then x else if y < x then y else x) =
    if ofFloat x = undefined then ofFloat y else if ofFloat y < ofFloat x then ofFloat y
      else ofFloat x
  simp only [isNaN_iff, lt_iff_ofFloat]
  split
  · rfl
  · split
    · next hy =>
        rw [hy, if_neg]
        cases ofFloat x <;> exact nofun
    · split <;> rfl

/-- A number between zero and one is rational. -/
theorem inUnit_iff : Number.InUnit x ↔ ∃ q, ofFloat x = of q ∧ 0 ≤ q ∧ q ≤ 1 := by
  have hbounds : Number.InUnit x ↔ of 0 ≤ ofFloat x ∧ ofFloat x ≤ of 1 := by
    rw [← ofFloat_zero, ← ofFloat_one, ← le_iff_ofFloat, ← le_iff_ofFloat]
    exact Iff.rfl
  rw [hbounds]
  constructor
  · rintro ⟨hlow, hhigh⟩
    exact exists_between hlow hhigh
  · rintro ⟨q, hq, hlow, hhigh⟩
    rw [hq, of_le_of, of_le_of]
    exact ⟨hlow, hhigh⟩

/-- A length times a number between zero and one. -/
theorem mul_within (length : ofFloat x = of p) (nonneg : 0 ≤ p) (unit : Number.InUnit y) :
    0 ≤ x * y ∧ x * y ≤ x := by
  obtain ⟨q, hq, hlow, hhigh⟩ := inUnit_iff.mp unit
  have hround := ofFloat_mul x y
  rw [length, hq, of_mul_of] at hround
  have hsmaller : p * q ≤ p := mul_le_of_le_one_right nonneg hhigh
  have hnonneg : 0 ≤ p * q := mul_nonneg nonneg hlow
  constructor
  · rw [le_iff_ofFloat, ofFloat_zero]
    exact hround.floor 0 (fits_zero _) (of_le_of.mpr hnonneg)
  · rw [le_iff_ofFloat, length]
    exact hround.ceil p (fits length) (of_le_of.mpr hsmaller)

end Exact

namespace Number

open Exact

variable {x : Float}

/-- All numbers are moved into the range, and what is no number is not. -/
theorem inUnit_unit_iff : InUnit (unit x) ↔ x.isNaN = false := by
  have hunit : unit x = if x < 0 then 0 else if 1 < x then 1 else x := rfl
  rw [hunit, inUnit_iff]
  constructor
  · intro h
    by_contra hnan
    have hx : ofFloat x = undefined := isNaN_iff.mp (Bool.eq_true_of_not_eq_false hnan)
    have hlow : ¬ x < 0 := by rw [lt_iff_ofFloat, hx]; exact nofun
    have hhigh : ¬ 1 < x := by rw [lt_iff_ofFloat, ofFloat_one, hx]; exact nofun
    rw [if_neg hlow, if_neg hhigh, hx] at h
    obtain ⟨q, hq, -⟩ := h
    cases hq
  · intro hnumber
    by_cases hlow : x < 0
    · rw [if_pos hlow]
      exact ⟨0, ofFloat_zero, le_rfl, zero_le_one⟩
    · rw [if_neg hlow]
      by_cases hhigh : 1 < x
      · rw [if_pos hhigh]
        exact ⟨1, ofFloat_one, zero_le_one, le_rfl⟩
      · rw [if_neg hhigh]
        rw [lt_iff_ofFloat, ofFloat_zero] at hlow
        rw [lt_iff_ofFloat, ofFloat_one] at hhigh
        cases hx : ofFloat x with
        | of q =>
            rw [hx, of_lt_of] at hlow hhigh
            exact ⟨q, rfl, not_lt.mp hlow, not_lt.mp hhigh⟩
        | infinite negative =>
            rw [hx] at hlow hhigh
            cases negative with
            | true => exact absurd rfl hlow
            | false => exact absurd rfl hhigh
        | undefined =>
            rw [isNaN_iff.mpr hx] at hnumber
            cases hnumber

/-- Narrowing keeps what is no number. -/
theorem isNaN_single (x : Float) : (single x).isNaN = x.isNaN := by
  apply Bool.eq_iff_iff.mpr
  rw [isNaN_iff, isNaN_iff]
  exact (ofFloat_single x).1.undefined_iff

/-- A number that is narrowed and moved into the range. -/
theorem inUnit_unit_single_iff : InUnit (unit (single x)) ↔ x.isNaN = false := by
  rw [inUnit_unit_iff, isNaN_single]

end Number

/-- A length that is constrained to lie within the limits along the axis. -/
theorem Axis.main_constrain {α : Type} [Number α] (axis : Axis) (limits : Constraints α)
    (size : Size α) : axis.main (limits.constrain size) =
      Number.min (Number.max (axis.main size) (axis.main limits.min))
        (Number.max (axis.main limits.max) (axis.main limits.min)) := by
  cases axis <;> rfl

namespace SliderLook

open Exact

variable {ε : Type} {look : SliderLook Float}

/-- Some ops are followed by those of a slider: its track, a part of it that is filled from the same
start and is neither negative nor longer than the track, and the thumb. -/
def Filled (axis : Axis) (before ops : List (DrawOp Float)) : Prop :=
  ∃ track filled thumb, ops = before ++ [track, filled, thumb] ∧
    filled.bounds.origin = track.bounds.origin ∧ 0 ≤ axis.main filled.bounds.size ∧
    axis.main filled.bounds.size ≤ axis.main track.bounds.size

/-- How long the track is. -/
def trackLength (look : SliderLook Float) (limits : Constraints Float) : Float :=
  let longest := look.axis.main limits.max
  let length := if longest.isFinite then longest else defaultLength
  look.axis.main (limits.constrain (look.axis.along length thickness))

/-- A part of the track, from its start on. -/
def part (look : SliderLook Float) (origin : Point Float) (length : Float) (color : Color Float) :
    DrawOp Float :=
  ⟨look.id, ⟨origin + look.axis.along 0 ((thickness - track) / 2), look.axis.along length track⟩,
    .fill color⟩

/-- The thumb, where the track is of a length. -/
def thumb (look : SliderLook Float) (origin : Point Float) (length : Float) : DrawOp Float :=
  ⟨look.id, ⟨origin + look.axis.along (Number.max ((length - thickness) * look.value) 0) 0,
    look.axis.along thickness thickness⟩, .fill look.color⟩

/-- A slider draws its track, a part of it that is filled, and the thumb. -/
theorem draw_ops (look : SliderLook Float) (canvas : Canvas Float ε) :
    let length := look.trackLength canvas.constraints
    (look.draw canvas).2.ops = canvas.ops ++
      [look.part canvas.origin length (look.color.fade 0.4),
        look.part canvas.origin (length * look.value) look.color,
        look.thumb canvas.origin length] := by
  intro length
  rw [List.append_cons, List.append_cons]
  rfl

/-- The track is no shorter than it has to be. -/
theorem exists_trackLength {limits : Constraints Float} (nonneg : 0 ≤ look.axis.main limits.min)
    (finite : (look.axis.main limits.min).isFinite = true) :
    ∃ q, ofFloat (look.trackLength limits) = of q ∧ 0 ≤ q := by
  let longest := look.axis.main limits.max
  let length := if longest.isFinite then longest else defaultLength
  have hlength : length.isFinite = true := by
    by_cases h : longest.isFinite = true
    · rw [show length = longest from if_pos h]
      exact h
    · rw [show length = defaultLength from if_neg h]
      decide +kernel
  obtain ⟨l, hl⟩ := isFinite_iff.mp hlength
  obtain ⟨m, hm⟩ := isFinite_iff.mp finite
  have hpos : 0 ≤ m := by
    rw [le_iff_ofFloat, ofFloat_zero, hm, of_le_of] at nonneg
    exact nonneg
  have htrack : look.trackLength limits = Number.min
      (Number.max length (look.axis.main limits.min))
      (Number.max longest (look.axis.main limits.min)) := by
    rw [trackLength, Axis.main_constrain, Axis.main_along]
  have hlow : 0 ≤ max l m := hpos.trans (le_max_right l m)
  rw [htrack, ofFloat_min, ofFloat_max, ofFloat_max, hm, hl, max_of_of]
  cases ofFloat longest with
  | of u =>
      rw [max_of_of, min_of_of]
      exact ⟨_, rfl, le_min hlow (hpos.trans (le_max_right u m))⟩
  | infinite negative =>
      cases negative with
      | true => exact ⟨min (max l m) m, min_of_of _ _, le_min hlow hpos⟩
      | false => exact ⟨max l m, rfl, hlow⟩
  | undefined => exact ⟨min (max l m) m, min_of_of _ _, le_min hlow hpos⟩

/-- It is filled within its track if it shows a number between zero and one, where the smallest size
that it may have is a length. -/
theorem fills {canvas : Canvas Float ε} (value : Number.InUnit look.value)
    (nonneg : 0 ≤ look.axis.main canvas.constraints.min)
    (finite : (look.axis.main canvas.constraints.min).isFinite = true) :
    Filled look.axis canvas.ops (look.draw canvas).2.ops := by
  obtain ⟨q, hq, hpos⟩ := exists_trackLength nonneg finite
  obtain ⟨hlow, hhigh⟩ := mul_within hq hpos value
  refine ⟨_, _, _, look.draw_ops canvas, rfl, ?_, ?_⟩
  · rw [part, Axis.main_along]
    exact hlow
  · rw [part, part, Axis.main_along, Axis.main_along]
    exact hhigh

end SliderLook

end Trellis
