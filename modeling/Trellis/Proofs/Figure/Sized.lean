import Trellis.Proofs.Canvas.Answers
import Trellis.Proofs.Figure.Shift
import Trellis.Proofs.Look.Filled
import Trellis.Proofs.Number.Order

/-!
# Sizes that trees answer

Layouts rely on their children to keep to the limits they are given. All do, except that a minimum
size may ask for more than the largest size allowed.

* `Figure.BuiltIn` — trees in which nothing answers a size of its own choice.
* `Figure.minima` — the minimum sizes at the top of a tree.
* `Figure.draw_sized` — a tree answers a size within its limits, or the largest of these minima.
-/

namespace Trellis

variable {α ε : Type} [Number α] {limits : Constraints α} {size : Size α} {axis : Axis}

open Draw

namespace Constraints

/-- No length has a lower limit below zero, or one above its upper limit. -/
def Proper (limits : Constraints α) : Prop :=
  ∀ axis : Axis, 0 ≤ axis.main limits.min ∧ axis.main limits.min ≤ axis.main limits.max

end Constraints

/-- The size is within the limits along the axis and no less than the minima, the largest of which
may take the place of the upper limit. -/
structure Sized (limits : Constraints α) (minima : List (Size α)) (size : Size α) (axis : Axis) :
    Prop where
  above : axis.main limits.min ≤ axis.main size
  demanded : ∀ minimum ∈ minima, axis.main minimum ≤ axis.main size
  below : axis.main size ≤ axis.main limits.max ∨
    ∃ minimum ∈ minima, axis.main limits.max < axis.main minimum ∧
      axis.main size ≤ axis.main minimum

section Raising

variable [NumberOrder α] {least lower upper : α}

/-- The last two are limits that follow from the two before them if the lower one has to reach
`least`. -/
structure Raised (least lower upper lower' upper' : α) : Prop where
  nonneg : 0 ≤ lower'
  ordered : lower' ≤ upper'
  above : lower ≤ lower'
  demanded : least ≤ lower'
  grown : upper ≤ upper'
  within : upper' ≤ upper ∨ upper < least ∧ upper' ≤ least

/-- The upper limit only grows if it has to, and then no further than the minimum. -/
theorem raiseLimits_raised (number : least ≤ least) (nonneg : 0 ≤ lower) (ordered : lower ≤ upper) :
    Raised least lower upper (raiseLimits least lower upper).1
      (raiseLimits least lower upper).2 := by
  obtain ⟨hzero, hlower⟩ := NumberOrder.self_of_le _ _ nonneg
  have hupper := (NumberOrder.self_of_le _ _ ordered).2
  by_cases h : 0 < least ∧ lower < least
  · rw [raiseLimits, if_pos h]
    have hnonneg := NumberOrder.le_of_lt _ _ h.1
    have hraised := NumberOrder.le_of_lt _ _ h.2
    rcases NumberOrder.max_cases upper least number with ⟨heq, hnot⟩ | ⟨heq, hle⟩
    · rw [heq]
      have hgrown := NumberOrder.le_of_not_lt _ _ number hupper hnot
      refine ⟨hnonneg, number, hraised, number, hgrown, ?_⟩
      by_cases hless : upper < least
      · exact .inr ⟨hless, number⟩
      · exact .inl (NumberOrder.le_of_not_lt _ _ hupper number hless)
    · rw [heq]
      exact ⟨hnonneg, hle, hraised, number, hupper, .inl hupper⟩
  · rw [raiseLimits, if_neg h]
    have hleast : least ≤ lower := by
      by_cases hpos : 0 < least
      · exact NumberOrder.le_of_not_lt _ _ hlower number fun hless => h ⟨hpos, hless⟩
      · exact NumberOrder.le_trans _ _ _
          (NumberOrder.le_of_not_lt _ _ hzero number hpos) nonneg
    exact ⟨nonneg, ordered, hlower, hleast, hupper, .inl hupper⟩

theorem Constraints.raise_raised {minimum : Size α} (proper : limits.Proper) (axis : Axis)
    (number : axis.main minimum ≤ axis.main minimum) :
    Raised (axis.main minimum) (axis.main limits.min) (axis.main limits.max)
      (axis.main (limits.raise minimum).min) (axis.main (limits.raise minimum).max) := by
  obtain ⟨hnonneg, hordered⟩ := proper axis
  have hraised := raiseLimits_raised number hnonneg hordered
  cases axis <;> exact hraised

/-- A size within raised limits is one within the limits themselves, or as small as the minimum
allows. -/
theorem Sized.of_raised {minimum : Size α} {minima : List (Size α)} (proper : limits.Proper)
    (number : axis.main minimum ≤ axis.main minimum)
    (h : Sized (limits.raise minimum) minima size axis) :
    Sized limits (minimum :: minima) size axis := by
  have hraised := Constraints.raise_raised proper axis number
  refine ⟨NumberOrder.le_trans _ _ _ hraised.above h.above, ?_, ?_⟩
  · refine List.forall_mem_cons.mpr ⟨?_, h.demanded⟩
    exact NumberOrder.le_trans _ _ _ hraised.demanded h.above
  · rcases h.below with hbelow | ⟨other, hother, hless, hle⟩
    · rcases hraised.within with hwithin | ⟨hless, hwithin⟩
      · exact .inl (NumberOrder.le_trans _ _ _ hbelow hwithin)
      · exact .inr ⟨minimum, List.mem_cons_self, hless,
          NumberOrder.le_trans _ _ _ hbelow hwithin⟩
    · exact .inr ⟨other, List.mem_cons_of_mem _ hother,
        NumberOrder.lt_of_le_of_lt _ _ _ hraised.grown hless, hle⟩

theorem Sized.of_constrained (proper : limits.Proper) (h : limits.Constrained size) :
    Sized limits [] size axis := by
  obtain ⟨natural, rfl⟩ := h
  have hwithin := Number.clamp_within (axis.main natural) (proper axis).2
  rw [← Axis.main_constrain] at hwithin
  exact ⟨hwithin.1, nofun, .inl hwithin.2⟩

end Raising

namespace Figure

/-! ## Trees -/

mutual

/-- The minimum sizes in the chain at the top of the tree. -/
def minima : Figure α ε → List (Size α)
  | .minSize minimum child => minimum :: minimaOf child
  | .flex .. | .inset .. | .stack .. | .leaf .. => []

/-- The minimum sizes in the chain at the top of a child that may be missing. -/
def minimaOf : Option (Figure α ε) → List (Size α)
  | none => []
  | some figure => figure.minima

end

/-- The application draws nothing in the tree itself, and every minimum size is that of a child. -/
structure BuiltIn (figure : Figure α ε) : Prop where
  drawn : ∀ drawing, ¬ Part (.leaf (.graphic drawing)) figure
  child : ∀ minimum, ¬ Part (.minSize minimum none) figure

omit [Number α] in
theorem drawStack_answers {drawings : List (Draw α ε (Size α))}
    (h : ∀ drawing ∈ drawings, Answers limits (fun _ => True) drawing) :
    Answers limits (· = limits.min) (drawStack drawings) := by
  induction drawings with
  | nil => exact .limits_bind (.pure rfl)
  | cons drawing rest ih =>
      obtain ⟨hdrawing, hrest⟩ := List.forall_mem_cons.mp h
      exact hdrawing.seq fun _ => ih hrest

/-- Without drawings of the application, all limits are restored. -/
theorem draw_restores (figure : Figure α ε)
    (drawn : ∀ drawing, ¬ Part (.leaf (.graphic drawing)) figure) :
    Answers limits (fun _ => True) figure.draw := by
  induction figure using Figure.induction with
  | flex settings children =>
      rw [Figure.draw]
      exact (settings.draw_answers _).mono fun _ _ => trivial
  | inset edges child =>
      rw [Figure.draw]
      exact (edges.draw_answers _).mono fun _ _ => trivial
  | minSize minimum child =>
      rw [Figure.draw]
      exact .limits_bind (.withConstraints fun _ _ => trivial)
  | stack children ih =>
      rw [Figure.draw, drawEach_eq]
      have hchildren : ∀ drawing ∈ children.map draw, Answers limits (fun _ => True) drawing := by
        intro drawing hdrawing
        obtain ⟨child, hchild, rfl⟩ := List.mem_map.mp hdrawing
        exact ih child hchild fun drawing part => drawn drawing (.stack hchild part)
      exact (drawStack_answers hchildren).mono fun _ _ => trivial
  | leaf look =>
      rw [Figure.draw]
      have hown : ∀ drawing, look ≠ .graphic drawing := by
        rintro drawing rfl
        exact drawn drawing (.self _)
      exact (Look.draw_answers hown).mono fun _ _ => trivial

variable [NumberOrder α]

/-- A tree without drawings of the application answers a size within its limits, as long as these
are proper. Only if a minimum size at its top asks for more does it exceed them, and then by no more
than the largest of these asks. The induction goes down that chain, whose every member draws its
child under raised limits; all else constrains its size. -/
theorem draw_sized (figure : Figure α ε) (builtIn : figure.BuiltIn)
    (numbers : ∀ minimum ∈ figure.minima, ∀ axis : Axis, axis.main minimum ≤ axis.main minimum)
    (c : Canvas α ε) (proper : c.constraints.Proper) (axis : Axis) :
    Sized c.constraints figure.minima (figure.draw c).1 axis := by
  induction figure using Figure.induction generalizing c with
  | flex settings children =>
      rw [Figure.draw, minima]
      exact .of_constrained proper (settings.draw_answers _ c rfl).1
  | inset edges child =>
      rw [Figure.draw, minima]
      exact .of_constrained proper (edges.draw_answers _ c rfl).1
  | minSize minimum child ih =>
      cases child with
      | none => exact absurd (.self _) (builtIn.child minimum)
      | some child =>
          rw [minima, minimaOf] at numbers ⊢
          rw [Figure.draw, drawChild]
          obtain ⟨hnumber, hnumbers⟩ := List.forall_mem_cons.mp numbers
          have hproper : (c.constraints.raise minimum).Proper := by
            intro axis
            have hraised := Constraints.raise_raised proper axis (hnumber axis)
            exact ⟨hraised.nonneg, hraised.ordered⟩
          have hbuiltIn : child.BuiltIn :=
            ⟨fun drawing part => builtIn.drawn drawing (.minSize minimum part),
              fun other part => builtIn.child other (.minSize minimum part)⟩
          exact (ih child rfl hbuiltIn hnumbers
            { c with constraints := c.constraints.raise minimum } hproper).of_raised proper
            (hnumber axis)
  | stack children =>
      rw [Figure.draw, minima, drawEach_eq]
      have hchildren : ∀ drawing ∈ children.map draw,
          Answers c.constraints (fun _ => True) drawing := by
        intro drawing hdrawing
        obtain ⟨child, hchild, rfl⟩ := List.mem_map.mp hdrawing
        exact child.draw_restores fun drawing part => builtIn.drawn drawing (.stack hchild part)
      rw [(drawStack_answers hchildren c rfl).1]
      obtain ⟨hmin, hmax⟩ := proper axis
      exact ⟨(NumberOrder.self_of_le _ _ hmax).1, List.forall_mem_nil _, .inl hmax⟩
  | leaf look =>
      rw [Figure.draw, minima]
      have hown : ∀ drawing, look ≠ .graphic drawing := by
        rintro drawing rfl
        exact builtIn.drawn drawing (.self _)
      exact .of_constrained proper (Look.draw_answers hown c rfl).1

/-- A spacer that has to be 40 wide where 30 are allowed. -/
theorem draw_sized_spacer :
    let spacer : Figure Float Unit := .leaf (.spacer ⟨10, 10⟩)
    let figure : Figure Float Unit := .minSize ⟨40, 5⟩ (some (.minSize ⟨20, 25⟩ (some spacer)))
    let c : Canvas Float Unit :=
      { (Canvas.ofSize ⟨0, 0⟩ : Canvas Float Unit) with
        constraints := .loose ⟨30, Number.infinity⟩ }
    figure.BuiltIn ∧
      (∀ minimum ∈ figure.minima, ∀ axis : Axis, axis.main minimum ≤ axis.main minimum) ∧
      c.constraints.Proper ∧ Sized c.constraints figure.minima (figure.draw c).1 .horizontal ∧
      ¬(figure.draw c).1.x ≤ 30 := by
  intro spacer figure c
  have builtIn : figure.BuiltIn := by
    constructor
    · intro drawing part
      dsimp only [figure, spacer] at part
      cases part with
      | minSize _ part => cases part with
        | minSize _ part => cases part
    · intro minimum part
      dsimp only [figure, spacer] at part
      cases part with
      | minSize _ part => cases part with
        | minSize _ part => cases part
  have numbers : ∀ minimum ∈ figure.minima, ∀ axis : Axis,
      axis.main minimum ≤ axis.main minimum := by
    have hminima : figure.minima = [⟨40, 5⟩, ⟨20, 25⟩] := by
      simp only [figure, spacer, minima, minimaOf]
    rw [hminima]
    intro minimum hmem axis
    rcases List.mem_pair.mp hmem with rfl | rfl <;> cases axis <;> decide +kernel
  have proper : c.constraints.Proper := by
    intro axis
    cases axis <;> decide +kernel
  refine ⟨builtIn, numbers, proper, draw_sized figure builtIn numbers c proper .horizontal, ?_⟩
  simp only [figure, spacer, Figure.draw, drawChild]
  decide +kernel

end Figure

end Trellis
