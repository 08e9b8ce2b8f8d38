import Trellis.Figure

/-!
# The tree of a figure

* `Figure.induction` — what holds of a figure if it holds of all its children holds of every figure.
* `Figure.drawWeighted_eq` and its like — how the children of each kind of figure are drawn.
-/

namespace Trellis.Figure

variable {α ε : Type}

/-- What is handed on from the children of a figure to the figure holds of all figures. -/
@[elab_as_elim]
theorem induction {motive : Figure α ε → Prop}
    (flex : ∀ settings children, (∀ child ∈ children, motive child.2) →
      motive (.flex settings children))
    (inset : ∀ edges child, (∀ figure ∈ child, motive figure) → motive (.inset edges child))
    (minSize : ∀ minimum child, (∀ figure ∈ child, motive figure) →
      motive (.minSize minimum child))
    (stack : ∀ children, (∀ figure ∈ children, motive figure) → motive (.stack children))
    (leaf : ∀ look, motive (.leaf look)) : ∀ figure, motive figure
  | .flex settings children =>
      flex settings children fun child _hchild =>
        induction flex inset minSize stack leaf child.2
  | .inset edges child =>
      inset edges child fun figure _hfigure => induction flex inset minSize stack leaf figure
  | .minSize minimum child =>
      minSize minimum child fun figure _hfigure => induction flex inset minSize stack leaf figure
  | .stack children =>
      stack children fun figure _hfigure => induction flex inset minSize stack leaf figure
  | .leaf look => leaf look
termination_by figure => sizeOf figure
decreasing_by
  · have hlt := List.sizeOf_lt_of_mem _hchild
    obtain ⟨weight, figure⟩ := child
    simp only [Figure.flex.sizeOf_spec, Prod.mk.sizeOf_spec] at hlt ⊢
    omega
  · cases _hfigure
    simp only [Figure.inset.sizeOf_spec, Option.some.sizeOf_spec]
    omega
  · cases _hfigure
    simp only [Figure.minSize.sizeOf_spec, Option.some.sizeOf_spec]
    omega
  · have hlt := List.sizeOf_lt_of_mem _hfigure
    simp only [Figure.stack.sizeOf_spec]
    omega

variable [Number α]

theorem drawWeighted_eq (children : List (Option α × Figure α ε)) :
    drawWeighted children = children.map fun child => (child.1, child.2.draw) := by
  induction children with
  | nil => simp [drawWeighted]
  | cons child rest ih =>
      obtain ⟨weight, figure⟩ := child
      rw [drawWeighted, ih, List.map_cons]

theorem drawChild_eq (child : Option (Figure α ε)) : drawChild child = child.map draw := by
  cases child <;> simp [drawChild]

theorem drawEach_eq (children : List (Figure α ε)) : drawEach children = children.map draw := by
  induction children with
  | nil => simp [drawEach]
  | cons figure rest ih => rw [drawEach, ih, List.map_cons]

end Trellis.Figure
