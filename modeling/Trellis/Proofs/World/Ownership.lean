import Mathlib.Logic.Relation
import Trellis.Proofs.World.Held

/-!
# Who owns an element

An element owns its children, and what those own. Children are younger than what holds them.

* `World.Owns` — an element is held by another through a chain of children.
* `World.elementAlive_iff` — an element is alive if and only if a root owns it.
* `World.Closed` — nothing refers to elements that are not there yet.
-/

namespace Trellis.World

variable {κ ρ : Type} {w w' : World κ ρ}

/-- An element holds another as a child. -/
def Parent (w : World κ ρ) (p c : ElementId) : Prop := c ∈ w.childrenOf p ∧ p.index < c.index

/-- An element is another one, or holds it through a chain of children. -/
def Owns (w : World κ ρ) : ElementId → ElementId → Prop := Relation.ReflTransGen w.Parent

/-- The induction is on the age of the element, as parents are older than their children. -/
theorem heldAt_iff (n : Nat) : w.heldAt n = true ↔ ∃ r ∈ w.roots, w.Owns r ⟨n⟩ := by
  induction n using Nat.strongRecOn with
  | _ n ih =>
      rw [heldAt, Bool.or_eq_true, List.contains_iff_mem, List.any_eq_true]
      constructor
      · rintro (hroot | ⟨p, -, hp⟩)
        · exact ⟨⟨n⟩, hroot, .refl⟩
        · rw [Bool.and_eq_true, List.contains_iff_mem] at hp
          obtain ⟨r, hr, howns⟩ := (ih p p.isLt).mp hp.2
          exact ⟨r, hr, howns.tail ⟨hp.1, p.isLt⟩⟩
      · rintro ⟨r, hr, howns⟩
        -- only the last link of the chain is looked at here
        cases howns with
        | refl => exact .inl hr
        | @tail p _ howns hparent =>
            refine .inr ⟨⟨p.index, hparent.2⟩, List.mem_finRange _, ?_⟩
            rw [Bool.and_eq_true, List.contains_iff_mem]
            exact ⟨hparent.1, (ih p.index hparent.2).mpr ⟨r, hr, howns⟩⟩

/-- An element is alive if and only if a root owns it. -/
theorem elementAlive_iff (e : ElementId) : w.elementAlive e = true ↔ ∃ r ∈ w.roots, w.Owns r e :=
  heldAt_iff e.index

/-- Roots and children are elements that are there. -/
structure Closed (w : World κ ρ) : Prop where
  roots : ∀ r ∈ w.roots, r.index < w.elements.size
  children : ∀ e, ∀ c ∈ w.childrenOf e, c.index < w.elements.size

/-- Elements that keep their children go on to own what they owned. -/
theorem Closed.lt_of_owns {e c : ElementId} (closed : w.Closed)
    (kept : ∀ e : ElementId, e.index < w.elements.size → w'.childrenOf e = w.childrenOf e)
    (h : w'.Owns e c) (old : e.index < w.elements.size) : c.index < w.elements.size := by
  induction h with
  | refl => exact old
  | @tail p c _ hparent ih =>
      have hchild := hparent.1
      rw [kept p ih] at hchild
      exact closed.children p c hchild

end Trellis.World
