import Trellis.Proofs.Machine.Respects
import Trellis.Proofs.Mirror.Widget

/-!
# Elements that are created with a watcher

An element that can follow bindings is created with a watcher of its own, to which nothing refers
yet. If it is to follow a binding from the start, it is bound then.

* `World.equipped` — an element and its watcher are added.
* `Machine.create_follower_eq_ok` — how such an element is created.
-/

namespace Trellis

variable {κ ρ : Type} {e : ElementId} {w w' : World κ ρ}

/-- The watcher of a new element: a mirror of its value, or one that only asks for frames. -/
def Watcher.ofFollower (window : Option WindowId) : Option (Scalar ρ) → Watcher κ ρ
  | some value => .mirror { value, window }
  | none => .invalidator window

namespace World

/-- The state after an element was added, with a watcher of its own. -/
def equipped (w : World κ ρ) (element : Element κ) (watcher : Watcher κ ρ) : World κ ρ :=
  World.modifyElement
    { w with
      elements := w.elements.push element
      watchers := w.watchers.push { watcher, owner := some ⟨w.elements.size⟩ } }
    ⟨w.elements.size⟩ ({ · with follower := some ⟨w.watchers.size⟩ })

theorem element?_equipped (w : World κ ρ) (element : Element κ) (watcher : Watcher κ ρ) :
    (w.equipped element watcher).element? ⟨w.elements.size⟩ =
      some { element with follower := some ⟨w.watchers.size⟩ } := by
  rw [equipped, element?_modifyElement, if_pos rfl]
  exact congrArg (Option.map _) Array.getElem?_push_size

theorem watcher?_equipped (w : World κ ρ) (element : Element κ) (watcher : Watcher κ ρ) :
    (w.equipped element watcher).watcher? ⟨w.watchers.size⟩ =
      some { watcher, owner := some ⟨w.elements.size⟩ } :=
  Array.getElem?_push_size

/-- The watcher is its own if the followers of the other elements are older. -/
theorem follower?_equipped (followers : ∀ d el y, w.element? d = some el → el.follower = some y →
      y.index < w.watchers.size) (element : Element κ) (watcher : Watcher κ ρ) (d : ElementId) :
    (w.equipped element watcher).follower? d = some ⟨w.watchers.size⟩ ↔ d = ⟨w.elements.size⟩ := by
  constructor
  · intro hd
    obtain ⟨el, hel, hfollower⟩ := Option.bind_eq_some_iff.mp hd
    refine Decidable.byContradiction fun hold => ?_
    have hne : d.index ≠ w.elements.size := fun hindex => hold (congrArg ElementId.mk hindex)
    rw [equipped, element?_modifyElement, if_neg (Ne.symm hold), element?, Array.getElem?_push,
      if_neg hne] at hel
    exact Nat.lt_irrefl _ (followers d el _ hel hfollower)
  · rintro rfl
    rw [follower?, element?_equipped]
    rfl

end World

/-- An element with a watcher is made, and bound if it is to follow a binding from the start. -/
theorem Machine.create_follower_eq_ok {window : Option WindowId} {plan : Blueprint κ ρ}
    {follower : Option (Scalar ρ)} (planned : plan.follower = some follower)
    (run : create window plan w = .ok (e, w')) :
    e = ⟨w.elements.size⟩ ∧ ∃ v, v = { w with madeUp := w.madeUp + 1 }.equipped
        { id := World.idText w.madeUp, window, body := plan.body } (.ofFollower window follower) ∧
      (plan.binding = none ∧ w' = v ∨
        ∃ b, plan.binding = some b ∧ Machine.bind e (some b) v = .ok ((), w')) := by
  have hrun : (do
      if plan.binding.isSome then Machine.bind ⟨w.elements.size⟩ plan.binding
      pure ⟨w.elements.size⟩ : Machine κ ρ ElementId)
        ({ w with madeUp := w.madeUp + 1 }.equipped
          { id := World.idText w.madeUp, window, body := plan.body }
          (.ofFollower window follower)) = .ok (e, w') := by
    rw [create, planned] at run
    cases follower <;> exact run
  cases hbinding : plan.binding with
  | none =>
      rw [hbinding] at hrun
      obtain ⟨rfl, rfl⟩ := pure_eq_ok.mp hrun
      exact ⟨rfl, _, rfl, .inl ⟨rfl, rfl⟩⟩
  | some b =>
      rw [hbinding] at hrun
      obtain ⟨_, u, hbind, hpure⟩ := bind_eq_ok.mp hrun
      obtain ⟨rfl, rfl⟩ := pure_eq_ok.mp hpure
      exact ⟨rfl, _, rfl, .inr ⟨b, rfl, hbind⟩⟩

end Trellis
