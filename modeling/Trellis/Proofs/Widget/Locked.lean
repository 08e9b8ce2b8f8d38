import Trellis.Proofs.Notification.Steps

/-!
# Elements that are locked

While an element handles its events it is locked. Callbacks that run meanwhile may call whatever
they like, but a call on that element waits, so they leave it as it is.

* `World.SameElement`, `World.Stays` — an element is as it was; it is if it is locked.
* `Moment.Locks` — an element is locked and stays so.
* `Reaches.locked` — callbacks leave a locked element as it is.
-/

namespace Trellis

open Machine

open World (Lenient Recopies Refits Hands)

variable {κ ρ : Type} {e d : ElementId} {w w' : World κ ρ}

/-- The element is as it was. -/
def World.SameElement (e : ElementId) (w w' : World κ ρ) : Prop := w'.element? e = w.element? e

namespace World.SameElement

instance : IsPreorder (World κ ρ) (SameElement e) where
  refl _ := rfl
  trans _ _ _ h h' := Eq.trans h' h

instance : Lenient (SameElement (κ := κ) (ρ := ρ) e) where
  bindings _ _ := rfl
  awaiting _ _ := rfl
  madeUp _ _ := rfl
  recorded _ _ := rfl
  dropped _ _ := rfl
  edited _ _ _ := rfl
  event _ _ := rfl
  asked _ _ := rfl

instance : Hands (SameElement (κ := κ) (ρ := ρ) e) where
  handed _ _ _ := rfl

instance (x : WatcherId) : Recopies (SameElement (κ := κ) (ρ := ρ) e) x where
  copied _ _ := rfl

/-- Another element may change. -/
theorem refits (h : d ≠ e) : Refits (SameElement (κ := κ) (ρ := ρ) e) d where
  refitted w f _ := by
    show (w.modifyElement d f).element? e = w.element? e
    rw [World.element?_modifyElement, if_neg h]

end World.SameElement

/-- An element that is locked is as it was. -/
def World.Stays (e : ElementId) (w w' : World κ ρ) : Prop :=
  (w.element? e).map (·.locked) = some true → w'.element? e = w.element? e

instance : IsPreorder (World κ ρ) (World.Stays e) where
  refl _ _ := rfl
  trans _ _ _ h h' hlocked := by
    have hsame := h hlocked
    rw [← hsame] at hlocked
    exact (h' hlocked).trans hsame

instance : Lenient (World.Stays (κ := κ) (ρ := ρ) e) where
  bindings _ _ _ := rfl
  awaiting _ _ _ := rfl
  madeUp _ _ _ := rfl
  recorded _ _ _ := rfl
  dropped _ _ _ := rfl
  edited _ _ _ _ := rfl
  event _ _ _ := rfl
  asked _ _ _ := rfl

/-- An element is locked, and nothing that is left to do unlocks it. -/
structure Moment.Locks (e : ElementId) (m : Moment κ ρ) : Prop where
  locked : (m.world.element? e).map (·.locked) = some true
  kept : .unlock e ∉ m.agenda

namespace Machine

/-- An element that is locked for a part was free. -/
theorem locking_eq_ok {α : Type} {part : Machine κ ρ α} {element : Element κ} {answer : α}
    (found : w.element? e = some element) (run : locking e part w = .ok (answer, w')) :
    element.locked = false ∧ ∃ u,
      part (w.modifyElement e ({ · with locked := true })) = .ok (answer, u) ∧
      w' = u.modifyElement e ({ · with locked := false }) := by
  obtain ⟨_, v, hlock, run⟩ := bind_eq_ok.mp run
  obtain ⟨_, u, hpart, run⟩ := bind_eq_ok.mp run
  obtain ⟨_, _, hunlock, run⟩ := bind_eq_ok.mp run
  obtain ⟨rfl, rfl⟩ := pure_eq_ok.mp run
  rcases lock_eq_ok hlock with ⟨hnone, -⟩ | ⟨element', helement, hfree, rfl⟩
  · rw [found] at hnone
    cases hnone
  · obtain rfl : element = element' := Option.some.inj (found.symm.trans helement)
    exact ⟨hfree, u, hpart, (modify_eq_ok.mp hunlock).symm⟩

section Locking

variable {α : Type} {part part' : Machine κ ρ α} {element : Element κ}

theorem lock_of_free (found : w.element? e = some element) (free : element.locked = false) :
    lock e w = .ok ((), w.modifyElement e ({ · with locked := true })) := by
  rw [lock, bind_of_eq_ok (a := w) (v := w) rfl]
  simp only [found, free]
  rfl

theorem lock_of_busy (found : w.element? e = some element) (busy : element.locked = true) :
    lock e w = .error .deadlock := by
  rw [lock, bind_of_eq_ok (a := w) (v := w) rfl]
  simp only [found, busy]
  rfl

theorem locking_of_busy (found : w.element? e = some element) (busy : element.locked = true) :
    locking e part w = .error .deadlock :=
  bind_of_eq_error (lock_of_busy found busy)

/-- Parts that do the same to an element that is locked. -/
theorem locking_congr (found : w.element? e = some element)
    (same : ∀ v, v.element? e = some { element with locked := true } → part v = part' v) :
    locking e part w = locking e part' w := by
  cases hlocked : element.locked with
  | true => rw [locking_of_busy found hlocked, locking_of_busy found hlocked]
  | false =>
      have hlock := lock_of_free found hlocked
      rw [locking, locking, bind_of_eq_ok hlock, bind_of_eq_ok hlock]
      refine bind_congr_left (same _ ?_)
      rw [World.element?_modifyElement, if_pos rfl, found]
      rfl

end Locking

end Machine

variable [Ordered ρ] {app : App κ ρ} {m m' : Moment κ ρ}

namespace Moment.Locks

/-- A duty that is discharged does not touch the element: whoever wants to has to lock it first. -/
theorem edits_ne {duty : Duty κ ρ} {left rest : List (Duty κ ρ)}
    (h : Locks e ⟨duty :: rest, w⟩) (run : duty.discharge app w = .ok (left, w')) :
    duty.edits? ≠ some e := by
  intro hedits
  cases duty with
  | task task =>
      cases task with
      | run code => cases hedits
      | edit d kind call reply =>
          obtain rfl : d = e := Option.some.inj hedits
          -- The edit begins by locking the element, which fails as it is not free.
          obtain ⟨_, u, hlock, -⟩ := bind_eq_ok.mp run
          have hlocked := h.locked
          rcases lock_eq_ok hlock with ⟨hnone, -⟩ | ⟨element, helement, hfree, -⟩
          · rw [hnone] at hlocked
            cases hlocked
          · rw [helement, Option.map_some, hfree] at hlocked
            cases hlocked
  | unlock d =>
      obtain rfl : d = e := Option.some.inj hedits
      exact h.kept List.mem_cons_self
  | _ => cases hedits

theorem next (h : m.Locks e) (step : Next app m m') :
    m'.Locks e ∧ m'.world.element? e = m.world.element? e := by
  obtain @⟨duty, rest, left, w, w', run⟩ := step
  have hother := h.edits_ne run
  have hsame : w.SameElement e w' ∧ ∀ d, .unlock d ∈ left → duty.edits? = some d := by
    refine Duty.discharge_answers (fun _ _ => inferInstance) (fun _ _ _ => inferInstance)
      (fun d hd => ?_) (fun _ _ _ _ _ _ _ => inferInstance) run
    refine World.SameElement.refits ?_
    rintro rfl
    exact hother hd
  refine ⟨⟨?_, ?_⟩, hsame.1⟩
  · show (w'.element? e).map (·.locked) = some true
    rw [hsame.1]
    exact h.locked
  · intro hmem
    rcases List.mem_append.mp hmem with hleft | hrest
    · exact hother (hsame.2 e hleft)
    · exact h.kept (List.mem_cons_of_mem _ hrest)

end Moment.Locks

/-- Whatever callbacks do, an element that is locked meanwhile is as it was. The induction is on the
steps. -/
theorem Reaches.locked (h : m.Locks e) (run : Reaches app m m') :
    m'.Locks e ∧ m'.world.element? e = m.world.element? e := by
  induction run with
  | refl => exact ⟨h, rfl⟩
  | tail _ hnext ih =>
      obtain ⟨hlocks, hsame⟩ := ih
      obtain ⟨hlocks', hsame'⟩ := hlocks.next hnext
      exact ⟨hlocks', hsame'.trans hsame⟩

/-- Callbacks that are to run unlock nothing that they have not locked. -/
theorem Reaches.stays {agenda : List (Duty κ ρ)} (kept : .unlock e ∉ agenda)
    (run : Reaches app ⟨agenda, w⟩ ⟨[], w'⟩) : w.Stays e w' :=
  fun locked => (Reaches.locked ⟨locked, kept⟩ run).2

end Trellis
