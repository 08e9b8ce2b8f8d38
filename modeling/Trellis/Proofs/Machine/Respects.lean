import Mathlib.Order.Defs.Unbundled
import Trellis.Machine.Basic

/-!
# What runs do to the state

A run that ends relates the state before it to the state after it. For a relation that composes, it
is enough to look at the single steps.

* `Machine.bind_eq_ok` — a run of two parts is a run of the first and then one of the second.
* `Machine.Respects` — every run of a part is in a relation; `Respects.bind` and its like put the
  parts together.
* `Machine.Answers` — what every run answers is of a kind, too.
* `Machine.Ensures` — every run of a part ends, too.
-/

namespace Trellis.Machine

variable {κ ρ α β : Type}

/-! ## Runs of compound parts -/

theorem pure_eq_ok {a a' : α} {w w' : World κ ρ} :
    (pure a : Machine κ ρ α) w = .ok (a', w') ↔ a = a' ∧ w = w' := by
  show Except.ok (a, w) = Except.ok (a', w') ↔ _
  simp

theorem bind_eq_ok {m : Machine κ ρ α} {f : α → Machine κ ρ β} {w w' : World κ ρ} {c : β} :
    (m >>= f) w = .ok (c, w') ↔ ∃ a v, m w = .ok (a, v) ∧ f a v = .ok (c, w') := by
  have hrun : (m >>= f) w = Except.bind (m w) fun p => f p.1 p.2 := rfl
  rw [hrun]
  cases hm : m w with
  | error reason => simp [Except.bind]
  | ok p =>
      simp only [Except.bind, Except.ok.injEq]
      constructor
      · intro h
        exact ⟨p.1, p.2, rfl, h⟩
      · rintro ⟨a, v, rfl, h⟩
        exact h

/-- What a run of two parts comes to goes by what the first one does to the state. -/
theorem bind_of_eq_ok {m : Machine κ ρ α} {f : α → Machine κ ρ β} {w v : World κ ρ} {a : α}
    (h : m w = .ok (a, v)) : (m >>= f) w = f a v := by
  have hrun : (m >>= f) w = Except.bind (m w) fun p => f p.1 p.2 := rfl
  rw [hrun, h]
  rfl

theorem bind_of_eq_error {m : Machine κ ρ α} {f : α → Machine κ ρ β} {w : World κ ρ}
    {reason : Stop} (h : m w = .error reason) : (m >>= f) w = .error reason := by
  have hrun : (m >>= f) w = Except.bind (m w) fun p => f p.1 p.2 := rfl
  rw [hrun, h]
  rfl

theorem bind_congr_left {m m' : Machine κ ρ α} {f : α → Machine κ ρ β} {w : World κ ρ}
    (h : m w = m' w) : (m >>= f) w = (m' >>= f) w := by
  have hrun (m : Machine κ ρ α) : (m >>= f) w = Except.bind (m w) fun p => f p.1 p.2 := rfl
  rw [hrun, hrun, h]

theorem get_eq_ok {w v w' : World κ ρ} :
    (get : Machine κ ρ (World κ ρ)) w = .ok (v, w') ↔ w = v ∧ w = w' := by
  show Except.ok (w, w) = Except.ok (v, w') ↔ _
  simp

/-- What begins with a look at the state goes on with what it sees. -/
theorem get_bind_eq_ok {f : World κ ρ → Machine κ ρ β} {w w' : World κ ρ} {c : β} :
    ((get : Machine κ ρ (World κ ρ)) >>= f) w = .ok (c, w') ↔ f w w = .ok (c, w') := Iff.rfl

theorem modify_eq_ok {f : World κ ρ → World κ ρ} {w w' : World κ ρ} {u : Unit} :
    (modify f : Machine κ ρ Unit) w = .ok (u, w') ↔ f w = w' := by
  show Except.ok ((), f w) = Except.ok (u, w') ↔ _
  simp

theorem stop_ne_ok {reason : Stop} {w : World κ ρ} {p : α × World κ ρ} :
    (stop reason : Machine κ ρ α) w ≠ .ok p := by
  show Except.error reason ≠ Except.ok p
  simp

/-- Whether a run ends can be decided by running. -/
theorem exists_eq_ok {m : Machine κ ρ α} {w : World κ ρ} (h : (m w).toOption.isSome = true) :
    ∃ a w', m w = .ok (a, w') := by
  cases hrun : m w with
  | error reason =>
      rw [hrun] at h
      exact absurd h Bool.false_ne_true
  | ok p => exact ⟨p.1, p.2, rfl⟩

/-! ## Relations that runs respect -/

/-- Every run of a part that ends is in the relation. -/
def Respects (R : World κ ρ → World κ ρ → Prop) (m : Machine κ ρ α) : Prop :=
  ∀ ⦃w a w'⦄, m w = .ok (a, w') → R w w'

namespace Respects

variable {R : World κ ρ → World κ ρ → Prop}

theorem stop (reason : Stop) : Respects R (stop reason : Machine κ ρ α) :=
  fun _ _ _ run => absurd run stop_ne_ok

theorem modify {f : World κ ρ → World κ ρ} (h : ∀ w, R w (f w)) :
    Respects R (modify f : Machine κ ρ Unit) := by
  intro w a w' run
  rw [← modify_eq_ok.mp run]
  exact h w

variable [IsPreorder (World κ ρ) R]

theorem pure (a : α) : Respects R (pure a : Machine κ ρ α) := by
  intro w a' w' run
  rw [(pure_eq_ok.mp run).2]
  exact refl_of R w'

theorem get : Respects R (get : Machine κ ρ (World κ ρ)) := by
  intro w v w' run
  rw [(get_eq_ok.mp run).2]
  exact refl_of R w'

theorem bind {m : Machine κ ρ α} {f : α → Machine κ ρ β} (hm : Respects R m)
    (hf : ∀ a, Respects R (f a)) : Respects R (m >>= f) := by
  intro w c w' run
  obtain ⟨a, v, hfirst, hrest⟩ := bind_eq_ok.mp run
  exact trans_of R (hm hfirst) (hf a hrest)

/-- A part that looks at the state first. -/
theorem get_bind {f : World κ ρ → Machine κ ρ β} (hf : ∀ w, Respects R (f w)) :
    Respects R ((MonadState.get : Machine κ ρ (World κ ρ)) >>= f) :=
  bind get hf

theorem forM_option {f : α → Machine κ ρ PUnit} (o : Option α) (hf : ∀ a, Respects R (f a)) :
    Respects R (o.forM f) := by
  cases o with
  | none => exact pure _
  | some a => exact hf a

theorem forM_list {f : α → Machine κ ρ PUnit} (as : List α) (hf : ∀ a, Respects R (f a)) :
    Respects R (as.forM f) := by
  induction as with
  | nil => exact pure _
  | cons a rest ih => exact bind (hf a) fun _ => ih

theorem mapM_list {f : α → Machine κ ρ β} (as : List α) (hf : ∀ a, Respects R (f a)) :
    Respects R (as.mapM f) := by
  induction as with
  | nil =>
      rw [List.mapM_nil]
      exact pure _
  | cons a rest ih =>
      rw [List.mapM_cons]
      exact bind (hf a) fun _ => bind ih fun _ => pure _

theorem mapM_option {f : α → Machine κ ρ β} (o : Option α) (hf : ∀ a, Respects R (f a)) :
    Respects R (o.mapM f) := by
  cases o with
  | none => exact pure _
  | some a => exact bind (hf a) fun _ => pure _

end Respects

/-! ## What runs answer -/

/-- Every run of a part that ends is in the relation, and what it answers is of a kind. -/
def Answers (R : World κ ρ → World κ ρ → Prop) (P : α → Prop) (m : Machine κ ρ α) : Prop :=
  ∀ ⦃w a w'⦄, m w = .ok (a, w') → R w w' ∧ P a

namespace Answers

variable {R : World κ ρ → World κ ρ → Prop} {P : β → Prop} {Q : α → Prop}

theorem stop (reason : Stop) : Answers R P (Machine.stop reason : Machine κ ρ β) :=
  fun _ _ _ run => absurd run stop_ne_ok

variable [IsPreorder (World κ ρ) R] {m : Machine κ ρ α} {f : α → Machine κ ρ β}

theorem pure {b : β} (h : P b) : Answers R P (pure b : Machine κ ρ β) := by
  intro w a w' run
  obtain ⟨rfl, rfl⟩ := pure_eq_ok.mp run
  exact ⟨refl_of R w, h⟩

theorem andThen (hm : Answers R Q m) (hf : ∀ a, Q a → Answers R P (f a)) :
    Answers R P (m >>= f) := by
  intro w c w' run
  obtain ⟨a, v, hfirst, hrest⟩ := bind_eq_ok.mp run
  obtain ⟨hrel, ha⟩ := hm hfirst
  obtain ⟨hrel', hc⟩ := hf a ha hrest
  exact ⟨trans_of R hrel hrel', hc⟩

theorem bind (hm : Respects R m) (hf : ∀ a, Answers R P (f a)) : Answers R P (m >>= f) :=
  andThen (Q := fun _ => True) (fun _ _ _ run => ⟨hm run, trivial⟩) fun a _ => hf a

theorem get_bind {f : World κ ρ → Machine κ ρ β} (hf : ∀ w, Answers R P (f w)) :
    Answers R P ((MonadState.get : Machine κ ρ (World κ ρ)) >>= f) :=
  bind .get hf

end Answers

/-! ## Runs that end -/

/-- Every run of a part ends, and is in the relation. -/
def Ensures (R : World κ ρ → World κ ρ → Prop) (m : Machine κ ρ α) : Prop :=
  ∀ w, ∃ a w', m w = .ok (a, w') ∧ R w w'

namespace Ensures

variable {R : World κ ρ → World κ ρ → Prop}

/-- A part that changes the state first, seen from after that change. -/
theorem modify_bind {g : World κ ρ → World κ ρ} {f : Unit → Machine κ ρ β}
    (hf : ∀ u, Ensures R (f u)) (w : World κ ρ) :
    ∃ b w', ((modify g : Machine κ ρ Unit) >>= f) w = .ok (b, w') ∧ R (g w) w' := by
  obtain ⟨b, w', hrun, hw'⟩ := hf () (g w)
  exact ⟨b, w', bind_eq_ok.mpr ⟨(), g w, rfl, hrun⟩, hw'⟩

theorem modify {f : World κ ρ → World κ ρ} (h : ∀ w, R w (f w)) :
    Ensures R (modify f : Machine κ ρ Unit) :=
  fun w => ⟨(), f w, rfl, h w⟩

variable [IsPreorder (World κ ρ) R]

theorem pure (a : α) : Ensures R (pure a : Machine κ ρ α) :=
  fun w => ⟨a, w, rfl, refl_of R w⟩

theorem get : Ensures R (get : Machine κ ρ (World κ ρ)) :=
  fun w => ⟨w, w, rfl, refl_of R w⟩

theorem bind {m : Machine κ ρ α} {f : α → Machine κ ρ β} (hm : Ensures R m)
    (hf : ∀ a, Ensures R (f a)) : Ensures R (m >>= f) := by
  intro w
  obtain ⟨a, v, hfirst, hv⟩ := hm w
  obtain ⟨c, w', hrest, hw'⟩ := hf a v
  exact ⟨c, w', bind_eq_ok.mpr ⟨a, v, hfirst, hrest⟩, trans_of R hv hw'⟩

theorem forM_option {f : α → Machine κ ρ PUnit} (o : Option α) (hf : ∀ a, Ensures R (f a)) :
    Ensures R (o.forM f) := by
  cases o with
  | none => exact pure _
  | some a => exact hf a

end Ensures

end Trellis.Machine
