import Trellis.Proofs.Notification.Told

/-!
# Who is called, and who is kept alive for it

A round keeps the watchers alive that it is to call, until it has called them. So whoever is awaited
is kept by a round under way, and a run that ends awaits nobody that it did not await before. How
often a watcher is called for a binding is how often the rounds of the binding list it.

* `Duty.keeps` — the watchers that a duty keeps alive.
* `Moment.Awaits` — whoever is awaited is kept by what is left to do, with `Moment.Awaits.next`.
* `Reaches.awaits` — what a whole run leaves of that.
* `Phase.count_called` — how often a watcher is called in a stretch of history.
* `Entry.TellsOnce` — every change is told of in a round that calls a watcher once.
-/

namespace Trellis

open Machine

variable {κ ρ : Type} {w w' : World κ ρ} {b : BindingId} {x : WatcherId}

/-! ## Who is kept alive -/

/-- The watchers that are kept alive until the duty is done: those left to call, and the one that is
being called. -/
def Duty.keeps : Duty κ ρ → List WatcherId
  | .rounds _ watchers => watchers
  | .release x _ watchers => x :: watchers
  | _ => []

/-- Whoever is awaited is kept by a duty that is left, or was awaited in the first place. -/
def Moment.Awaits (first : List WatcherId) (m : Moment κ ρ) : Prop :=
  m.world.awaiting.Perm (m.agenda.flatMap Duty.keeps ++ first)

namespace Duty

/-- A duty that belongs to no rounds keeps nobody. -/
theorem keeps_of_binding? {duty : Duty κ ρ} (h : duty.binding? = none) : duty.keeps = [] := by
  cases duty with
  | rounds | release => cases h
  | run | task | unlock => rfl

theorem flatMap_keeps {duties : List (Duty κ ρ)} (h : ∀ d ∈ duties, d.binding? = none) :
    duties.flatMap keeps = [] :=
  List.flatMap_eq_nil_iff.mpr fun d hd => keeps_of_binding? (h d hd)

/-- Whoever is kept was kept before, for the same binding, or is registered with the binding that a
round of begins. -/
theorem Effect.keeps {duty d : Duty κ ρ} {left : List (Duty κ ρ)} (h : duty.Effect w left w')
    (hd : d ∈ left) (hx : x ∈ d.keeps) :
    (x ∈ duty.keeps ∧ d.binding? = duty.binding?) ∨
      ∃ b, d = .rounds b (w.listeners b) ∧ x ∈ w.listeners b := by
  have hnone {d : Duty κ ρ} (h : d.binding? = none) : x ∉ d.keeps := by
    rw [keeps_of_binding? h]
    exact List.not_mem_nil
  cases h with
  | still _ left_binding => exact absurd hx (hnone (left_binding d hd))
  | opens =>
      rcases List.mem_cons.mp hd with rfl | hd
      · cases hx
      · exact absurd hx (hnone (binding?_run _ d hd))
  | postpones => exact absurd hx (hnone (binding?_run _ d hd))
  | settles => cases hd
  | @begins c =>
      obtain rfl := List.mem_singleton.mp hd
      exact .inr ⟨c, rfl, hx⟩
  | calls =>
      rcases List.mem_cons.mp hd with rfl | hd
      · cases hx
      · obtain rfl := List.mem_singleton.mp hd
        exact .inl ⟨hx, rfl⟩
  | releases =>
      obtain rfl := List.mem_singleton.mp hd
      exact .inl ⟨List.mem_cons_of_mem _ hx, rfl⟩

end Duty

section Runs

variable [Ordered ρ] {app : App κ ρ} {m m' : Moment κ ρ} {first : List WatcherId}

/-- A step keeps alive whom it is to call, and lets go of those it has called. -/
theorem Moment.Awaits.next (h : m.Awaits first) (step : Next app m m') : m'.Awaits first := by
  obtain @⟨duty, rest, left, w, w', run⟩ := step
  unfold Awaits at h ⊢
  dsimp only at h ⊢
  rw [List.flatMap_cons, List.append_assoc] at h
  rw [List.flatMap_append, List.append_assoc]
  generalize rest.flatMap Duty.keeps ++ first = others at h ⊢
  cases Duty.effect_of_discharge run with
  | still duty_binding left_binding still =>
      rw [Duty.keeps_of_binding? duty_binding] at h
      rw [Duty.flatMap_keeps left_binding, still.awaiting]
      exact h
  | opens duty_binding still | postpones duty_binding still =>
      rw [Duty.keeps_of_binding? duty_binding] at h
      show World.awaiting _ |>.Perm others
      exact (still.awaiting ▸ h : _)
  | @begins c =>
      rw [List.flatMap_singleton]
      exact h.append_left (w.listeners c)
  | settles => exact h
  | @calls y c watchers =>
      next still =>
      rw [still.awaiting, List.flatMap_cons, List.flatMap_singleton]
      exact h
  | @releases y c watchers =>
      rw [List.flatMap_singleton]
      have herased := h.erase y
      rwa [show (Duty.release y c watchers : Duty κ ρ).keeps ++ others = y :: (watchers ++ others)
        from rfl, List.erase_cons_head] at herased

theorem Moment.Awaits.reaches (h : m.Awaits first) (run : Reaches app m m') : m'.Awaits first := by
  induction run with
  | refl => exact h
  | tail _ hstep ih => exact ih.next hstep

/-- A run that begins outside of any round and ends awaits whom it awaited before. -/
theorem Reaches.awaits {agenda : List (Duty κ ρ)} (idle : ∀ d ∈ agenda, d.binding? = none)
    (run : Reaches app ⟨agenda, w⟩ ⟨[], w'⟩) : w'.awaiting.Perm w.awaiting := by
  have hfirst : Moment.Awaits w.awaiting ⟨agenda, w⟩ := by
    rw [Moment.Awaits, Duty.flatMap_keeps idle]
    exact .refl _
  exact hfirst.reaches run

end Runs

/-! ## How often a watcher is called -/

namespace Entry

/-- The watchers that an entry lists as those to call for a binding. -/
def listed (b : BindingId) : Entry → List WatcherId
  | .round c watchers => if c = b then watchers else []
  | _ => []

theorem mem_listed {entry : Entry} :
    x ∈ entry.listed b ↔ ∃ watchers, entry = .round b watchers ∧ x ∈ watchers := by
  cases entry with
  | round c watchers =>
      by_cases hc : c = b <;> simp [listed, hc]
  | note | changed | called | returned | settled | edited => simp [listed]

/-- A watcher that every round lists once is listed as often as there are rounds. -/
theorem count_listed {entries : List Entry}
    (once : ∀ watchers, .round b watchers ∈ entries → watchers.count x = 1) :
    (entries.flatMap (listed b)).count x = entries.countP (isRoundOf b) := by
  induction entries with
  | nil => rfl
  | cons entry entries ih =>
      have hentry : (entry.listed b).count x = if entry.isRoundOf b then 1 else 0 := by
        cases entry with
        | round c watchers =>
            by_cases hc : c = b
            · subst hc
              simpa [listed, isRoundOf] using once watchers List.mem_cons_self
            · simp [listed, isRoundOf, hc]
        | note | changed | called | returned | settled | edited => rfl
      have hrest := ih fun watchers hmem => once watchers (List.mem_cons_of_mem _ hmem)
      rw [List.flatMap_cons, List.count_append, hentry, hrest, List.countP_cons, Nat.add_comm]

/-- The calls of a round are as many for each watcher as the round lists it. -/
theorem count_calls (b : BindingId) (x : WatcherId) (watchers : List WatcherId) :
    (calls b watchers).count (.called x b) = watchers.count x := by
  induction watchers with
  | nil => rfl
  | cons y watchers ih =>
      rw [calls, List.flatMap_cons, ← calls, List.count_append, ih, List.count_cons, Nat.add_comm]
      by_cases hy : y = x <;> simp [hy]

end Entry

namespace Phase

variable {p q : Phase} {entries : List Entry}

/-- The watchers that are yet to be called in the round. -/
def yet : Phase → List WatcherId
  | .idle => []
  | .ready rest _ | .within _ rest _ => rest

/-- A call is one of those left to the round, and a round that begins has those left that it
lists. -/
theorem step_called {entry : Entry} (h : p.step b entry = some q) :
    [entry].count (.called x b) + q.yet.count x = p.yet.count x + (entry.listed b).count x := by
  by_cases hb : entry.binding? = some b
  · rw [step_of_eq hb] at h
    unfold next at h
    split at h <;> simp_all [Entry.listed, Entry.binding?, yet] <;> grind
  · rw [step_of_ne hb, Option.some.injEq] at h
    subst h
    cases entry <;> simp_all [Entry.listed, Entry.binding?]

/-- Whoever is called for a binding was left to call, or is listed by a round. The induction is on
the history. -/
theorem count_called (h : follow b p entries = some q) :
    entries.count (.called x b) + q.yet.count x =
      p.yet.count x + (entries.flatMap (Entry.listed b)).count x := by
  induction entries generalizing p with
  | nil =>
      cases h
      simp
  | cons entry entries ih =>
      rw [follow_cons] at h
      obtain ⟨u, hu, h⟩ := Option.bind_eq_some_iff.mp h
      have hstep := step_called (x := x) hu
      have hrest := ih h
      have hcount : (entry :: entries).count (.called x b) =
          [entry].count (.called x b) + entries.count (.called x b) := by
        rw [← List.singleton_append, List.count_append]
      rw [hcount, List.flatMap_cons, List.count_append]
      omega

/-- In a history between the rounds a watcher is called as often as it is listed. -/
theorem count_called_eq_listed (h : follow b .idle entries = some .idle) :
    entries.count (.called x b) = (entries.flatMap (Entry.listed b)).count x := by
  have hcount := count_called (x := x) h
  simpa [yet] using hcount

/-- A watcher that no round lists is not called. -/
theorem not_called (h : follow b .idle entries = some .idle)
    (unlisted : ∀ watchers, .round b watchers ∈ entries → x ∉ watchers) :
    .called x b ∉ entries := by
  rw [← List.count_eq_zero, count_called_eq_listed h, List.count_eq_zero, List.mem_flatMap]
  rintro ⟨entry, hentry, hx⟩
  obtain ⟨watchers, rfl, hmem⟩ := Entry.mem_listed.mp hx
  exact unlisted watchers hentry hmem

end Phase

/-! ## Being told of every change once -/

/-- Every change of a binding is told of in a round that begins later, and every round of it calls a
watcher once before it is over; nor is the watcher called for the binding otherwise. -/
structure Entry.TellsOnce (x : WatcherId) (b : BindingId) (news : List Entry) : Prop where
  change : ∀ before later, news = before ++ .changed b :: later →
    ∃ watchers, .round b watchers ∈ later
  round : ∀ before watchers later, news = before ++ .round b watchers :: later →
    ∃ during close rest, later = during ++ close :: rest ∧ during.count (.called x b) = 1 ∧
      (∀ entry ∈ during, entry.closes b = false) ∧ close.closes b = true
  calls : news.count (.called x b) = news.countP (Entry.isRoundOf b)

/-- A history that begins and ends outside of any round, if its rounds list the watcher once. -/
theorem Entry.TellsOnce.of_follow {news : List Entry}
    (h : Phase.follow b .idle news = some .idle)
    (listed : ∀ watchers, .round b watchers ∈ news → watchers.count x = 1) :
    Entry.TellsOnce x b news where
  change before later heq := by
    obtain ⟨during, watchers, rest, rfl⟩ := Phase.exists_round_of_changed (heq ▸ h)
    exact ⟨watchers, List.mem_append_right _ List.mem_cons_self⟩
  round before watchers later heq := by
    obtain ⟨during, close, rest, rfl, hcalls, hnone, hclose⟩ :=
      Phase.fulfilled_of_follow (heq ▸ h)
    refine ⟨during, close, rest, rfl, ?_, hnone, ?_⟩
    · have hlisted := listed watchers (heq ▸ List.mem_append_right _ List.mem_cons_self)
      rw [← List.count_filter (p := Entry.isCallFor b) (by simp [Entry.isCallFor]), hcalls,
        Entry.count_calls, hlisted]
    · rcases hclose with ⟨rfl, -⟩ | ⟨next, rfl, -⟩ <;> simp [Entry.closes]
  calls := (Phase.count_called_eq_listed h).trans (Entry.count_listed listed)

end Trellis
