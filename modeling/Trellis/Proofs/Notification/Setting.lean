import Trellis.Proofs.Notification.Rounds
import Trellis.Proofs.World.Held

/-!
# How setting a binding runs

What the parts of setting a binding come to when they are started, rather than what is known of them
once they have ended.

* `World.listeners_inRound` and its like — who listens to a binding after each part.
* `Machine.store_of_differs`, `Machine.setContent_of_same` — a content is stored if it differs.
* `Machine.setContent_of_drain`, `Machine.setContent_of_busy` — a binding that took on a content.
-/

namespace Trellis

variable {κ ρ : Type} {w w' : World κ ρ} {b : BindingId}

/-! ## Who listens -/

namespace World

theorem SameHolders.watcherAlive (h : SameHolders w w') (awaiting : w'.awaiting = w.awaiting) :
    w'.watcherAlive = w.watcherAlive := by
  funext x
  rw [World.watcherAlive, World.watcherAlive, awaiting, h.watcher]

theorem sameHolders_assigned (w : World κ ρ) (b : BindingId) (content : Content ρ) :
    SameHolders w (w.assigned b content) :=
  .of_eq rfl rfl fun _ => rfl

theorem sameHolders_settled (w : World κ ρ) (b : BindingId) : SameHolders w (w.settled b) :=
  .of_eq rfl rfl fun _ => rfl

theorem sameHolders_record (w : World κ ρ) (entry : Entry) : SameHolders w (w.record entry) :=
  .of_eq rfl rfl fun _ => rfl

theorem sameHolders_inRound (w : World κ ρ) (b : BindingId) : SameHolders w (w.inRound b) :=
  .of_eq rfl rfl fun _ => rfl

theorem sameHolders_released (w : World κ ρ) (x : WatcherId) (b : BindingId) :
    SameHolders w (w.released x b) :=
  .of_eq rfl rfl fun _ => rfl

/-- Who is to be called in a round was alive before. -/
theorem watcherAlive_inRound (w : World κ ρ) (b : BindingId) :
    (w.inRound b).watcherAlive = w.watcherAlive := by
  funext x
  have hlisteners : x ∈ w.listeners b → w.watcherAlive x = true :=
    fun h => (List.mem_filter.mp h).2
  rw [Bool.eq_iff_iff]
  simp only [World.watcherAlive, Bool.or_eq_true, List.contains_iff_mem,
    (sameHolders_inRound w b).watcher] at hlisteners ⊢
  show (x ∈ w.listeners b ++ w.awaiting ∨ _) ↔ _
  rw [List.mem_append]
  constructor
  · rintro ((h | h) | h)
    · exact hlisteners h
    · exact .inl h
    · exact .inr h
  · rintro (h | h)
    · exact .inl (.inr h)
    · exact .inr h

theorem listeners_congr {b : BindingId}
    (watchers : (w'.binding? b).map (·.watchers) = (w.binding? b).map (·.watchers))
    (alive : w'.watcherAlive = w.watcherAlive) : w'.listeners b = w.listeners b := by
  rw [listeners, listeners, watchers, alive]

theorem listeners_assigned (w : World κ ρ) (b : BindingId) (content : Content ρ) :
    (w.assigned b content).listeners b = w.listeners b := by
  refine listeners_congr ?_ ((sameHolders_assigned w b content).watcherAlive rfl)
  show ((w.modifyBinding b _).binding? b).map _ = _
  rw [binding?_modifyBinding_self, Option.map_map]
  rfl

theorem listeners_settled (w : World κ ρ) (b : BindingId) :
    (w.settled b).listeners b = w.listeners b := by
  refine listeners_congr ?_ ((sameHolders_settled w b).watcherAlive rfl)
  rw [binding?_settled_self, Option.map_map]
  rfl

theorem listeners_inRound (w : World κ ρ) (b : BindingId) :
    (w.inRound b).listeners b = w.listeners b := by
  rw [listeners, listeners, watcherAlive_inRound, binding?_inRound_self]
  cases w.binding? b with
  | none => rfl
  | some binding =>
      show (binding.watchers.filter _).filter _ = binding.watchers.filter _
      rw [List.filter_filter]
      simp only [Bool.and_self]

end World

/-! ## Parts -/

namespace Machine

variable [Ordered ρ] {app : App κ ρ} {r : Reentry κ ρ} {rounds : Nat}

theorem drain_done (done : (w.flags b).2 = false) :
    Machine.drain app r rounds b w = .ok ((), w) := by
  rw [World.flags_snd] at done
  cases rounds <;> exact bind_eq_ok.mpr ⟨w, w, rfl, by rw [done]; rfl⟩

theorem drain_next {u : World κ ρ} (pending : (w.flags b).2 = true)
    (first : Machine.round app r b w = .ok ((), u))
    (later : Machine.drain app r rounds b u = .ok ((), w')) :
    Machine.drain app r (rounds + 1) b w = .ok ((), w') := by
  rw [World.flags_snd] at pending
  refine bind_eq_ok.mpr ⟨w, w, rfl, ?_⟩
  rw [pending]
  exact bind_eq_ok.mpr ⟨(), u, first, later⟩

omit [Ordered ρ] in
theorem announce_ends (w : World κ ρ) (b : BindingId) :
    ∃ begins w', announce b w = .ok (begins, w') := by
  let u := w.modifyBinding b ({ · with pending := true })
  by_cases hbusy : ((u.binding? b).map (·.notifying)).getD true = true
  · refine ⟨false, u, bind_eq_ok.mpr ⟨(), u, rfl, bind_eq_ok.mpr ⟨u, u, rfl, ?_⟩⟩⟩
    rw [if_pos hbusy]
    rfl
  · refine ⟨true, u.modifyBinding b ({ · with notifying := true }),
      bind_eq_ok.mpr ⟨(), u, rfl, bind_eq_ok.mpr ⟨u, u, rfl, ?_⟩⟩⟩
    rw [if_neg hbusy]
    rfl

/-- A content that is of another shape or does not differ is not taken. -/
theorem setContent_of_same {content : Content ρ} (same : ∀ binding, w.binding? b = some binding →
      ¬ (binding.content.shape = content.shape ∧ binding.content.differs content = true)) :
    setContent r b content w = .ok (false, w) := by
  have hstore : store b content w = .ok (false, w) := by
    refine bind_eq_ok.mpr ⟨w, w, rfl, ?_⟩
    cases hfound : w.binding? b with
    | none => rfl
    | some binding =>
        simp only
        rw [if_neg (same binding hfound)]
        rfl
  exact bind_eq_ok.mpr ⟨false, w, hstore, rfl⟩

/-- A content that differs is stored, and rounds begin if none are under way. -/
theorem store_of_differs {binding : Binding ρ} {content : Content ρ}
    (found : w.binding? b = some binding) (shape : binding.content.shape = content.shape)
    (differs : binding.content.differs content = true) :
    ∃ u : World κ ρ, store b content w = .ok (true, u) ∧
      announce b u = .ok (!binding.notifying, w.assigned b content) := by
  let u := (w.modifyBinding b ({ · with content := content })).record (.changed b)
  have hfound : u.binding? b = some { binding with content := content } := by
    rw [World.binding?_record, World.binding?_modifyBinding_self, found]
    rfl
  obtain ⟨begins, u', hannounce⟩ := announce_ends u b
  obtain ⟨hbegins, hu'⟩ := announce_eq_ok hfound hannounce
  refine ⟨u, ?_, ?_⟩
  · refine bind_eq_ok.mpr ⟨w, w, rfl, ?_⟩
    simp only [found]
    rw [if_pos ⟨shape, differs⟩]
    rfl
  · rw [hannounce, hbegins, hu', World.modifyBinding_record, World.modifyBinding_modifyBinding]
    rfl

/-- A content that differs is taken. If rounds are under way, they are left to tell of it. -/
theorem setContent_of_busy {binding : Binding ρ} {content : Content ρ} {fuel : Nat}
    (found : w.binding? b = some binding) (shape : binding.content.shape = content.shape)
    (differs : binding.content.differs content = true) (busy : binding.notifying = true) :
    setContent (.ofFuel app (fuel + 1)) b content w = .ok (true, w.assigned b content) := by
  obtain ⟨u, hstore, hannounce⟩ := store_of_differs found shape differs
  rw [busy] at hannounce
  refine bind_eq_ok.mpr ⟨true, u, hstore, ?_⟩
  exact bind_eq_ok.mpr ⟨(), _, bind_eq_ok.mpr ⟨false, _, hannounce, rfl⟩, rfl⟩

/-- A content that differs is taken, and the rounds of the binding run. -/
theorem setContent_of_drain {binding : Binding ρ} {content : Content ρ} {fuel : Nat}
    {u : World κ ρ} (found : w.binding? b = some binding)
    (shape : binding.content.shape = content.shape)
    (differs : binding.content.differs content = true) (idle : binding.notifying = false)
    (run : drain app (.ofFuel app fuel) (fuel + 1) b (w.assigned b content) = .ok ((), u)) :
    setContent (.ofFuel app (fuel + 1)) b content w = .ok (true, u.settled b) := by
  obtain ⟨v, hstore, hannounce⟩ := store_of_differs found shape differs
  rw [idle] at hannounce
  refine bind_eq_ok.mpr ⟨true, v, hstore, bind_eq_ok.mpr ⟨(), u.settled b, ?_, rfl⟩⟩
  exact bind_eq_ok.mpr ⟨true, _, hannounce, bind_eq_ok.mpr ⟨(), u, run, rfl⟩⟩

end Machine

end Trellis
