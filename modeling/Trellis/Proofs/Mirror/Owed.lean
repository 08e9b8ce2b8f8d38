import Trellis.Proofs.Mirror.Accord

/-!
# What a round owes

A watcher that is registered with a binding is called after every change of it. So a change that has
not been told of, or a round that has yet to call the watcher, is owed to it until it is called.

* `Duty.Effect.yet` — only those who are registered come to be called.
* `Duty.Effect.content`, `Duty.Effect.pending`, `Duty.Effect.owed` — what is owed stays so until the
  call.
-/

namespace Trellis

variable {κ ρ : Type} {x : WatcherId} {b : BindingId} {w w' : World κ ρ}

namespace World

theorem mem_listeners : x ∈ w.listeners b ↔ w.Registered b x ∧ w.watcherAlive x = true := by
  rw [listeners, List.mem_filter, Registered]
  cases w.binding? b <;> simp

end World

namespace Duty

/-- The duties that have somebody to call belong to the rounds of a binding. -/
theorem exists_binding_of_yet {duty : Duty κ ρ} (h : x ∈ duty.yet) :
    ∃ b, duty.binding? = some b := by
  cases duty with
  | rounds b watchers => exact ⟨b, rfl⟩
  | release y b watchers => exact ⟨b, rfl⟩
  | run program | task task | unlock e => cases h

namespace Effect

variable {duty : Duty κ ρ} {left : List (Duty κ ρ)}

/-- Whoever is to be called was to be called before, or is registered when a round begins. -/
theorem yet (h : duty.Effect w left w') {d : Duty κ ρ} (hd : d ∈ left) (hx : x ∈ d.yet) :
    (x ∈ duty.yet ∧ d.binding? = duty.binding?) ∨
      ∃ b, d.binding? = some b ∧ w.Registered b x := by
  cases h with
  | still duty_binding left_binding still =>
      obtain ⟨c, hc⟩ := exists_binding_of_yet hx
      rw [left_binding d hd] at hc
      cases hc
  | opens =>
      rcases List.mem_cons.mp hd with rfl | hd
      · cases hx
      · obtain rfl := List.mem_singleton.mp hd
        cases hx
  | postpones =>
      obtain rfl := List.mem_singleton.mp hd
      cases hx
  | settles => cases hd
  | @begins c =>
      obtain rfl := List.mem_singleton.mp hd
      exact .inr ⟨c, rfl, (World.mem_listeners.mp hx).1⟩
  | @calls y c rest program =>
      rcases List.mem_cons.mp hd with rfl | hd
      · cases hx
      · obtain rfl := List.mem_singleton.mp hd
        exact .inl ⟨List.mem_cons_of_mem _ hx, rfl⟩
  | @releases y c rest =>
      obtain rfl := List.mem_singleton.mp hd
      exact .inl ⟨hx, rfl⟩

/-- A binding has the content that it had, or there is a change to be told. -/
theorem content (h : duty.Effect w left w') (b : BindingId) :
    w'.content? b = w.content? b ∨ (w'.flags b).2 = true := by
  -- A binding that is set, seen from itself and from another one.
  have hassigned {u : World κ ρ} {c : BindingId} {binding : Binding ρ} (still : w.Still u)
      (found : u.binding? c = some binding) (content : Content ρ) :
      (u.assigned c content).content? b = w.content? b ∨
        ((u.assigned c content).flags b).2 = true := by
    by_cases hc : c = b
    · subst hc
      rw [World.flags_assigned found]
      exact .inr rfl
    · rw [World.content?, World.binding?_assigned_of_ne hc]
      exact .inl (still.content b)
  cases h with
  | still _ _ still => exact .inl (still.content b)
  | @opens _ _ c content _ _ _ _ still found => exact hassigned still found content
  | @postpones _ _ c content _ _ _ _ still found => exact hassigned still found content
  | @begins c =>
      refine .inl ?_
      by_cases hc : c = b
      · subst hc
        rw [World.content?, World.binding?_inRound_self, Option.map_map]
        rfl
      · rw [World.content?, World.binding?_inRound_of_ne hc]
        rfl
  | @settles c =>
      refine .inl ?_
      by_cases hc : c = b
      · subst hc
        rw [World.content?, World.binding?_settled_self, Option.map_map]
        rfl
      · rw [World.content?, World.binding?_settled_of_ne hc]
        rfl
  | calls still => exact .inl (still.content b)
  | releases => exact .inl rfl

/-- A change that is to be told stays so until a round begins, which is to call whoever is
registered. -/
theorem pending (h : duty.Effect w left w') (registered : w.Registered b x)
    (held : w.watcherHeld x = true) (hb : (w.flags b).2 = true) :
    (w'.flags b).2 = true ∨ ∃ d ∈ left, x ∈ d.yet := by
  have hassigned {u : World κ ρ} {c : BindingId} {binding : Binding ρ} (still : w.Still u)
      (found : u.binding? c = some binding) (content : Content ρ) :
      ((u.assigned c content).flags b).2 = true := by
    by_cases hc : c = b
    · subst hc
      rw [World.flags_assigned found]
    · rw [World.flags_eq_of_binding? (World.binding?_assigned_of_ne hc content), still.flags]
      exact hb
  cases h with
  | still _ _ still => exact .inl (by rw [still.flags, hb])
  | @opens _ _ c content _ _ _ _ still found => exact .inl (hassigned still found content)
  | @postpones _ _ c content _ _ _ _ still found => exact .inl (hassigned still found content)
  | @begins c =>
      by_cases hc : c = b
      · subst hc
        have halive : w.watcherAlive x = true := by rw [World.watcherAlive, held, Bool.or_true]
        exact .inr ⟨_, List.mem_cons_self, World.mem_listeners.mpr ⟨registered, halive⟩⟩
      · exact .inl (by rw [World.flags_eq_of_binding? (World.binding?_inRound_of_ne hc), hb])
  | @settles c =>
      by_cases hc : c = b
      · subst hc
        exact .inl (by rw [World.flags_settled, hb])
      · exact .inl (by rw [World.flags_eq_of_binding? (World.binding?_settled_of_ne hc), hb])
  | calls still => exact .inl (by rw [still.flags]; exact hb)
  | releases => exact .inl hb

/-- Whoever is to be called is called now, or is to be called still. -/
theorem owed (h : duty.Effect w left w') (hx : x ∈ duty.yet) :
    (∃ b rest, duty = .rounds b (x :: rest)) ∨ ∃ d ∈ left, x ∈ d.yet := by
  cases h with
  | still duty_binding | opens duty_binding | postpones duty_binding =>
      obtain ⟨c, hc⟩ := exists_binding_of_yet hx
      rw [duty_binding] at hc
      cases hc
  | begins | settles => cases hx
  | @calls y c rest program =>
      rcases List.mem_cons.mp hx with rfl | hx
      · exact .inl ⟨c, rest, rfl⟩
      · exact .inr ⟨.release y c rest, by simp, hx⟩
  | @releases y c rest => exact .inr ⟨.rounds c rest, List.mem_cons_self, hx⟩

end Effect

end Duty

end Trellis
