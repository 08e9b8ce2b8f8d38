import Trellis.Proofs.Notification.Rounds
import Trellis.Proofs.World.Held

/-!
# Steps that attach and detach nobody

A mirror is attached to a binding as long as it is registered with it and held. Most steps neither
register nor release anybody and leave the content of the binding alone; some of them touch the copy
of one mirror.

* `World.Attached` — a mirror with its copy, attached to a binding.
* `World.Steady` — what such steps keep.
* `Machine.note_steady` and its like — the steps that are of this sort.
-/

namespace Trellis

variable {κ ρ : Type} {w w' : World κ ρ} {b : BindingId}

namespace World

/-- The watcher is listed with the binding. -/
def Registered (w : World κ ρ) (b : BindingId) (x : WatcherId) : Prop :=
  ∃ binding, w.binding? b = some binding ∧ x ∈ binding.watchers

/-- The watcher is a callback of the application. -/
def CallsBack (w : World κ ρ) (x : WatcherId) (code : κ) : Prop :=
  ∃ cell, w.watcher? x = some cell ∧ cell.watcher = .callback code

/-- The content of a binding. -/
def content? (w : World κ ρ) (b : BindingId) : Option (Content ρ) := (w.binding? b).map (·.content)

/-- A mirror of the binding's kind that is listed with it and held, and its copy. -/
structure Attached (w : World κ ρ) (b : BindingId) (x : WatcherId) (copy : Mirror ρ) : Prop where
  registered : w.Registered b x
  held : w.watcherHeld x = true
  shown : w.copy? x = some copy
  kind : (w.content? b).map (·.shape) = some (.one copy.value.kind)

/-- Nobody came to be registered with the binding, nobody was released, and the binding has the
content that it had. Only some copies may have been touched. -/
structure Steady (b : BindingId) (touched : WatcherId → Prop) (w w' : World κ ρ) : Prop where
  registered : ∀ x, w'.Registered b x → w.Registered b x
  callbacks : ∀ x code, w'.CallsBack x code → w.CallsBack x code
  held : ∀ x, w'.watcherHeld x = w.watcherHeld x
  copies : ∀ x, ¬ touched x → w'.copy? x = w.copy? x
  content : w'.content? b = w.content? b
  pending : (w'.flags b).2 = (w.flags b).2
  history : ∃ news, w'.history = w.history ++ news ∧ .changed b ∉ news

/-- A callback is no mirror. -/
theorem CallsBack.copy?_eq_none {x : WatcherId} {code : κ} (h : w.CallsBack x code) :
    w.copy? x = none := by
  obtain ⟨cell, hcell, hcode⟩ := h
  rw [copy?, hcell]
  show cell.watcher.copy? = none
  rw [hcode]
  rfl

/-- Whoever is attached was attached before. -/
theorem Steady.attached {touched : WatcherId → Prop} (h : Steady b touched w w') {x : WatcherId}
    {copy : Mirror ρ} (hx : ¬ touched x) (ha : w'.Attached b x copy) : w.Attached b x copy where
  registered := h.registered x ha.registered
  held := by rw [← h.held x, ha.held]
  shown := by rw [← h.copies x hx, ha.shown]
  kind := by rw [← h.content, ha.kind]

/-! ## Changes that are steady -/

namespace Steady

variable {touched : WatcherId → Prop}

instance : IsPreorder (World κ ρ) (Steady b touched) where
  refl w :=
    { registered := fun _ => id
      callbacks := fun _ _ => id
      held := fun _ => rfl
      copies := fun _ _ => rfl
      content := rfl
      pending := rfl
      history := ⟨[], (List.append_nil _).symm, List.not_mem_nil⟩ }
  trans u v w h h' :=
    { registered := fun x => h.registered x ∘ h'.registered x
      callbacks := fun x code => h.callbacks x code ∘ h'.callbacks x code
      held := fun x => (h'.held x).trans (h.held x)
      copies := fun x hx => (h'.copies x hx).trans (h.copies x hx)
      content := h'.content.trans h.content
      pending := h'.pending.trans h.pending
      history := by
        obtain ⟨news, hnews, hno⟩ := h.history
        obtain ⟨news', hnews', hno'⟩ := h'.history
        refine ⟨news ++ news', by rw [hnews', hnews, List.append_assoc], ?_⟩
        rw [List.mem_append, not_or]
        exact ⟨hno, hno'⟩ }

/-- A change of the elements' surroundings that holds whom it held. -/
theorem of_eq (bindings : w'.bindings = w.bindings) (watchers : w'.watchers = w.watchers)
    (trail : w'.trail = w.trail) (holders : w.SameHolders w') : Steady b touched w w' where
  registered x := by rw [Registered, Registered, binding?, binding?, bindings]; exact id
  callbacks x code := by rw [CallsBack, CallsBack, watcher?, watcher?, watchers]; exact id
  held := holders.watcher
  copies x _ := by rw [copy?, copy?, watcher?, watcher?, watchers]
  content := by rw [content?, content?, binding?, binding?, bindings]
  pending := by rw [flags, flags, binding?, binding?, bindings]
  history := ⟨[], by rw [World.history, World.history, trail, List.append_nil], List.not_mem_nil⟩

/-- An entry that tells of no change of the binding. -/
theorem record (w : World κ ρ) {entry : Entry} (h : entry ≠ .changed b) :
    Steady b touched w (w.record entry) where
  registered _ := id
  callbacks _ _ := id
  held := (SameHolders.of_eq rfl rfl fun _ => rfl : w.SameHolders (w.record entry)).watcher
  copies _ _ := rfl
  content := rfl
  pending := rfl
  history := ⟨[entry], history_record w entry, by simpa using h.symm⟩

/-- Another value for one mirror. -/
theorem modifyCopy (w : World κ ρ) {x : WatcherId} (hx : touched x) (f : Mirror ρ → Mirror ρ) :
    Steady b touched w (w.modifyCopy x f) where
  registered _ := id
  callbacks y code := by
    rintro ⟨cell, hcell, hcode⟩
    rw [World.modifyCopy, watcher?_modifyWatcher] at hcell
    split at hcell
    · obtain ⟨old, hold, rfl⟩ := Option.map_eq_some_iff.mp hcell
      refine ⟨old, hold, ?_⟩
      have hold' : old.watcher.modifyCopy f = .callback code := hcode
      cases hwatcher : old.watcher <;> rw [hwatcher] at hold' <;> simp_all [Watcher.modifyCopy]
    · exact ⟨cell, hcell, hcode⟩
  held := by
    have hholders : w.SameHolders (w.modifyCopy x f) := .modifyWatcher w x fun _ => ⟨rfl, rfl⟩
    exact hholders.watcher
  copies y hy := by
    rw [copy?_modifyCopy, if_neg]
    rintro rfl
    exact hy hx
  content := rfl
  pending := rfl
  history := ⟨[], (List.append_nil _).symm, List.not_mem_nil⟩

/-- The end of the call of a watcher. -/
theorem released (w : World κ ρ) (x : WatcherId) (c : BindingId) :
    Steady b touched w (w.released x c) := by
  have hrecord : Steady b touched w (w.record (.returned x c)) := .record w (by simp)
  have herase : Steady b touched (w.record (.returned x c)) (w.released x c) :=
    .of_eq rfl rfl rfl (.of_eq rfl rfl fun _ => rfl)
  exact trans_of (Steady b touched) hrecord herase

/-- The end of the rounds of the binding. -/
theorem settled (w : World κ ρ) (b : BindingId) : Steady b touched w (w.settled b) where
  registered x := by
    rintro ⟨after, hafter, hx⟩
    rw [binding?_settled_self] at hafter
    obtain ⟨binding, hbinding, rfl⟩ := Option.map_eq_some_iff.mp hafter
    exact ⟨binding, hbinding, hx⟩
  callbacks _ _ := id
  held := (SameHolders.of_eq rfl rfl fun _ => rfl : w.SameHolders (w.settled b)).watcher
  copies _ _ := rfl
  content := by
    rw [content?, content?, binding?_settled_self, Option.map_map]
    rfl
  pending := by rw [flags_settled]
  history := ⟨[.settled b], history_settled w b, by simp⟩

end Steady

end World

/-! ## Steps that are steady -/

namespace Machine

open World (Steady)

variable {touched : WatcherId → Prop}

theorem note_steady (line : String) :
    Respects (Steady b touched) (note line : Machine κ ρ Unit) :=
  .modify fun w => .record w (by simp)

theorem invalidate_steady (window : Option WindowId) :
    Respects (Steady b touched) (invalidate window : Machine κ ρ Unit) := by
  refine .forM_option window fun x => .modify fun w => .of_eq rfl rfl rfl ?_
  exact .of_eq rfl (World.roots_modifyWindow w x fun _ => rfl) fun _ => rfl

theorem send_steady (event : Event) :
    Respects (Steady b touched) (send event : Machine κ ρ Unit) := by
  refine .modify fun w => .of_eq rfl rfl rfl (.of_eq rfl ?_ fun _ => rfl)
  rw [World.roots, World.roots]
  cases w.session <;> rfl

theorem handle?_steady (e : ElementId) (kind : Kind) :
    Respects (Steady b touched) (handle? e kind : Machine κ ρ (Option Handle)) := by
  refine .get_bind fun w => ?_
  split
  · exact .pure _
  · split
    · exact .pure _
    · split <;> exact .pure _

theorem canLock_steady (h : Handle) :
    Respects (Steady b touched) (canLock h : Machine κ ρ Bool) := by
  refine .get_bind fun w => ?_
  split <;> exact .pure _

theorem modifyMirror_steady {x : WatcherId} (hx : touched x) (f : Mirror ρ → Mirror ρ) :
    Respects (Steady b touched) (modifyMirror x f : Machine κ ρ Unit) :=
  .modify fun w => .modifyCopy w hx f

theorem editMirror_steady {x : WatcherId} (hx : touched x) (value : Scalar ρ) :
    Respects (Steady b touched) (editMirror x value : Machine κ ρ Unit) :=
  .bind (modifyMirror_steady hx _) fun _ => .modify fun w => .record w (by simp)

theorem takeOver_steady {x : WatcherId} (hx : touched x) (c : BindingId) :
    Respects (Steady b touched) (takeOver x c : Machine κ ρ Unit) := by
  refine .get_bind fun w => ?_
  split
  · exact modifyMirror_steady hx _
  · exact .pure _

theorem call_steady (app : App κ ρ) {x : WatcherId} (hx : touched x) (c : BindingId) :
    Respects (Steady b touched) (call app x c : Machine κ ρ (Program κ ρ Unit)) := by
  refine .bind (.modify fun w => .record w (by simp)) fun _ => .get_bind fun w => ?_
  split
  · exact .pure _
  · split
    · split
      · exact .bind (takeOver_steady hx c) fun _ => .bind (invalidate_steady _) fun _ => .pure _
      · exact .pure _
    · exact .bind (invalidate_steady _) fun _ => .pure _
    · exact .pure _

end Machine

end Trellis
