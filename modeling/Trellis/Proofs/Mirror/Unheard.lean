import Trellis.Proofs.Machine.Permissive
import Trellis.Proofs.Mirror.Steady

/-!
# What callbacks keep to themselves

An application may note what it likes in bindings that nobody watches, and hand work to windows that
keep it until later. Setting such a binding calls nobody, and no other binding is concerned.

* `World.Unheard` — a binding that nobody watches; `World.Waits` — a window that keeps its tasks.
* `World.Secluded` — steps after which these are what they were.
* `World.Steady.assigned_of_ne` and its like — setting another binding is steady.
-/

namespace Trellis

variable {κ ρ : Type} {b c : BindingId} {w w' : World κ ρ}

namespace World

/-- Nobody watches the binding. -/
def Unheard (w : World κ ρ) (c : BindingId) : Prop := ∀ x, ¬ w.Registered c x

/-- Tasks that are handed to the window wait in it. -/
def Waits (w : World κ ρ) (x : WindowId) : Prop :=
  ∀ window, w.window? x = some window → window.queues = true

/-- Whoever watches another binding watched it before, and tasks wait where they did. -/
structure Secluded (b : BindingId) (w w' : World κ ρ) : Prop where
  registered : ∀ c, c ≠ b → ∀ x, w'.Registered c x → w.Registered c x
  waits : ∀ x, w.Waits x → w'.Waits x

theorem Unheard.listeners (h : w.Unheard c) : w.listeners c = [] := by
  rw [World.listeners]
  cases hc : w.binding? c with
  | none => rfl
  | some binding =>
      have hnobody : binding.watchers = [] :=
        List.eq_nil_iff_forall_not_mem.mpr fun x hx => h x ⟨binding, hc, hx⟩
      rw [Option.map_some, hnobody]
      rfl

namespace Secluded

theorem unheard (h : w.Secluded b w') (hne : c ≠ b) (unheard : w.Unheard c) : w'.Unheard c :=
  fun x hx => unheard x (h.registered c hne x hx)

instance : IsPreorder (World κ ρ) (Secluded b) where
  refl _ := ⟨fun _ _ _ => id, fun _ => id⟩
  trans _ _ _ h h' :=
    { registered := fun c hne x => h.registered c hne x ∘ h'.registered c hne x
      waits := fun x => h'.waits x ∘ h.waits x }

theorem of_eq (bindings : w'.bindings = w.bindings) (windows : w'.windows = w.windows) :
    w.Secluded b w' where
  registered c _ x := by rw [Registered, Registered, binding?, binding?, bindings]; exact id
  waits x := by rw [Waits, Waits, window?, window?, windows]; exact id

theorem modifyWindow (w : World κ ρ) (y : WindowId) {f : Window κ → Window κ}
    (queues : ∀ window, (f window).queues = window.queues) :
    w.Secluded b (w.modifyWindow y f) where
  registered _ _ _ := id
  waits x h window hwindow := by
    rw [window?_modifyWindow] at hwindow
    split at hwindow
    · obtain ⟨old, hold, rfl⟩ := Option.map_eq_some_iff.mp hwindow
      rw [queues]
      exact h old hold
    · exact h window hwindow

/-- A change of the binding itself, or of another one that is not watched by anybody new. -/
theorem modifyBinding (w : World κ ρ) {f : Binding ρ → Binding ρ}
    (h : c = b ∨ ∀ binding, ∀ x ∈ (f binding).watchers, x ∈ binding.watchers) :
    w.Secluded b (w.modifyBinding c f) where
  registered d hd x := by
    rintro ⟨after, hafter, hx⟩
    rw [binding?_modifyBinding] at hafter
    split at hafter
    · next hcd =>
        obtain ⟨binding, hbinding, rfl⟩ := Option.map_eq_some_iff.mp hafter
        exact ⟨binding, hbinding, h.resolve_left (fun hcb => hd (hcd ▸ hcb)) binding x hx⟩
    · exact ⟨after, hafter, hx⟩
  waits _ := id

instance : Discreet (Secluded (κ := κ) (ρ := ρ) b) where
  madeUp _ _ := of_eq rfl rfl
  recorded _ _ := of_eq rfl rfl
  dropped _ _ := of_eq rfl rfl
  event _ _ := of_eq rfl rfl
  asked w x := modifyWindow w x fun _ => rfl

instance (x : WatcherId) : Recopies (Secluded (κ := κ) (ρ := ρ) b) x where
  copied _ _ := of_eq rfl rfl

instance (x : WatcherId) (value : Scalar ρ) : Amends (Secluded (κ := κ) b) x value where
  amended _ := of_eq rfl rfl

instance : Hands (Secluded (κ := κ) (ρ := ρ) b) where
  handed w x _ := modifyWindow w x fun _ => rfl

theorem assigned (w : World κ ρ) (c : BindingId) (content : Content ρ) :
    w.Secluded b (w.assigned c content) := by
  have hset : w.Secluded b (w.modifyBinding c
      ({ · with content := content, notifying := true, pending := true })) :=
    modifyBinding w (.inr fun _ _ => id)
  exact trans_of (Secluded b) hset (Discreet.recorded _ (.changed c))

theorem inRound (w : World κ ρ) (c : BindingId) : w.Secluded b (w.inRound c) := by
  have hpruned : w.Secluded b (w.modifyBinding c fun binding =>
      { binding.prune w.watcherAlive with pending := false }) :=
    modifyBinding w (.inr fun _ _ hx => (List.mem_filter.mp hx).1)
  refine trans_of (Secluded b) hpruned ?_
  exact of_eq rfl rfl

theorem settled (w : World κ ρ) (c : BindingId) : w.Secluded b (w.settled c) := by
  have hquiet : w.Secluded b (w.modifyBinding c ({ · with notifying := false })) :=
    modifyBinding w (.inr fun _ _ => id)
  exact trans_of (Secluded b) hquiet (Discreet.recorded _ (.settled c))

theorem released (w : World κ ρ) (x : WatcherId) (c : BindingId) :
    w.Secluded b (w.released x c) :=
  of_eq rfl rfl

end Secluded

/-! ## Setting another binding -/

namespace Steady

variable {touched : WatcherId → Prop}

theorem modifyBinding_of_ne (w : World κ ρ) (hne : c ≠ b) (f : Binding ρ → Binding ρ) :
    Steady b touched w (w.modifyBinding c f) := by
  have hbinding : (w.modifyBinding c f).binding? b = w.binding? b := by
    rw [binding?_modifyBinding, if_neg hne]
  exact
    { registered := fun x => by rw [Registered, Registered, hbinding]; exact id
      callbacks := fun _ _ => id
      held := (SameHolders.of_eq rfl rfl fun _ => rfl : w.SameHolders (w.modifyBinding c f)).watcher
      copies := fun _ _ => rfl
      content := by rw [content?, content?, hbinding]
      pending := by rw [flags, flags, hbinding]
      history := ⟨[], (List.append_nil _).symm, List.not_mem_nil⟩ }

theorem assigned_of_ne (w : World κ ρ) (hne : c ≠ b) (content : Content ρ) :
    Steady b touched w (w.assigned c content) :=
  trans_of (Steady b touched) (modifyBinding_of_ne w hne _) (record _ (by simpa using hne))

theorem inRound_of_ne (w : World κ ρ) (hne : c ≠ b) : Steady b touched w (w.inRound c) := by
  let u := w.modifyBinding c fun binding => { binding.prune w.watcherAlive with pending := false }
  have hpruned : Steady b touched w u := modifyBinding_of_ne w hne _
  have hrecorded : Steady b touched u (u.record (.round c (w.listeners c))) := record u (by simp)
  have hawaited : Steady b touched (u.record (.round c (w.listeners c))) (w.inRound c) :=
    .of_eq rfl rfl rfl (.of_eq rfl rfl fun _ => rfl)
  exact trans_of (Steady b touched) (trans_of (Steady b touched) hpruned hrecorded) hawaited

theorem settled_of_ne (w : World κ ρ) (hne : c ≠ b) : Steady b touched w (w.settled c) :=
  trans_of (Steady b touched) (modifyBinding_of_ne w hne _) (record _ (by simp))

/-- A window is handed work of the application, which holds no element. -/
theorem handed (w : World κ ρ) (x : WindowId) (code : κ) :
    Steady b touched w (w.modifyWindow x fun window =>
      { window with tasks := window.tasks ++ [.run code] }) := by
  refine .of_eq rfl rfl rfl (.of_eq rfl (roots_modifyWindow w x fun _ => ?_) fun _ => rfl)
  rw [List.flatMap_append]
  exact List.append_nil _

end Steady

end World

/-! ## Work for later -/

namespace Machine

open World (Steady)

variable {touched : WatcherId → Prop} {code : κ}

theorem enqueue_steady (x : WindowId) :
    Respects (Steady b touched) (enqueue x (.run code) : Machine κ ρ (List (Task κ))) := by
  refine .get_bind fun w => ?_
  split
  · exact .pure _
  · split
    · refine .bind (.modify fun w => .handed w x code) fun _ => ?_
      split
      · exact .bind (invalidate_steady _) fun _ => .pure _
      · exact .pure _
    · exact .pure _

/-- What is handed to a window waits in it, or is to be run at once. -/
theorem enqueue_tasks {x : WindowId} {task : Task κ} {tasks : List (Task κ)}
    (run : enqueue x task w = .ok (tasks, w')) : tasks = [] ∨ tasks = [task] ∧ ¬ w.Waits x := by
  replace run := get_bind_eq_ok.mp run
  cases hwindow : w.window? x with
  | none =>
      simp only [hwindow] at run
      exact .inl (pure_eq_ok.mp run).1.symm
  | some window =>
      simp only [hwindow] at run
      split at run
      · obtain ⟨_, _, -, run⟩ := bind_eq_ok.mp run
        split at run
        · obtain ⟨_, _, -, run⟩ := bind_eq_ok.mp run
          exact .inl (pure_eq_ok.mp run).1.symm
        · exact .inl (pure_eq_ok.mp run).1.symm
      · next hqueues =>
          exact .inr ⟨(pure_eq_ok.mp run).1.symm, fun waits => hqueues (waits window hwindow)⟩

end Machine

end Trellis
