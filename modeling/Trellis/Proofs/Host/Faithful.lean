import Trellis.Proofs.Host.Runs

/-!
# Keeping a ledger changes nothing

A run with the ledger kept goes like the run without it: every part answers the same and leaves the
same state, as long as the host in the ledger is that of the session.

* `Ledger.Synced` — it is.
* `Recorded.Echoes` — a part with the ledger kept goes like a part without it.
* `HostStep.play_retraced` — so do runs, which are told by their chapters.
-/

namespace Trellis

variable {κ ρ α β γ δ : Type}

/-- The host in the ledger is that of the session, but for the numbers of its views. -/
def Ledger.Synced (l : Ledger (View κ) κ (Task κ)) (w : World κ ρ) : Prop :=
  w.session.map (·.host) = some (l.host.map (·.2))

namespace Recorded

/-- Wherever the first part ends, the second one does, too, in the same state and with an answer
that is in the relation. -/
def Echoes (R : α → β → Prop) (p : Machine κ ρ α)
    (q : Recorded (Machine κ ρ) (View κ) κ (Task κ) β) : Prop :=
  ∀ ⦃l w a w'⦄, l.Synced w → p w = .ok (a, w') →
    ∃ b l', q l w = .ok ((b, l'), w') ∧ R a b ∧ l'.Synced w'

namespace Echoes

variable {R : α → β → Prop} {x : WindowId}

theorem pure {a : α} {b : β} (h : R a b) :
    Echoes R (pure a : Machine κ ρ α) (Pure.pure b) := by
  intro l w a' w' synced run
  obtain ⟨rfl, rfl⟩ := Machine.pure_eq_ok.mp run
  exact ⟨b, l, rfl, h, synced⟩

theorem bind {S : γ → δ → Prop} {p : Machine κ ρ α} {f : α → Machine κ ρ γ}
    {q : Recorded (Machine κ ρ) (View κ) κ (Task κ) β}
    {g : β → Recorded (Machine κ ρ) (View κ) κ (Task κ) δ} (h : Echoes R p q)
    (h' : ∀ a b, R a b → Echoes S (f a) (g b)) : Echoes S (p >>= f) (q >>= g) := by
  intro l w c w' synced run
  obtain ⟨a, w₁, hfirst, hrest⟩ := Machine.bind_eq_ok.mp run
  obtain ⟨b, l₁, hfirst', hab, synced⟩ := h synced hfirst
  obtain ⟨d, l', hrest', hcd, synced⟩ := h' a b hab synced hrest
  exact ⟨d, l', bind_eq_ok.mpr ⟨b, l₁, w₁, hfirst', hrest'⟩, hcd, synced⟩

/-- The second part goes on for itself. -/
theorem finish {S : α → γ → Prop} {p : Machine κ ρ α}
    {q : Recorded (Machine κ ρ) (View κ) κ (Task κ) β}
    {g : β → Recorded (Machine κ ρ) (View κ) κ (Task κ) γ} (h : Echoes R p q)
    (h' : ∀ a b, R a b → Echoes S (Pure.pure a) (g b)) : Echoes S p (q >>= g) := by
  rw [← bind_pure p]
  exact bind h h'

/-- Something is written down first. -/
theorem write {p : Machine κ ρ α} {q : Recorded (Machine κ ρ) (View κ) κ (Task κ) β}
    {f : Ledger (View κ) κ (Task κ) → Ledger (View κ) κ (Task κ)}
    (host : ∀ l, (f l).host = l.host) (h : Echoes R p q) :
    Echoes R p (modify f >>= fun _ => q) := by
  intro l w a w' synced run
  have hsynced : (f l).Synced w := by
    rw [Ledger.Synced, host]
    exact synced
  obtain ⟨b, l', hrun, hab, synced⟩ := h hsynced run
  exact ⟨b, l', bind_eq_ok.mpr ⟨(), f l, w, rfl, hrun⟩, hab, synced⟩

theorem lift {p : Machine κ ρ α} (h : ∀ ⦃w a w'⦄, p w = .ok (a, w') →
    w'.session.map (·.host) = w.session.map (·.host)) : Echoes Eq p (liftM p) := by
  intro l w a w' synced run
  exact ⟨a, l, lift_eq_ok.mpr ⟨run, rfl⟩, rfl, (h run).trans synced⟩

theorem watching {p : Machine κ ρ α} (h : Machine.Respects (World.Undisturbed x) p) :
    Echoes Eq p (Recorded.watching (Machine.waiting x) p) := by
  intro l w a w' synced run
  refine ⟨a, l.add (.deferred ((w'.waiting x).drop (w.waiting x).length)), ?_, rfl, ?_⟩
  · have hlook (v : World κ ρ) :
        (liftM (Machine.waiting x : Machine κ ρ (List (Task κ))) :
          Recorded (Machine κ ρ) (View κ) κ (Task κ) (List (Task κ))) l v =
            .ok ((v.waiting x, l), v) := lift_eq_ok.mpr ⟨rfl, rfl⟩
    refine bind_eq_ok.mpr ⟨w.waiting x, l, w, hlook w, ?_⟩
    refine bind_eq_ok.mpr ⟨a, l, w', lift_eq_ok.mpr ⟨run, rfl⟩, ?_⟩
    exact bind_eq_ok.mpr ⟨w'.waiting x, l, w', hlook w', rfl⟩
  · exact ((h run).host).trans synced

/-- A change of the host is made in the ledger, too. -/
theorem change {p : Machine κ ρ Unit} {f : Ledger (View κ) κ (Task κ) → Ledger (View κ) κ (Task κ)}
    (h : ∀ ⦃l w u w'⦄, l.Synced w → p w = .ok (u, w') → (f l).Synced w') (a : α) :
    Echoes Eq (do p; Pure.pure a) (do modify f; p; Pure.pure a) := by
  intro l w a' w' synced run
  obtain ⟨u, w₁, hrun, run⟩ := Machine.bind_eq_ok.mp run
  obtain ⟨rfl, rfl⟩ := Machine.pure_eq_ok.mp run
  refine ⟨a, f l, bind_eq_ok.mpr ⟨(), f l, w, rfl, ?_⟩, rfl, h synced hrun⟩
  exact bind_eq_ok.mpr ⟨u, f l, w₁, lift_eq_ok.mpr ⟨hrun, rfl⟩, rfl⟩

end Echoes

end Recorded

namespace HostStep

open Recorded

variable [Ordered ρ] {s : Setting κ ρ} {x : WindowId} {size : Size Float}

/-! ## The calls of the stage -/

theorem get_echoes : Echoes (fun host ghost => host = ghost.map (·.2))
    (Machine.stage s x size).get (stage s x size).get := by
  intro l w host w' synced run
  replace run := Machine.get_bind_eq_ok.mp run
  obtain ⟨rfl, rfl⟩ := Machine.pure_eq_ok.mp run
  refine ⟨l.host, l, rfl, ?_, synced⟩
  rw [synced]
  rfl

theorem set_echoes (ghost : Host (Nat × View κ) κ) :
    Echoes Eq ((Machine.stage s x size).set (ghost.map (·.2))) ((stage s x size).set ghost) := by
  intro l w u w' synced run
  refine ⟨(), { l with host := ghost }, ?_, rfl, ?_⟩
  · exact bind_eq_ok.mpr ⟨(), { l with host := ghost }, w, rfl, lift_eq_ok.mpr ⟨run, rfl⟩⟩
  · obtain ⟨session, hsession, -⟩ := Option.map_eq_some_iff.mp synced
    rw [← Machine.modify_eq_ok.mp run, Ledger.Synced, hsession]
    rfl

theorem poll_echoes : Echoes Eq (Machine.stage s x size).poll (stage s x size).poll := by
  refine .lift fun w events w' run => ?_
  replace run := Machine.get_bind_eq_ok.mp run
  obtain ⟨u, w₂, writing, run⟩ := Machine.bind_eq_ok.mp run
  obtain ⟨rfl, rfl⟩ := Machine.pure_eq_ok.mp run
  rw [← Machine.modify_eq_ok.mp writing]
  cases w.session <;> rfl

theorem nextTask_echoes :
    Echoes Eq (Machine.stage s x size).nextTask (stage s x size).nextTask := by
  refine .lift fun w next w' run => ?_
  obtain ⟨tasks, w₁, looking, run⟩ := Machine.bind_eq_ok.mp run
  obtain ⟨rfl, rfl⟩ := Machine.waiting_eq_ok.mp looking
  cases hwaiting : w.waiting x with
  | nil =>
      rw [hwaiting] at run
      obtain ⟨rfl, rfl⟩ := Machine.pure_eq_ok.mp run
      rfl
  | cons task rest =>
      rw [hwaiting] at run
      obtain ⟨u, w₂, taking, run⟩ := Machine.bind_eq_ok.mp run
      obtain ⟨rfl, rfl⟩ := Machine.pure_eq_ok.mp run
      rw [← Machine.modify_eq_ok.mp taking]
      rfl

theorem runTask_echoes (task : Task κ) :
    Echoes Eq ((Machine.stage s x size).runTask task) ((stage s x size).runTask task) :=
  .write (fun _ => rfl) (.watching ((Machine.reentry_respects s).task task))

theorem prepare_echoes (view : Nat × View κ) :
    Echoes (fun a b => a = (b.1.2, b.2)) ((Machine.stage s x size).prepare view.2)
      ((stage s x size).prepare view) := by
  refine .finish (.watching (Machine.prepareView_respects s x view.2)) fun after after' h => ?_
  subst h
  exact .write (fun _ => rfl) (.pure rfl)

theorem destroy_echoes (view : Nat × View κ) :
    Echoes Eq ((Machine.stage s x size).destroy view.2) ((stage s x size).destroy view) := by
  refine .finish (.watching (Machine.destroyView_respects s view.2)) fun failure failure' h => ?_
  subst h
  exact .write (fun _ => rfl) (.pure rfl)

theorem handleEvents_echoes (view : Nat × View κ) (events : List Event) :
    Echoes Eq ((Machine.stage s x size).handleEvents view.2 events)
      ((stage s x size).handleEvents view events) :=
  .write (fun _ => rfl) (.watching (Machine.viewEvents_respects s _ view.2))

theorem draw_echoes (view : Nat × View κ) :
    Echoes Eq ((Machine.stage s x size).draw view.2) ((stage s x size).draw view) :=
  .write (fun _ => rfl) (.watching (Machine.viewOps_respects s size view.2))

theorem runOnClose_echoes (code : κ) :
    Echoes Eq ((Machine.stage s x size).runOnClose code) ((stage s x size).runOnClose code) :=
  .write (fun _ => rfl) (.watching (Program.run_respects (Machine.reentry_respects s) _))

/-! ## Frames and closing -/

theorem swap_echoes : Echoes Eq (Machine.stage s x size).swap (stage s x size).swap := by
  refine .bind get_echoes fun host ghost h => ?_
  subst h
  obtain ⟨view, next, prepared, onClose, closed⟩ := ghost
  cases next with
  | none => exact .pure rfl
  | some v =>
      refine .bind (set_echoes { view := none, next := none, prepared, onClose, closed })
        fun _ _ _ => ?_
      have htake : Echoes Eq
          (do
            let host ← (Machine.stage s x size).get
            (Machine.stage s x size).set { host with view := some v.2, prepared := false }
            pure (none : Option ViewError))
          (do
            let host ← (stage s x size).get
            (stage s x size).set { host with view := some v, prepared := false }
            pure none) := by
        refine .bind get_echoes fun host ghost h => ?_
        subst h
        exact .bind (set_echoes { ghost with view := some v, prepared := false })
          fun _ _ _ => .pure rfl
      cases view with
      | none => exact htake
      | some old =>
          refine .bind (destroy_echoes old) fun failure _ h => ?_
          subst h
          cases failure with
          | some e => exact .pure rfl
          | none => exact htake

theorem begin_echoes : Echoes Eq (Machine.stage s x size).begin (stage s x size).begin := by
  refine .bind get_echoes fun host ghost h => ?_
  subst h
  obtain ⟨view, next, prepared, onClose, closed⟩ := ghost
  cases prepared with
  | true => exact .pure rfl
  | false =>
      cases view with
      | none => exact .pure rfl
      | some view =>
          refine .bind (prepare_echoes view) fun after after' h => ?_
          subst h
          refine .bind get_echoes fun host ghost h => ?_
          subst h
          exact .bind
            (set_echoes { ghost with view := some after'.1, prepared := after'.2.isNone })
            fun _ _ _ => .pure rfl

theorem runTasks_echoes (limit : Nat) :
    Echoes Eq ((Machine.stage s x size).runTasks limit) ((stage s x size).runTasks limit) := by
  induction limit with
  | zero =>
      refine .bind nextTask_echoes fun next next' h => ?_
      subst h
      cases next with
      | none => exact .pure rfl
      | some task => exact .lift fun w n w' run => absurd run (Machine.stop_ne_ok (w := w))
  | succ limit ih =>
      refine .bind nextTask_echoes fun next next' h => ?_
      subst h
      cases next with
      | none => exact .pure rfl
      | some task =>
          refine .bind (runTask_echoes task) fun _ _ _ => .bind ih fun n n' h => ?_
          subst h
          exact .pure rfl

theorem frame_echoes : Echoes Eq (Machine.stage s x size).frame (stage s x size).frame := by
  refine .bind get_echoes fun host ghost h => ?_
  subst h
  obtain ⟨view, next, prepared, onClose, closed⟩ := ghost
  cases closed with
  | true => exact .pure rfl
  | false =>
      refine .bind poll_echoes fun events _ h => ?_
      subst h
      refine .bind swap_echoes fun failure _ h => ?_
      subst h
      cases failure with
      | some e => exact .pure rfl
      | none =>
          refine .bind begin_echoes fun failure _ h => ?_
          subst h
          cases failure with
          | some e => exact .pure rfl
          | none =>
              refine .bind get_echoes fun host ghost h => ?_
              subst h
              obtain ⟨view, next, prepared, onClose, closed⟩ := ghost
              cases view with
              | none => exact .pure rfl
              | some view =>
                  refine .bind (runTasks_echoes _) fun _ _ _ => ?_
                  refine .bind (handleEvents_echoes view events) fun _ _ _ => ?_
                  refine .bind (runTasks_echoes _) fun _ _ _ => ?_
                  refine .bind (draw_echoes view) fun ops _ h => ?_
                  subst h
                  exact .pure rfl

theorem close_echoes : Echoes Eq (Machine.stage s x size).close (stage s x size).close := by
  refine .bind get_echoes fun host ghost h => ?_
  subst h
  obtain ⟨view, next, prepared, onClose, closed⟩ := ghost
  cases closed with
  | true => exact .pure rfl
  | false =>
      refine .bind (set_echoes { view, next := none, prepared, onClose, closed := true })
        fun _ _ _ => ?_
      have hrest (failure : Option ViewError) : Echoes Eq
          (do
            let host ← (Machine.stage s x size).get
            (Machine.stage s x size).set { host with view := none, onClose := none }
            host.onClose.forM (Machine.stage s x size).runOnClose
            return failure)
          (do
            let host ← (stage s x size).get
            (stage s x size).set { host with view := none, onClose := none }
            host.onClose.forM (stage s x size).runOnClose
            return failure) := by
        refine .bind get_echoes fun host ghost h => ?_
        subst h
        refine .bind (set_echoes { ghost with view := none, onClose := none }) fun _ _ _ => ?_
        obtain ⟨view, next, prepared, onClose, closed⟩ := ghost
        cases onClose with
        | none => exact .pure rfl
        | some code => exact .bind (runOnClose_echoes code) fun _ _ _ => .pure rfl
      cases view with
      | none => exact .bind (.pure rfl) fun failure _ h => h ▸ hrest failure
      | some old => exact .bind (destroy_echoes old) fun failure _ h => h ▸ hrest failure

/-! ## Runs -/

theorem record_echoes (step : HostStep κ ρ) : Echoes Eq (take s x step) (record s x step) := by
  cases step with
  | setView view =>
      refine .change (fun l w u w' synced run => ?_) _
      obtain ⟨session, hsession, hhost⟩ := Option.map_eq_some_iff.mp synced
      obtain ⟨u, w₁, setting, run⟩ := Machine.bind_eq_ok.mp run
      have asking := Machine.get_bind_eq_ok.mp run
      have hkept : w₁.Undisturbed x w' := Machine.invalidate_respects _ asking
      rw [Ledger.Synced, hkept.host, ← Machine.modify_eq_ok.mp setting, hsession]
      show some (session.host.setView view) = _
      rw [hhost]
      rfl
  | onClose code =>
      refine .change (fun l w u w' synced run => ?_) _
      obtain ⟨session, hsession, hhost⟩ := Option.map_eq_some_iff.mp synced
      rw [← Machine.modify_eq_ok.mp run, Ledger.Synced, hsession]
      show some { session.host with onClose := some code } = _
      rw [hhost]
      rfl
  | act program =>
      refine .bind (.watching (program.run_respects (Machine.reentry_respects s))) fun _ _ _ => ?_
      exact .pure rfl
  | frame size =>
      refine .bind frame_echoes fun outcome _ h => ?_
      subst h
      exact .pure rfl
  | close =>
      refine .bind close_echoes fun failure _ h => ?_
      subst h
      exact .pure rfl
  | drop => exact .bind close_echoes fun _ _ _ => .pure rfl

theorem chapter_echoes (step : HostStep κ ρ) :
    Echoes (fun answer chapter => chapter.answer = answer) (take s x step) (chapter s x step) := by
  intro l w answer w' synced run
  obtain ⟨answer', l', hrecord, rfl, synced⟩ := record_echoes step synced run
  exact ⟨_, l', bind_eq_ok.mpr ⟨l, l, w, rfl, bind_eq_ok.mpr ⟨answer, l', w', hrecord, rfl⟩⟩, rfl,
    synced⟩

/-- The induction is on the steps. -/
theorem chronicle_echoes (steps : List (HostStep κ ρ)) :
    Echoes (fun answers chapters => chapters.map (·.answer) = answers) (takeAll s x steps)
      (chronicle s x steps) := by
  induction steps with
  | nil => exact .pure rfl
  | cons step steps ih =>
      rw [takeAll, chronicle, List.mapM_cons, List.mapM_cons]
      refine .bind (chapter_echoes step) fun answer chapter h => ?_
      refine .bind ih fun answers chapters h' => ?_
      exact .pure (by rw [List.map_cons, h, h'])

omit [Ordered ρ] in
/-- A host starts with an empty ledger, in a window of its own where no task waits. -/
theorem openHost_run (config : Config) (w : World κ ρ) :
    ∃ w', Machine.openHost config w = .ok (⟨w.windows.size⟩, w') ∧
      Ledger.Synced {} w' ∧ w'.waiting ⟨w.windows.size⟩ = [] ∧ w'.Queues ⟨w.windows.size⟩ := by
  refine ⟨_, rfl, rfl, ?_, ?_⟩
  · show ((w.windows.push _)[w.windows.size]?.map _).getD [] = []
    rw [Array.getElem?_push_size]
    rfl
  · show (w.windows.push _)[w.windows.size]?.map _ = some true
    rw [Array.getElem?_push_size]
    rfl

/-- With the ledger kept, a run goes the same, and what is written down is a run of steps each of
which comes out in one of the ways there are. -/
theorem play_retraced {config : Config} {steps : List (HostStep κ ρ)} {w w' : World κ ρ}
    {answers : List HostAnswer} (run : play s config steps w = .ok (answers, w')) :
    ∃ chapters l, retrace s config steps w = .ok (chapters, w') ∧
      chapters.map (·.step) = steps ∧ chapters.map (·.answer) = answers ∧
      Ledger.Runs {} chapters l ∧ l.Tallies ⟨w.windows.size⟩ w' ∧ l.Synced w' := by
  obtain ⟨w₀, hopen, synced, waiting, queues⟩ := openHost_run config w
  obtain ⟨x, v, opening, run⟩ := Machine.bind_eq_ok.mp run
  obtain ⟨rfl, rfl⟩ : (⟨w.windows.size⟩ : WindowId) = x ∧ w₀ = v := by
    rw [hopen] at opening
    cases opening
    exact ⟨rfl, rfl⟩
  obtain ⟨chapters, l, hchronicle, hanswers, synced'⟩ := chronicle_echoes steps synced run
  have tally : Ledger.Tallies ({} : Ledger (View κ) κ (Task κ)) ⟨w.windows.size⟩ w₀ :=
    ⟨waiting.symm, queues⟩
  obtain ⟨hsteps, hruns, htally⟩ := chronicle_runs hchronicle tally
  refine ⟨chapters, l, ?_, hsteps, hanswers, hruns, htally, synced'⟩
  refine Machine.bind_eq_ok.mpr ⟨_, w₀, hopen, ?_⟩
  exact Machine.bind_eq_ok.mpr ⟨(chapters, l), w', hchronicle, rfl⟩

end HostStep

end Trellis
