import Trellis.Proofs.Frame.Offers
import Trellis.Proofs.Mirror.Avoids
import Trellis.Proofs.Mirror.Rebinding

/-!
# Acts and the ties of a widget

Of all that is done in a frame, only an update that binds the widget ties it to another binding, and
only a call of its mirror or its own report touch the copy. Acts that are no duties of a callback
begin no rounds, but for reports.

* `Act.perform_quiet` — an act that is neither a duty nor a report.
* `Act.perform_avoids`, `Act.perform_tied` — what any act keeps.
-/

namespace Trellis

open Machine

variable {κ ρ α : Type} [Ordered ρ] {e : ElementId} {x : WatcherId} {touched bound : Prop}
  {kind : Scalar.Kind} {w w' : World κ ρ} {app : App κ ρ} {ctx : EventContext} {y : WindowId}

/-! ## The ties -/

theorem Program.advance_tied {program : Program κ ρ Unit} (h : program.Avoids x) :
    Respects (World.Tied e x touched bound) program.advance := by
  cases program with
  | done answer => exact .pure _
  | note line next => exact .bind (note_tied line) fun _ => .pure _
  | watch z b next => exact .bind (watch_tied (fun heq => absurd heq h.1) b) fun _ => .pure _
  | unwatch z b next => exact .bind (unwatch_tied (fun heq => absurd heq h.1) b) fun _ => .pure _
  | drop z next => exact .bind (drop_tied h.1) fun _ => .pure _
  | keeps z next => exact .get_bind fun _ => .pure _
  | attach z b next => exact .bind (attach_tied (fun heq => absurd heq h.1) b) fun _ => .pure _
  | edit z value next => exact .bind (editMirror_tied z value) fun _ => .pure _
  | invalidate window next => exact .bind (invalidate_tied _) fun _ => .pure _
  | send event next => exact .bind (send_tied event) fun _ => .pure _
  | read b next => exact .get_bind fun _ => .pure _
  | title window next => exact .get_bind fun _ => .pure _
  | find id next => exact .get_bind fun _ => .pure _
  | handle element k next => exact .bind (handle?_tied element k) fun _ => .pure _
  | tryLock handle next => exact .bind (canLock_tied handle) fun _ => .pure _
  | set b content next => exact .bind (assign_tied b content) fun _ => .pure _
  | writeBack z b next =>
      exact .bind (assignEdit_tied (fun heq => absurd heq h.1) b) fun _ => .pure _
  | defer window code next => exact .bind (enqueue_tied window _) fun _ => .pure _
  | update handle call reply next => exact .bind (handIn_tied handle call reply) fun _ => .pure _

/-- A watcher that is not held any more is no longer registered when a round begins. -/
theorem Duty.discharge_tied {duty : Duty κ ρ} {left : List (Duty κ ρ)}
    (own : ∀ d, w.follower? d = some x → d = e)
    (held : ∀ b, duty = .rounds b [] → w.watcherHeld x = true) (h : duty.Avoids x)
    (touches : ∀ b rest, duty = .rounds b (x :: rest) → touched)
    (binds : ∀ k target reply, duty = .task (.edit e k (.bind target) reply) → touched ∧ bound)
    (run : duty.discharge app w = .ok (left, w')) : w.Tied e x touched bound w' := by
  cases duty with
  | run program => exact Program.advance_tied h run
  | rounds b watchers =>
      cases watchers with
      | nil =>
          replace run := get_bind_eq_ok.mp run
          split at run
          · obtain ⟨watchers, v, hbegin, run⟩ := bind_eq_ok.mp run
            obtain ⟨-, rfl⟩ := pure_eq_ok.mp run
            exact beginRound_tied (held b rfl) hbegin
          · exact (Respects.bind (settle_tied b) fun _ => .pure _) run
      | cons z rest =>
          have hz (heq : z = x) : touched := touches b rest (by rw [heq])
          exact (Respects.bind (call_tied app hz b) fun _ => .pure _) run
  | release z b rest => exact (Respects.bind (release_tied z b) fun _ => .pure _) run
  | task task =>
      cases task with
      | run code => exact (Respects.pure _) run
      | edit d k call reply =>
          obtain ⟨_, u, hlock, run⟩ := bind_eq_ok.mp run
          obtain ⟨program, v, hedit, run⟩ := bind_eq_ok.mp run
          obtain ⟨-, rfl⟩ := pure_eq_ok.mp run
          have hlocked : w.Tied e x touched bound u := lock_tied d hlock
          have hown (hd : u.follower? d = some x) : d = e := by
            rw [hlocked.follower] at hd
            exact own d hd
          have hbinds (target : Option BindingId) (hcall : call = .bind target) (hd : d = e) :
              touched ∧ bound := binds k target reply (by rw [hcall, hd])
          exact trans_of _ hlocked (edit_tied app hown hbinds hedit)
  | unlock d => exact (Respects.bind (unlock_tied d) fun _ => .pure _) run

/-- Nothing is told of, and a widget and its mirror stay as they are. -/
structure World.Quiet (e : ElementId) (x : WatcherId) (w w' : World κ ρ) : Prop where
  tied : w.Tied e x False False w'
  still : w.Still w'

instance : IsPreorder (World κ ρ) (World.Quiet e x) where
  refl w := ⟨refl_of _ w, refl_of _ w⟩
  trans _ _ _ h h' := ⟨trans_of _ h.tied h'.tied, trans_of _ h.still h'.still⟩

open World (Quiet)

namespace Machine

omit [Ordered ρ] in
theorem quiet_of {m : Machine κ ρ α} (tied : Respects (World.Tied e x False False) m)
    (still : Respects World.Still m) : Respects (Quiet e x) m :=
  fun _ _ _ run => ⟨tied run, still run⟩

omit [Ordered ρ] in
instance : World.Handled (Quiet (κ := κ) (ρ := ρ) e x) where
  asked window := quiet_of (invalidate_tied window) (invalidate_still window)
  rebodied w _ _ kind :=
    { tied := .modifyElement w fun el hel => ⟨rfl, kind el hel, fun _ _ => rfl⟩
      still := .of_eq rfl rfl rfl }

omit [Ordered ρ] in
instance (d : ElementId) : World.Shows (Quiet (κ := κ) (ρ := ρ) e x) d where
  shown value := quiet_of (setValue_tied d value) (setValue_still d value)

omit [Ordered ρ] in
/-- What elements leave to do calls no watcher, and names none. -/
theorem offered_plain (happ : app.Avoids x) : Act.Offered app ctx (Act.Plain x) where
  visit _ _ := trivial
  enter _ _ _ _ := trivial
  report _ := trivial
  handler code id := ⟨happ.handler code ctx id, rfl⟩
  itemHandler code i b := ⟨happ.itemHandler code ctx i b, rfl⟩

omit [Ordered ρ] in
theorem nextTask_quiet (y : WindowId) :
    Respects (Quiet e x) (nextTask y : Machine κ ρ (Option (Task κ))) := by
  refine .bind (.get_bind fun _ => .pure _) fun tasks => ?_
  split
  · exact .pure _
  · exact .bind (quiet_of (.modify fun _ => .of_eq rfl rfl rfl)
      (.modify fun _ => .of_eq rfl rfl rfl)) fun _ => .pure _

end Machine

/-- An act that is neither a duty nor a report. -/
theorem Act.perform_quiet (happ : app.Avoids x) {act : Act κ ρ} (duty : ∀ d, act ≠ .duty d)
    (report : ∀ d, act ≠ .report d) :
    Answers (World.Quiet e x) (PlainActs x) (act.perform app ctx y) := by
  cases act with
  | duty d => exact absurd rfl (duty d)
  | tree d => exact .get_bind fun _ => .pure (List.forall_mem_singleton.mpr trivial)
  | visit depth d =>
      cases depth with
      | zero => exact .stop _
      | succ depth =>
          refine .bind (quiet_of (lock_tied d) (lock_still d)) fun _ =>
            .andThen (elementActs_answers (offered_plain happ) depth d) fun acts h => .pure ?_
          exact List.forall_mem_append.mpr ⟨h, List.forall_mem_singleton.mpr ⟨trivial, rfl⟩⟩
  | enter d id input edited =>
      refine .get_bind fun _ => .pure (List.forall_mem_singleton.mpr ?_)
      exact ⟨Program.entering_avoids happ _ _ _ _ _ _, rfl⟩
  | report d => exact absurd rfl (report d)
  | work limit =>
      refine .bind (nextTask_quiet y) fun next => ?_
      split
      · exact .pure (List.forall_mem_nil _)
      · exact .stop _
      · exact .pure (List.forall_mem_cons.mpr
          ⟨⟨trivial, rfl⟩, List.forall_mem_singleton.mpr trivial⟩)
/-! ## Any act -/

/-- The act calls the mirror, or has the element report its value. -/
def Act.Touches (e : ElementId) (x : WatcherId) (act : Act κ ρ) : Prop :=
  (∃ b rest, act = .duty (.rounds b (x :: rest))) ∨ act = .report e

/-- The act is an update that binds the element. -/
def Act.Binds (e : ElementId) (act : Act κ ρ) : Prop :=
  ∃ k target reply, act = .duty (.task (.edit e k (.bind target) reply))

namespace Act

variable {act : Act κ ρ} {left : List (Act κ ρ)}

/-- A report writes back the mirror of an element that follows a binding, or does nothing. -/
theorem report_outcome {d : ElementId} (run : (Act.report d).perform app ctx y w = .ok (left, w')) :
    (left = [] ∧ w' = w) ∨ ∃ z b changed rounds, w.follower? d = some z ∧ w.followed? d = some b ∧
      left = rounds.map .duty ∧ assignEdit z b w = .ok ((changed, rounds), w') := by
  obtain ⟨rounds, v, hreport, run⟩ := bind_eq_ok.mp run
  obtain ⟨rfl, rfl⟩ := pure_eq_ok.mp run
  replace hreport := get_bind_eq_ok.mp hreport
  cases helement : w.element? d with
  | none =>
      simp only [helement] at hreport
      obtain ⟨rfl, rfl⟩ := pure_eq_ok.mp hreport
      exact .inl ⟨rfl, rfl⟩
  | some element =>
      cases hfollower : element.follower with
      | none =>
          simp only [helement, hfollower] at hreport
          obtain ⟨rfl, rfl⟩ := pure_eq_ok.mp hreport
          exact .inl ⟨rfl, rfl⟩
      | some z =>
          cases hbinding : element.binding with
          | none =>
              simp only [helement, hfollower, hbinding] at hreport
              obtain ⟨rfl, rfl⟩ := pure_eq_ok.mp hreport
              exact .inl ⟨rfl, rfl⟩
          | some b =>
              simp only [helement, hfollower, hbinding] at hreport
              obtain ⟨⟨changed, duties⟩, u, hassign, hreport⟩ := bind_eq_ok.mp hreport
              obtain ⟨rfl, rfl⟩ := pure_eq_ok.mp hreport
              refine .inr ⟨z, b, changed, duties, ?_, ?_, rfl, hassign⟩
              · rw [World.follower?, helement]
                exact hfollower
              · rw [World.followed?, helement]
                exact hbinding

theorem perform_avoids (happ : app.Avoids x) (h : act.Avoids x)
    (run : act.perform app ctx y w = .ok (left, w')) : ∀ a ∈ left, a.Avoids x := by
  have hduties {duties : List (Duty κ ρ)} (hd : ∀ d ∈ duties, d.Avoids x) :
      ∀ a ∈ duties.map Act.duty, a.Avoids x := List.forall_mem_map.mpr hd
  by_cases hduty : ∃ d, act = .duty d
  · obtain ⟨d, rfl⟩ := hduty
    obtain ⟨duties, v, hdischarge, run⟩ := bind_eq_ok.mp run
    obtain ⟨rfl, rfl⟩ := pure_eq_ok.mp run
    exact hduties (Duty.discharge_avoids happ h hdischarge)
  · by_cases hreport : ∃ d, act = .report d
    · obtain ⟨d, rfl⟩ := hreport
      rcases report_outcome run with ⟨rfl, -⟩ | ⟨z, b, changed, rounds, -, -, rfl, hassign⟩
      · exact List.forall_mem_nil _
      · exact hduties (assignEdit_avoids z b hassign)
    · intro a ha
      exact ((perform_quiet (e := ⟨0⟩) happ (not_exists.mp hduty) (not_exists.mp hreport) run).2 a
        ha).avoids

theorem perform_tied (happ : app.Avoids x) (widget : w.Widget e x kind)
    (held : w.watcherHeld x = true) (h : act.Avoids x)
    (run : act.perform app ctx y w = .ok (left, w')) :
    w.Tied e x (act.Touches e x ∨ act.Binds e) (act.Binds e) w' := by
  by_cases hduty : ∃ d, act = .duty d
  · obtain ⟨d, rfl⟩ := hduty
    obtain ⟨duties, v, hdischarge, run⟩ := bind_eq_ok.mp run
    obtain ⟨rfl, rfl⟩ := pure_eq_ok.mp run
    refine Duty.discharge_tied (fun d => (widget.follower d).mp) (fun _ _ => held) h
      (fun b rest hd => ?_) (fun k target reply hd => ?_) hdischarge
    · exact .inl (.inl ⟨b, rest, congrArg Act.duty hd⟩)
    · have hbinds : (Act.duty d).Binds e := ⟨k, target, reply, congrArg Act.duty hd⟩
      exact ⟨.inr hbinds, hbinds⟩
  · by_cases hreport : ∃ d, act = .report d
    · obtain ⟨d, rfl⟩ := hreport
      rcases report_outcome run with ⟨-, rfl⟩ | ⟨z, b, changed, rounds, hfollower, -, -, hassign⟩
      · exact refl_of _ w'
      · refine assignEdit_tied (fun hz => .inl (.inr ?_)) b hassign
        rw [(widget.follower d).mp (hz ▸ hfollower)]
    · have hquiet := (perform_quiet (e := e) happ (not_exists.mp hduty) (not_exists.mp hreport)
        run).1.tied
      exact { hquiet with
        followed := fun _ => hquiet.followed id
        copy := fun _ => hquiet.copy id
        registered := fun _ => hquiet.registered id }

end Act

end Trellis
