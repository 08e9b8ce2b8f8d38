import Trellis.Proofs.Notification.Agenda

/-!
# What one step can do

A step of a run either tells nobody, or does one of a few things to the rounds of one binding.

* `Duty.Effect` — these few things.
* `Duty.effect_of_discharge` — there is nothing else that a step can do.
-/

namespace Trellis

open Machine

variable {κ ρ : Type} [Ordered ρ] {app : App κ ρ} {w w' : World κ ρ}

namespace World

/-- The state after a binding took on a content that differs. -/
def assigned (w : World κ ρ) (b : BindingId) (content : Content ρ) : World κ ρ :=
  (w.modifyBinding b ({ · with content := content, notifying := true, pending := true })).record
    (.changed b)

/-- The state after a round of a binding began. -/
def inRound (w : World κ ρ) (b : BindingId) : World κ ρ :=
  { (w.modifyBinding b fun binding =>
      { binding.prune w.watcherAlive with pending := false }).record (.round b (w.listeners b)) with
    awaiting := w.listeners b ++ w.awaiting }

/-- The state after the rounds of a binding ended. -/
def settled (w : World κ ρ) (b : BindingId) : World κ ρ :=
  (w.modifyBinding b ({ · with notifying := false })).record (.settled b)

/-- The state after the call of a watcher ended. -/
def released (w : World κ ρ) (x : WatcherId) (b : BindingId) : World κ ρ :=
  { w.record (.returned x b) with awaiting := w.awaiting.erase x }

end World

/-- The binding whose rounds a duty belongs to. -/
def Duty.binding? : Duty κ ρ → Option BindingId
  | .rounds b _ | .release _ b _ => some b
  | _ => none

/-- What discharging a duty does to the state, and what it leaves to do. -/
inductive Duty.Effect : Duty κ ρ → World κ ρ → List (Duty κ ρ) → World κ ρ → Prop
  /-- A step that tells nobody. -/
  | still {duty : Duty κ ρ} {left : List (Duty κ ρ)} {w w' : World κ ρ}
      (duty_binding : duty.binding? = none) (left_binding : ∀ d ∈ left, d.binding? = none)
      (still : w.Still w') : Effect duty w left w'
  /-- A binding is set that nobody is being told of. -/
  | opens {duty : Duty κ ρ} {program : Program κ ρ Unit} {b : BindingId} {content : Content ρ}
      {binding : Binding ρ} {w u : World κ ρ} (duty_binding : duty.binding? = none)
      (still : w.Still u) (found : u.binding? b = some binding)
      (quiet : binding.notifying = false) :
      Effect duty w [.rounds b [], .run program] (u.assigned b content)
  /-- A binding is set while its watchers are being told. -/
  | postpones {duty : Duty κ ρ} {program : Program κ ρ Unit} {b : BindingId} {content : Content ρ}
      {binding : Binding ρ} {w u : World κ ρ} (duty_binding : duty.binding? = none)
      (still : w.Still u) (found : u.binding? b = some binding)
      (busy : binding.notifying = true) : Effect duty w [.run program] (u.assigned b content)
  | begins {b : BindingId} {w : World κ ρ}
      (pending : ((w.binding? b).map (·.pending)).getD false = true) :
      Effect (.rounds b []) w [.rounds b (w.listeners b)] (w.inRound b)
  | settles {b : BindingId} {w : World κ ρ}
      (done : ((w.binding? b).map (·.pending)).getD false = false) :
      Effect (.rounds b []) w [] (w.settled b)
  | calls {x : WatcherId} {b : BindingId} {rest : List WatcherId} {program : Program κ ρ Unit}
      {w w' : World κ ρ} (still : (w.record (.called x b)).Still w') :
      Effect (.rounds b (x :: rest)) w [.run program, .release x b rest] w'
  | releases {x : WatcherId} {b : BindingId} {rest : List WatcherId} {w : World κ ρ} :
      Effect (.release x b rest) w [.rounds b rest] (w.released x b)

/-! ## What the parts do -/

namespace Machine

/-- A binding is left alone only by a content of another shape or one that does not differ. -/
theorem store_eq_ok {b : BindingId} {content : Content ρ} {changed : Bool}
    (h : store b content w = .ok (changed, w')) :
    (changed = false ∧ w' = w ∧ ∀ binding, w.binding? b = some binding →
      ¬ (binding.content.shape = content.shape ∧ binding.content.differs content = true)) ∨
      changed = true ∧ ∃ binding, w.binding? b = some binding ∧
        binding.content.differs content = true ∧
        w' = (w.modifyBinding b ({ · with content := content })).record (.changed b) := by
  replace h := get_bind_eq_ok.mp h
  cases hbinding : w.binding? b with
  | none =>
      rw [hbinding] at h
      obtain ⟨rfl, rfl⟩ := pure_eq_ok.mp h
      exact .inl ⟨rfl, rfl, fun _ hnone => nomatch hnone⟩
  | some binding =>
      simp only [hbinding] at h
      by_cases hdiffers :
          binding.content.shape = content.shape ∧ binding.content.differs content
      · rw [if_pos hdiffers] at h
        obtain ⟨_, v, hmodify, h⟩ := bind_eq_ok.mp h
        obtain ⟨rfl, rfl⟩ := pure_eq_ok.mp h
        exact .inr ⟨rfl, binding, rfl, hdiffers.2, (modify_eq_ok.mp hmodify).symm⟩
      · rw [if_neg hdiffers] at h
        obtain ⟨rfl, rfl⟩ := pure_eq_ok.mp h
        refine .inl ⟨rfl, rfl, fun old hold => ?_⟩
        rw [← Option.some.inj hold]
        exact hdiffers

omit [Ordered ρ] in
theorem announce_eq_ok {b : BindingId} {begins : Bool} {binding : Binding ρ}
    (found : w.binding? b = some binding) (h : announce b w = .ok (begins, w')) :
    begins = !binding.notifying ∧
      w' = w.modifyBinding b ({ · with notifying := true, pending := true }) := by
  obtain ⟨_, u, hpending, h⟩ := bind_eq_ok.mp h
  replace h := get_bind_eq_ok.mp h
  rw [modify_eq_ok] at hpending
  subst hpending
  rw [World.binding?_modifyBinding_self, found] at h
  cases hbusy : binding.notifying with
  | true =>
      rw [if_pos (by simp [hbusy])] at h
      obtain ⟨rfl, rfl⟩ := pure_eq_ok.mp h
      refine ⟨rfl, World.modifyBinding_congr w b fun x hx => ?_⟩
      rw [found, Option.some.injEq] at hx
      subst hx
      rw [← hbusy]
  | false =>
      rw [if_neg (by simp [hbusy])] at h
      obtain ⟨_, v, hmodify, h⟩ := bind_eq_ok.mp h
      obtain ⟨rfl, rfl⟩ := pure_eq_ok.mp h
      rw [modify_eq_ok, World.modifyBinding_modifyBinding] at hmodify
      exact ⟨rfl, hmodify.symm⟩

/-- Setting a binding either does nothing or stores the content; rounds begin if none are under
way. -/
theorem assign_eq_ok {b : BindingId} {content : Content ρ} {changed : Bool}
    {left : List (Duty κ ρ)} (h : assign b content w = .ok ((changed, left), w')) :
    (changed = false ∧ left = [] ∧ w' = w ∧ ∀ binding, w.binding? b = some binding →
      ¬ (binding.content.shape = content.shape ∧ binding.content.differs content = true)) ∨
      ∃ binding, w.binding? b = some binding ∧ binding.content.differs content = true ∧
        changed = true ∧ left = (if binding.notifying then [] else [.rounds b []]) ∧ w' = w.assigned b content := by
  obtain ⟨stored, u, hstore, hthen⟩ := bind_eq_ok.mp h
  rcases store_eq_ok hstore with ⟨rfl, rfl, hsame⟩ | ⟨rfl, binding, hbinding, hdiffers, rfl⟩
  · obtain ⟨heq, rfl⟩ := pure_eq_ok.mp hthen
    cases heq
    exact .inl ⟨rfl, rfl, rfl, hsame⟩
  · obtain ⟨begins, v, hannounce, hanswer⟩ := bind_eq_ok.mp hthen
    have hfound : ((w.modifyBinding b ({ · with content := content })).record
        (.changed b)).binding? b = some { binding with content := content } := by
      rw [World.binding?_record, World.binding?_modifyBinding_self, hbinding]
      rfl
    -- Storing and announcing together are one change of the binding.
    obtain ⟨hbegins, hv⟩ := announce_eq_ok hfound hannounce
    have hassigned : v = w.assigned b content := by
      rw [hv, World.modifyBinding_record, World.modifyBinding_modifyBinding]
      rfl
    refine .inr ⟨binding, hbinding, hdiffers, ?_⟩
    cases hbusy : binding.notifying with
    | true =>
        rw [show begins = false by simp [hbegins, hbusy]] at hanswer
        obtain ⟨heq, rfl⟩ := pure_eq_ok.mp hanswer
        cases heq
        exact ⟨rfl, rfl, hassigned⟩
    | false =>
        rw [show begins = true by simp [hbegins, hbusy]] at hanswer
        obtain ⟨heq, rfl⟩ := pure_eq_ok.mp hanswer
        cases heq
        exact ⟨rfl, rfl, hassigned⟩

omit [Ordered ρ] in
theorem beginRound_eq_ok {b : BindingId} {watchers : List WatcherId}
    (h : beginRound b w = .ok (watchers, w')) :
    watchers = w.listeners b ∧ w' = w.inRound b := by
  replace h := get_bind_eq_ok.mp h
  obtain ⟨_, u, hprune, h⟩ := bind_eq_ok.mp h
  obtain ⟨_, v, hrecord, h⟩ := bind_eq_ok.mp h
  obtain ⟨rfl, rfl⟩ := pure_eq_ok.mp h
  rw [modify_eq_ok] at hprune hrecord
  subst hprune
  exact ⟨rfl, hrecord.symm⟩

omit [Ordered ρ] in
/-- Calling a watcher is recorded first; what else it does tells nobody. -/
theorem call_eq_ok {x : WatcherId} {b : BindingId} {program : Program κ ρ Unit}
    (h : call app x b w = .ok (program, w')) : (w.record (.called x b)).Still w' := by
  obtain ⟨_, u, hrecord, h⟩ := bind_eq_ok.mp h
  rw [modify_eq_ok] at hrecord
  subst hrecord
  -- What follows the record looks at the watcher only.
  refine (?_ : Respects World.Still _) h
  refine .get_bind fun v => ?_
  split
  · exact .pure _
  · split
    · split
      · exact .bind (takeOver_still x b) fun _ => .bind (invalidate_still _) fun _ => .pure _
      · exact .pure _
    · exact .bind (invalidate_still _) fun _ => .pure _
    · exact .pure _

end Machine

/-! ## What a step does -/

namespace Duty.Effect

omit [Ordered ρ] in
/-- A part that tells nobody, and what is left after it. -/
theorem of_still {α : Type} {duty : Duty κ ρ} {m : Machine κ ρ α} {f : α → List (Duty κ ρ)}
    {left : List (Duty κ ρ)} (hm : Respects World.Still m) (hduty : duty.binding? = none)
    (hleft : ∀ a, ∀ d ∈ f a, d.binding? = none)
    (h : (do pure (f (← m)) : Machine κ ρ _) w = .ok (left, w')) : Effect duty w left w' := by
  obtain ⟨a, v, hfirst, h⟩ := bind_eq_ok.mp h
  obtain ⟨rfl, rfl⟩ := pure_eq_ok.mp h
  exact .still hduty (hleft a) (hm hfirst)

omit [Ordered ρ] in
theorem binding?_run (program : Program κ ρ Unit) :
    ∀ d ∈ [Duty.run program], d.binding? = none := by
  simp [Duty.binding?]

omit [Ordered ρ] in
theorem binding?_tasks (tasks : List (Task κ)) (program : Program κ ρ Unit) :
    ∀ d ∈ tasks.map Duty.task ++ [.run program], d.binding? = none := by
  intro d hd
  rcases List.mem_append.mp hd with hd | hd
  · obtain ⟨task, -, rfl⟩ := List.mem_map.mp hd
    rfl
  · exact binding?_run program d hd

/-- Setting a binding, and what is left after it. -/
theorem of_assign {duty : Duty κ ρ} {next : Bool → Program κ ρ Unit} {b : BindingId}
    {content : Content ρ} {changed : Bool} {rounds : List (Duty κ ρ)} {u : World κ ρ}
    (hduty : duty.binding? = none) (still : w.Still u)
    (h : assign b content u = .ok ((changed, rounds), w')) :
    Effect duty w (rounds ++ [.run (next changed)]) w' := by
  rcases assign_eq_ok h with ⟨rfl, rfl, rfl, -⟩ | ⟨binding, hfound, -, rfl, rfl, rfl⟩
  · exact .still hduty (binding?_run _) still
  · cases hbusy : binding.notifying with
    | true => exact .postpones hduty still hfound hbusy
    | false => exact .opens hduty still hfound hbusy

theorem of_advance {program : Program κ ρ Unit} {left : List (Duty κ ρ)}
    (h : program.advance w = .ok (left, w')) : Effect (.run program) w left w' := by
  cases program with
  | done answer =>
      obtain ⟨rfl, rfl⟩ := pure_eq_ok.mp h
      exact .still rfl (by simp) (refl_of World.Still w)
  | note line next => exact of_still (note_still line) rfl (fun _ => binding?_run _) h
  | watch x b next => exact of_still (watch_still x b) rfl (fun _ => binding?_run _) h
  | unwatch x b next => exact of_still (unwatch_still x b) rfl (fun _ => binding?_run _) h
  | drop x next => exact of_still (drop_still x) rfl (fun _ => binding?_run _) h
  | keeps x next => exact of_still .get rfl (fun _ => binding?_run _) h
  | attach m b next => exact of_still (attach_still m b) rfl (fun _ => binding?_run _) h
  | edit m value next => exact of_still (editMirror_still m value) rfl (fun _ => binding?_run _) h
  | invalidate window next =>
      exact of_still (invalidate_still (some window)) rfl (fun _ => binding?_run _) h
  | send event next => exact of_still (send_still event) rfl (fun _ => binding?_run _) h
  | read b next => exact of_still .get rfl (fun _ => binding?_run _) h
  | title window next => exact of_still .get rfl (fun _ => binding?_run _) h
  | find id next => exact of_still .get rfl (fun _ => binding?_run _) h
  | handle e kind next => exact of_still (handle?_still e kind) rfl (fun _ => binding?_run _) h
  | tryLock handle next => exact of_still (canLock_still handle) rfl (fun _ => binding?_run _) h
  | defer window code next =>
      exact of_still (enqueue_still window _) rfl (fun tasks => binding?_tasks tasks next) h
  | update handle call reply next =>
      exact of_still (handIn_still handle call reply) rfl (fun tasks => binding?_tasks tasks next) h
  | set b content next =>
      obtain ⟨⟨changed, rounds⟩, v, hassign, h⟩ := bind_eq_ok.mp h
      obtain ⟨rfl, rfl⟩ := pure_eq_ok.mp h
      exact of_assign rfl (refl_of World.Still w) hassign
  | writeBack m b next =>
      obtain ⟨⟨changed, rounds⟩, v, hedit, h⟩ := bind_eq_ok.mp h
      obtain ⟨rfl, rfl⟩ := pure_eq_ok.mp h
      obtain ⟨taken, u, htake, hassign⟩ := bind_eq_ok.mp hedit
      have hstill := takeEdit_still m htake
      cases taken with
      | none =>
          obtain ⟨heq, rfl⟩ := pure_eq_ok.mp hassign
          cases heq
          exact .still rfl (binding?_run _) hstill
      | some value => exact of_assign rfl hstill hassign

end Duty.Effect

/-- All that discharging a duty can do. -/
theorem Duty.effect_of_discharge {duty : Duty κ ρ} {left : List (Duty κ ρ)}
    (h : duty.discharge app w = .ok (left, w')) : duty.Effect w left w' := by
  cases duty with
  | run program => exact .of_advance h
  | rounds b watchers =>
      cases watchers with
      | nil =>
          replace h := get_bind_eq_ok.mp h
          -- With nobody left to call, a change meanwhile decides between another round and the end.
          cases hpending : ((w.binding? b).map (·.pending)).getD false with
          | true =>
              rw [if_pos hpending] at h
              obtain ⟨watchers, v, hbegin, h⟩ := bind_eq_ok.mp h
              obtain ⟨rfl, rfl⟩ := pure_eq_ok.mp h
              obtain ⟨rfl, rfl⟩ := beginRound_eq_ok hbegin
              exact .begins hpending
          | false =>
              rw [if_neg (by simp [hpending])] at h
              obtain ⟨_, v, hsettle, h⟩ := bind_eq_ok.mp h
              obtain ⟨rfl, rfl⟩ := pure_eq_ok.mp h
              rw [← modify_eq_ok.mp hsettle]
              exact .settles hpending
      | cons x rest =>
          obtain ⟨program, v, hcall, h⟩ := bind_eq_ok.mp h
          obtain ⟨rfl, rfl⟩ := pure_eq_ok.mp h
          exact .calls (call_eq_ok hcall)
  | release x b rest =>
      obtain ⟨_, v, hrelease, h⟩ := bind_eq_ok.mp h
      obtain ⟨rfl, rfl⟩ := pure_eq_ok.mp h
      rw [← modify_eq_ok.mp hrelease]
      exact .releases
  | task task =>
      cases task with
      | run code =>
          obtain ⟨rfl, rfl⟩ := pure_eq_ok.mp h
          exact .still rfl (Effect.binding?_run _) (refl_of World.Still w)
      | edit e kind call reply =>
          obtain ⟨_, u, hlock, h⟩ := bind_eq_ok.mp h
          obtain ⟨program, v, hedit, h⟩ := bind_eq_ok.mp h
          obtain ⟨rfl, rfl⟩ := pure_eq_ok.mp h
          refine .still rfl (by simp [Duty.binding?]) ?_
          exact trans_of World.Still (lock_still e hlock) (edit_still app e kind call reply hedit)
  | unlock e => exact Effect.of_still (unlock_still e) rfl (by simp) h

end Trellis
