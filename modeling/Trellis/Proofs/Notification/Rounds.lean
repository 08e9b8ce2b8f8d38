import Trellis.Proofs.Notification.Effect
import Trellis.Proofs.Notification.Phase

/-!
# Telling of a change

Setting a binding from outside of any callback tells whoever listens, and whatever the callbacks do,
it leaves nothing half told.

* `Moment.Sound` — at every point of a run the duties of a binding, its two flags and the history
  agree on the phase that it is in; only the topmost duty can be to go on with rounds.
* `Moment.Sound.next` — a step keeps that.
* `Moment.Sound.settled` — a run that ends has told everybody.
* `World.Concludes` — what is known of such parts one after another.
-/

namespace Trellis

open Machine

variable {κ ρ : Type} {w w' : World κ ρ} {b : BindingId}

/-! ## The flags of a binding -/

namespace World

/-- Whether a binding is being told of, and whether a change of it has not been told of yet. -/
def flags (w : World κ ρ) (b : BindingId) : Bool × Bool :=
  ((w.binding? b).map fun binding => (binding.notifying, binding.pending)).getD (false, false)

theorem flags_of_binding? {binding : Binding ρ} (h : w.binding? b = some binding) :
    w.flags b = (binding.notifying, binding.pending) := by
  rw [flags, h]
  rfl

theorem flags_snd (w : World κ ρ) (b : BindingId) :
    (w.flags b).2 = ((w.binding? b).map (·.pending)).getD false := by
  rw [flags]
  cases w.binding? b <;> rfl

theorem Still.flags (h : w.Still w') (b : BindingId) : w'.flags b = w.flags b := by
  have hb := h.bindings b
  cases hw : w.binding? b with
  | none =>
      rw [hw] at hb
      cases hw' : w'.binding? b with
      | none => rw [World.flags, World.flags, hw, hw']
      | some y => rw [hw'] at hb; cases hb
  | some x =>
      rw [hw] at hb
      cases hw' : w'.binding? b with
      | none => rw [hw'] at hb; cases hb
      | some y =>
          rw [hw'] at hb
          cases hb
          rename_i hxy
          rw [flags_of_binding? hw, flags_of_binding? hw', hxy.notifying, hxy.pending]

theorem Still.nodup (h : w.Still w')
    (hw : ∀ b binding, w.binding? b = some binding → binding.watchers.Nodup) :
    ∀ b binding, w'.binding? b = some binding → binding.watchers.Nodup := by
  intro b y hy
  have hb := h.bindings b
  rw [hy] at hb
  cases hx : w.binding? b with
  | none => rw [hx] at hb; cases hb
  | some x =>
      rw [hx] at hb
      cases hb
      rename_i hxy
      exact hxy.nodup (hw b x hx)

theorem flags_eq_of_binding? {v : World κ ρ} (h : w'.binding? b = v.binding? b) :
    w'.flags b = v.flags b := by
  rw [flags, flags, h]

theorem binding?_assigned_of_ne {c : BindingId} (h : c ≠ b) (content : Content ρ) :
    (w.assigned c content).binding? b = w.binding? b := by
  rw [assigned, binding?_record, binding?_modifyBinding, if_neg h]

theorem flags_assigned {binding : Binding ρ} (found : w.binding? b = some binding)
    (content : Content ρ) : (w.assigned b content).flags b = (true, true) := by
  rw [flags, assigned, binding?_record, binding?_modifyBinding_self, found]
  rfl

theorem binding?_inRound_self (w : World κ ρ) (b : BindingId) :
    (w.inRound b).binding? b = (w.binding? b).map fun binding =>
      { binding.prune w.watcherAlive with pending := false } :=
  binding?_modifyBinding_self w b _

theorem binding?_inRound_of_ne {c : BindingId} (h : c ≠ b) :
    (w.inRound c).binding? b = w.binding? b := by
  show (w.modifyBinding c _).binding? b = _
  rw [binding?_modifyBinding, if_neg h]

theorem flags_inRound (w : World κ ρ) (b : BindingId) :
    (w.inRound b).flags b = ((w.flags b).1, false) := by
  rw [flags, flags, binding?_inRound_self]
  cases w.binding? b <;> rfl

theorem binding?_settled_self (w : World κ ρ) (b : BindingId) :
    (w.settled b).binding? b = (w.binding? b).map ({ · with notifying := false }) :=
  binding?_modifyBinding_self w b _

theorem binding?_settled_of_ne {c : BindingId} (h : c ≠ b) :
    (w.settled c).binding? b = w.binding? b := by
  rw [settled, binding?_record, binding?_modifyBinding, if_neg h]

theorem flags_settled (w : World κ ρ) (b : BindingId) :
    (w.settled b).flags b = (false, (w.flags b).2) := by
  rw [flags, flags, binding?_settled_self]
  cases w.binding? b <;> rfl

@[simp] theorem history_assigned (w : World κ ρ) (b : BindingId) (content : Content ρ) :
    (w.assigned b content).history = w.history ++ [.changed b] := by
  rw [assigned, history_record, history_modifyBinding]

@[simp] theorem history_inRound (w : World κ ρ) (b : BindingId) :
    (w.inRound b).history = w.history ++ [.round b (w.listeners b)] :=
  history_record (w.modifyBinding b _) _

@[simp] theorem history_settled (w : World κ ρ) (b : BindingId) :
    (w.settled b).history = w.history ++ [.settled b] := by
  rw [settled, history_record, history_modifyBinding]

@[simp] theorem history_released (w : World κ ρ) (x : WatcherId) (b : BindingId) :
    (w.released x b).history = w.history ++ [.returned x b] :=
  history_record w _

/-- Nobody is being told of a change, none is left to tell, and nobody watches a binding twice. -/
def Quiescent (w : World κ ρ) : Prop :=
  ∀ b binding, w.binding? b = some binding →
    binding.notifying = false ∧ binding.pending = false ∧ binding.watchers.Nodup

theorem Quiescent.flags (h : w.Quiescent) (b : BindingId) : w.flags b = (false, false) := by
  cases hb : w.binding? b with
  | none => rw [World.flags, hb]; rfl
  | some binding =>
      obtain ⟨hnotifying, hpending, -⟩ := h b binding hb
      rw [flags_of_binding? hb, hnotifying, hpending]

theorem Still.quiescent (still : w.Still w') (h : w.Quiescent) : w'.Quiescent := by
  intro b binding hb
  have hflags := (still.flags b).trans (h.flags b)
  rw [flags_of_binding? hb, Prod.mk.injEq] at hflags
  exact ⟨hflags.1, hflags.2, still.nodup (fun c old hold => (h c old hold).2.2) b binding hb⟩

end World

/-! ## The phase of a binding -/

namespace Duty

/-- The duties that belong to the rounds of a binding. -/
def about (b : BindingId) (agenda : List (Duty κ ρ)) : List (Duty κ ρ) :=
  agenda.filter (·.binding? = some b)

/-- Whether the duty is to go on with rounds. -/
def isRounds : Duty κ ρ → Bool
  | .rounds _ _ => true
  | _ => false

theorem about_cons_of_ne {duty : Duty κ ρ} (h : duty.binding? ≠ some b)
    (rest : List (Duty κ ρ)) : about b (duty :: rest) = about b rest :=
  List.filter_cons_of_neg (by simpa using h)

theorem about_append_of_ne {left : List (Duty κ ρ)} (h : ∀ d ∈ left, d.binding? ≠ some b)
    (rest : List (Duty κ ρ)) : about b (left ++ rest) = about b rest := by
  rw [about, List.filter_append, List.filter_eq_nil_iff.mpr (by simpa using h), List.nil_append]
  rfl

theorem about_rounds (b : BindingId) (watchers : List WatcherId) (rest : List (Duty κ ρ)) :
    about b (.rounds b watchers :: rest) = .rounds b watchers :: about b rest :=
  List.filter_cons_of_pos (by simp [binding?])

theorem about_release (b : BindingId) (x : WatcherId) (watchers : List WatcherId)
    (rest : List (Duty κ ρ)) :
    about b (.release x b watchers :: rest) = .release x b watchers :: about b rest :=
  List.filter_cons_of_pos (by simp [binding?])

end Duty

/-- The phase of a binding in a state, given the duties that belong to its rounds. -/
inductive Phase.At (w : World κ ρ) (b : BindingId) : List (Duty κ ρ) → Phase → Prop
  | idle (flags : w.flags b = (false, false)) : At w b [] .idle
  | ready {watchers : List WatcherId} {again : Bool} (flags : w.flags b = (true, again)) :
      At w b [.rounds b watchers] (.ready watchers again)
  | within {x : WatcherId} {watchers : List WatcherId} {again : Bool}
      (flags : w.flags b = (true, again)) :
      At w b [.release x b watchers] (.within x watchers again)

/-- The phase goes by the flags only. -/
theorem Phase.At.of_flags {duties : List (Duty κ ρ)} {p : Phase} (h : At w b duties p)
    (flags : w'.flags b = w.flags b) : At w' b duties p := by
  cases h with
  | idle hflags => exact .idle (flags.trans hflags)
  | ready hflags => exact .ready (flags.trans hflags)
  | within hflags => exact .within (flags.trans hflags)

/-- A step reads the history that it writes: the phase before it becomes the phase after it. -/
def Phase.Moves (b : BindingId) (w w' : World κ ρ) (before after : List (Duty κ ρ)) : Prop :=
  ∀ p, At w b (Duty.about b before) p → ∃ news q, w'.history = w.history ++ news ∧
    follow b p news = some q ∧ At w' b (Duty.about b after) q

/-- A step that has nothing to do with the binding. -/
theorem Phase.Moves.of_ne {duty : Duty κ ρ} {left rest : List (Duty κ ρ)} {news : List Entry}
    (history : w'.history = w.history ++ news) (foreign : ∀ entry ∈ news, entry.binding? ≠ some b)
    (flags : w'.flags b = w.flags b) (duty_binding : duty.binding? ≠ some b)
    (left_binding : ∀ d ∈ left, d.binding? ≠ some b) :
    Moves b w w' (duty :: rest) (left ++ rest) := by
  intro p hp
  refine ⟨news, p, history, follow_of_ne foreign, ?_⟩
  rw [Duty.about_cons_of_ne duty_binding] at hp
  rw [Duty.about_append_of_ne left_binding]
  exact hp.of_flags flags

/-! ## One step -/

namespace Duty.Effect

variable {duty : Duty κ ρ} {left rest : List (Duty κ ρ)}

/-- A binding that is set, seen from itself: it opens its rounds or has them go on. -/
theorem moves_assigned {u : World κ ρ} {binding : Binding ρ}
    (duty_binding : duty.binding? = none) (still : w.Still u) (found : u.binding? b = some binding)
    (content : Content ρ) (program : Program κ ρ Unit) (top : ∀ d ∈ rest, d.isRounds = false) :
    Phase.Moves b w (u.assigned b content) (duty :: rest)
      ((if binding.notifying then [] else [.rounds b []]) ++ .run program :: rest) := by
  intro p hp
  obtain ⟨news, hnews, hnone⟩ := still.history
  have hbusy : (w.flags b).1 = binding.notifying := by
    rw [← still.flags b, World.flags_of_binding? found]
  have hhistory : (u.assigned b content).history = w.history ++ (news ++ [.changed b]) := by
    rw [World.history_assigned, hnews, List.append_assoc]
  have hquiet : Phase.follow b p news = some p := by
    refine Phase.follow_of_ne fun entry hentry => ?_
    rw [hnone entry hentry]
    simp
  have hflags := World.flags_assigned found content
  rw [about_cons_of_ne (by simp [duty_binding])] at hp
  -- The duties below tell which phase the binding is in.
  generalize hduties : about b rest = duties at hp
  cases hp with
  | idle flags =>
      rw [flags] at hbusy
      refine ⟨_, .ready [] true, hhistory, ?_, ?_⟩
      · rw [Phase.follow_append_of_eq hquiet, Phase.follow_cons, Phase.step_of_eq rfl]
        rfl
      · rw [← hbusy]
        show Phase.At _ b (about b (.rounds b [] :: .run program :: rest)) _
        rw [about_rounds, about_cons_of_ne (by simp [binding?]), hduties]
        exact .ready hflags
  | @ready watchers _ flags =>
      -- The duty to go on with rounds would be the topmost.
      have hmem := List.mem_singleton_self (Duty.rounds (κ := κ) (ρ := ρ) b watchers)
      rw [← hduties] at hmem
      exact absurd (top _ (List.mem_filter.mp hmem).1) (by simp [isRounds])
  | @within x watchers _ flags =>
      rw [flags] at hbusy
      refine ⟨_, .within x watchers true, hhistory, ?_, ?_⟩
      · rw [Phase.follow_append_of_eq hquiet, Phase.follow_cons, Phase.step_of_eq rfl]
        rfl
      · rw [← hbusy]
        show Phase.At _ b (about b (.run program :: rest)) _
        rw [about_cons_of_ne (by simp [binding?]), hduties]
        exact .within hflags

/-- A binding that is set, seen from another one. -/
theorem moves_assigned_of_ne {u : World κ ρ} {c : BindingId} {content : Content ρ}
    (hne : c ≠ b) (duty_binding : duty.binding? = none) (still : w.Still u)
    (left_binding : ∀ d ∈ left, d.binding? ≠ some b) :
    Phase.Moves b w (u.assigned c content) (duty :: rest) (left ++ rest) := by
  obtain ⟨news, hnews, hnone⟩ := still.history
  have hhistory : (u.assigned c content).history = w.history ++ (news ++ [.changed c]) := by
    rw [World.history_assigned, hnews, List.append_assoc]
  have hflags : (u.assigned c content).flags b = w.flags b := by
    rw [World.flags_eq_of_binding? (World.binding?_assigned_of_ne hne content)]
    exact still.flags b
  refine .of_ne hhistory ?_ hflags (by simp [duty_binding]) left_binding
  intro entry hentry
  rcases List.mem_append.mp hentry with hmem | hmem
  · rw [hnone entry hmem]
    simp
  · rw [List.mem_singleton.mp hmem]
    simpa [Entry.binding?] using hne

theorem moves_begins (pending : ((w.binding? b).map (·.pending)).getD false = true) :
    Phase.Moves b w (w.inRound b) (.rounds b [] :: rest) (.rounds b (w.listeners b) :: rest) := by
  intro p hp
  rw [about_rounds] at hp ⊢
  generalize about b rest = duties at hp ⊢
  cases hp with
  | @ready _ again flags =>
      have hagain : again = true := by rw [← pending, ← World.flags_snd, flags]
      subst hagain
      refine ⟨_, .ready (w.listeners b) false, World.history_inRound w b, ?_, .ready ?_⟩
      · rw [Phase.follow_cons, Phase.step_of_eq rfl]
        rfl
      · rw [World.flags_inRound, flags]

theorem moves_settles (done : ((w.binding? b).map (·.pending)).getD false = false) :
    Phase.Moves b w (w.settled b) (.rounds b [] :: rest) rest := by
  intro p hp
  rw [about_rounds] at hp
  generalize about b rest = duties at hp ⊢
  cases hp with
  | @ready _ again flags =>
      have hagain : again = false := by rw [← done, ← World.flags_snd, flags]
      subst hagain
      refine ⟨_, .idle, World.history_settled w b, ?_, .idle ?_⟩
      · rw [Phase.follow_cons, Phase.step_of_eq rfl]
        rfl
      · rw [World.flags_settled, flags]

theorem moves_calls {x : WatcherId} {watchers : List WatcherId} (program : Program κ ρ Unit)
    (still : (w.record (.called x b)).Still w') :
    Phase.Moves b w w' (.rounds b (x :: watchers) :: rest)
      (.run program :: .release x b watchers :: rest) := by
  intro p hp
  obtain ⟨news, hnews, hnone⟩ := still.history
  rw [about_rounds] at hp
  rw [about_cons_of_ne (by simp [binding?]), about_release]
  generalize about b rest = duties at hp ⊢
  cases hp with
  | @ready _ again flags =>
      have hhistory : w'.history = w.history ++ (.called x b :: news) := by
        rw [hnews, World.history_record, List.append_assoc]
        rfl
      refine ⟨_, .within x watchers again, hhistory, ?_, .within ?_⟩
      · rw [Phase.follow_cons, Phase.step_of_eq rfl, Phase.next, if_pos rfl]
        refine Phase.follow_of_ne fun entry hentry => ?_
        rw [hnone entry hentry]
        simp
      · rw [still.flags b]
        exact flags

theorem moves_releases (x : WatcherId) (watchers : List WatcherId) :
    Phase.Moves b w (w.released x b) (.release x b watchers :: rest)
      (.rounds b watchers :: rest) := by
  intro p hp
  rw [about_release] at hp
  rw [about_rounds]
  generalize about b rest = duties at hp ⊢
  cases hp with
  | @within _ _ again flags =>
      refine ⟨_, .ready watchers again, World.history_released w x b, ?_, .ready flags⟩
      rw [Phase.follow_cons, Phase.step_of_eq rfl, Phase.next, if_pos rfl]
      rfl

/-- A step moves every binding on in its phases. -/
theorem moves (h : duty.Effect w left w') (top : ∀ d ∈ rest, d.isRounds = false) (b : BindingId) :
    Phase.Moves b w w' (duty :: rest) (left ++ rest) := by
  -- A step that is about one binding writes nothing about another.
  have foreign {c : BindingId} {entry : Entry} {news : List Entry} (hc : c ≠ b)
      (hentry : entry.binding? = some c) (hnone : ∀ e ∈ news, e.binding? = none) :
      ∀ e ∈ entry :: news, e.binding? ≠ some b := by
    intro e he
    rcases List.mem_cons.mp he with rfl | he
    · simpa [hentry] using hc
    · simp [hnone e he]
  cases h with
  | still duty_binding left_binding still =>
      obtain ⟨news, hnews, hnone⟩ := still.history
      refine .of_ne hnews ?_ (still.flags b) (by simp [duty_binding]) ?_
      · intro entry hentry
        simp [hnone entry hentry]
      · intro d hd
        simp [left_binding d hd]
  | @opens _ program c content binding _ u duty_binding still found quiet =>
      by_cases hc : c = b
      · subst hc
        have hmoves := moves_assigned duty_binding still found content program top
        rw [quiet] at hmoves
        exact hmoves
      · refine moves_assigned_of_ne hc duty_binding still ?_
        simpa [binding?] using hc
  | @postpones _ program c content binding _ u duty_binding still found busy =>
      by_cases hc : c = b
      · subst hc
        have hmoves := moves_assigned duty_binding still found content program top
        rw [busy] at hmoves
        exact hmoves
      · refine moves_assigned_of_ne hc duty_binding still ?_
        simp [binding?]
  | @begins c _ pending =>
      by_cases hc : c = b
      · subst hc
        exact moves_begins pending
      · have hflags := World.flags_eq_of_binding? (World.binding?_inRound_of_ne (w := w) hc)
        exact .of_ne (World.history_inRound w c) (foreign hc rfl (by simp)) hflags
          (by simpa [binding?] using hc) (by simpa [binding?] using hc)
  | @settles c _ done =>
      by_cases hc : c = b
      · subst hc
        exact moves_settles done
      · have hflags := World.flags_eq_of_binding? (World.binding?_settled_of_ne (w := w) hc)
        exact .of_ne (World.history_settled w c) (foreign hc rfl (by simp)) hflags
          (by simpa [binding?] using hc) (by simp)
  | @calls x c watchers program _ _ still =>
      by_cases hc : c = b
      · subst hc
        exact moves_calls program still
      · obtain ⟨news, hnews, hnone⟩ := still.history
        rw [World.history_record, List.append_assoc] at hnews
        exact .of_ne hnews (foreign hc rfl hnone) (still.flags b)
          (by simpa [binding?] using hc) (by simpa [binding?] using hc)
  | @releases x c watchers _ =>
      by_cases hc : c = b
      · subst hc
        exact moves_releases x watchers
      · exact .of_ne (World.history_released w x c) (foreign hc rfl (by simp)) rfl
          (by simpa [binding?] using hc) (by simpa [binding?] using hc)

/-- Duties to go on with rounds are left on top only. -/
theorem isRounds_tail (h : duty.Effect w left w') : ∀ d ∈ left.tail, d.isRounds = false := by
  cases h with
  | still duty_binding left_binding still =>
      intro d hd
      have hnone := left_binding d (List.mem_of_mem_tail hd)
      cases d <;> simp_all [binding?, isRounds]
  | opens | postpones | begins | settles | calls | releases => simp [isRounds]

/-- Nobody comes to watch a binding twice. -/
theorem nodup (h : duty.Effect w left w')
    (hw : ∀ b binding, w.binding? b = some binding → binding.watchers.Nodup) :
    ∀ b binding, w'.binding? b = some binding → binding.watchers.Nodup := by
  cases h with
  | still _ _ still => exact still.nodup hw
  | @opens _ _ c content _ _ u _ still | @postpones _ _ c content _ _ u _ still =>
      have hu := still.nodup hw
      intro b binding hb
      by_cases hc : c = b
      · subst hc
        rw [World.assigned, World.binding?_record, World.binding?_modifyBinding_self] at hb
        obtain ⟨old, hold, rfl⟩ := Option.map_eq_some_iff.mp hb
        exact hu c old hold
      · rw [World.binding?_assigned_of_ne hc] at hb
        exact hu b binding hb
  | @begins c =>
      intro b binding hb
      by_cases hc : c = b
      · subst hc
        rw [World.binding?_inRound_self] at hb
        obtain ⟨old, hold, rfl⟩ := Option.map_eq_some_iff.mp hb
        -- Beginning a round drops the watchers that are dead.
        exact Binding.nodup_prune (hw c old hold) w.watcherAlive
      · rw [World.binding?_inRound_of_ne hc] at hb
        exact hw b binding hb
  | @settles c =>
      intro b binding hb
      by_cases hc : c = b
      · subst hc
        rw [World.binding?_settled_self] at hb
        obtain ⟨old, hold, rfl⟩ := Option.map_eq_some_iff.mp hb
        exact hw c old hold
      · rw [World.binding?_settled_of_ne hc] at hb
        exact hw b binding hb
  | calls still => exact still.nodup hw
  | releases => exact hw

end Duty.Effect

/-! ## Runs -/

variable [Ordered ρ] {app : App κ ρ} {start : World κ ρ} {m m' : Moment κ ρ}

/-- The duties, the flags and the history since the start agree on the phase of every binding. -/
structure Moment.Sound (start : World κ ρ) (m : Moment κ ρ) : Prop where
  /-- Only the topmost duty can be to go on with rounds. -/
  top : ∀ d ∈ m.agenda.tail, d.isRounds = false
  phase : ∀ b, ∃ news p, m.world.history = start.history ++ news ∧
    Phase.follow b .idle news = some p ∧ Phase.At m.world b (Duty.about b m.agenda) p
  nodup : ∀ b binding, m.world.binding? b = some binding → binding.watchers.Nodup

namespace Moment.Sound

omit [Ordered ρ] in
/-- Nobody is being told of anything, and nothing that is left to do belongs to rounds. -/
theorem of_idle {agenda : List (Duty κ ρ)} (h : w.Quiescent)
    (idle : ∀ d ∈ agenda, d.binding? = none) : Sound w ⟨agenda, w⟩ where
  top d hd := by
    have hnone := idle d (List.mem_of_mem_tail hd)
    cases d <;> first | rfl | cases hnone
  phase b := by
    refine ⟨[], .idle, (List.append_nil _).symm, rfl, ?_⟩
    have habout : Duty.about b agenda = [] :=
      List.filter_eq_nil_iff.mpr fun d hd => by simp [idle d hd]
    rw [habout]
    exact .idle (h.flags b)
  nodup b binding hb := (h b binding hb).2.2

omit [Ordered ρ] in
/-- A callback is about to be run, and nobody is being told of anything. -/
theorem of_quiescent (h : w.Quiescent) (program : Program κ ρ Unit) :
    Sound w ⟨[.run program], w⟩ :=
  of_idle h (Duty.Effect.binding?_run program)

theorem next (h : m.Sound start) (hnext : Next app m m') : m'.Sound start := by
  obtain @⟨duty, rest, left, w, w', run⟩ := hnext
  have heffect := Duty.effect_of_discharge run
  refine ⟨?_, ?_, heffect.nodup h.nodup⟩
  · intro d hd
    cases left with
    | nil => exact h.top d (List.mem_of_mem_tail hd)
    | cons first more =>
        rcases List.mem_append.mp hd with hd | hd
        · exact heffect.isRounds_tail d hd
        · exact h.top d hd
  · intro b
    -- The phase follows from the history so far, and the step moves it on.
    obtain ⟨old, p, hold, hp, hat⟩ := h.phase b
    obtain ⟨news, q, hnews, hq, hat'⟩ := heffect.moves h.top b p hat
    refine ⟨old ++ news, q, ?_, ?_, hat'⟩
    · rw [← List.append_assoc, ← hold, hnews]
    · rw [Phase.follow_append_of_eq hp, hq]

theorem reaches (h : m.Sound start) (run : Reaches app m m') : m'.Sound start := by
  induction run with
  | refl => exact h
  | tail _ hnext ih => exact ih.next hnext

omit [Ordered ρ] in
/-- Once nothing is left to do, no binding is in a round. -/
theorem settled (h : Sound start ⟨[], w⟩) :
    w.Quiescent ∧ ∃ news, w.history = start.history ++ news ∧
      ∀ b, Phase.follow b .idle news = some .idle := by
  refine ⟨?_, ?_⟩
  · intro b binding hb
    obtain ⟨_, _, -, -, hat⟩ := h.phase b
    cases hat with
    | idle hflags =>
        rw [World.flags_of_binding? hb, Prod.mk.injEq] at hflags
        exact ⟨hflags.1, hflags.2, h.nodup b binding hb⟩
  · -- What was added to the history is the same for all bindings.
    obtain ⟨news, _, hnews, -, -⟩ := h.phase ⟨0⟩
    refine ⟨news, hnews, fun b => ?_⟩
    obtain ⟨news', p, hnews', hp, hat⟩ := h.phase b
    have heq : news' = news := List.append_cancel_left (hnews'.symm.trans hnews)
    subst heq
    cases hat with
    | idle => exact hp

end Moment.Sound

/-! ## Parts between the rounds -/

/-- A part that begins with nobody being told of anything ends so, and the history of what it did tells
of rounds that came to their end. -/
def World.Concludes (w w' : World κ ρ) : Prop :=
  w.Quiescent → w'.Quiescent ∧ ∃ news, w'.history = w.history ++ news ∧
    ∀ b, Phase.follow b .idle news = some .idle

instance : IsPreorder (World κ ρ) World.Concludes where
  refl _ h := ⟨h, [], (List.append_nil _).symm, fun _ => rfl⟩
  trans _ _ _ h h' hquiescent := by
    obtain ⟨hbetween, news, hnews, hidle⟩ := h hquiescent
    obtain ⟨hend, later, hlater, hidle'⟩ := h' hbetween
    refine ⟨hend, news ++ later, by rw [hlater, hnews, List.append_assoc], fun b => ?_⟩
    rw [Phase.follow_append_of_eq (hidle b), hidle' b]

omit [Ordered ρ] in
theorem World.Still.concludes (h : w.Still w') : w.Concludes w' := by
  intro hquiescent
  obtain ⟨news, hnews, hnone⟩ := h.history
  refine ⟨h.quiescent hquiescent, news, hnews, fun b => Phase.follow_of_ne fun entry hentry => ?_⟩
  rw [hnone entry hentry]
  simp

omit [Ordered ρ] in
/-- What is known of the history of a part is known of all that it added. -/
theorem World.Concludes.follow {news : List Entry} (h : w.Concludes w') (quiescent : w.Quiescent)
    (history : w'.history = w.history ++ news) (b : BindingId) :
    Phase.follow b .idle news = some .idle := by
  obtain ⟨-, news', hnews, hidle⟩ := h quiescent
  obtain rfl : news' = news := List.append_cancel_left (hnews.symm.trans history)
  exact hidle b

/-- Callbacks leave nobody half told. -/
theorem Reaches.concludes {agenda : List (Duty κ ρ)} (idle : ∀ d ∈ agenda, d.binding? = none)
    (run : Reaches app ⟨agenda, w⟩ ⟨[], w'⟩) : w.Concludes w' :=
  fun quiescent => ((Moment.Sound.of_idle quiescent idle).reaches run).settled

end Trellis
