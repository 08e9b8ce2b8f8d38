import Trellis.Proofs.Mirror.Unheard
import Trellis.Proofs.Notification.Told

/-!
# Mirrors in accord with their binding

Between changes from outside a mirror shows the value of its binding or has been edited since the
binding last changed. While a change is being told of, a mirror may still owe taking over the value.

* `Mirror.Accord` — what holds of a mirror between steps.
* `Moment.Mirrored` — what holds at every point of a run, with `Moment.Mirrored.next` for a step.
-/

namespace Trellis

open Machine

variable {κ ρ : Type}

/-- What a callback may do that leaves it to others who is attached, and of the bindings that are
watched sets one only. It may note what it likes in those that nobody watches, and put work off. -/
inductive Program.Mild (app : App κ ρ) (w : World κ ρ) (b : BindingId) : Program κ ρ Unit → Prop
  | done {answer : Unit} : Mild app w b (.done answer)
  | note {line : String} {next : Program κ ρ Unit} (h : Mild app w b next) :
      Mild app w b (.note line next)
  | read {c : BindingId} {next : Option (String × Content ρ) → Program κ ρ Unit}
      (h : ∀ a, Mild app w b (next a)) : Mild app w b (.read c next)
  | set {content : Content ρ} {next : Bool → Program κ ρ Unit} (h : ∀ a, Mild app w b (next a)) :
      Mild app w b (.set b content next)
  /-- A binding that nobody watches is set. -/
  | jot {c : BindingId} {content : Content ρ} {next : Bool → Program κ ρ Unit}
      (unheard : w.Unheard c) (h : ∀ a, Mild app w b (next a)) : Mild app w b (.set c content next)
  | keeps {x : WatcherId} {next : Bool → Program κ ρ Unit} (h : ∀ a, Mild app w b (next a)) :
      Mild app w b (.keeps x next)
  | edit {x : WatcherId} {value : Scalar ρ} {next : Program κ ρ Unit} (h : Mild app w b next) :
      Mild app w b (.edit x value next)
  | invalidate {window : WindowId} {next : Program κ ρ Unit} (h : Mild app w b next) :
      Mild app w b (.invalidate window next)
  | title {window : WindowId} {next : String → Program κ ρ Unit}
      (h : ∀ a, Mild app w b (next a)) : Mild app w b (.title window next)
  /-- Work is handed to a window that keeps it until later. -/
  | defer {window : WindowId} {code : κ} {next : Program κ ρ Unit} (waits : w.Waits window)
      (h : Mild app w b next) : Mild app w b (.defer window code next)
  /-- Work is handed to a window that may have it done at once. -/
  | doNow {window : WindowId} {code : κ} {next : Program κ ρ Unit}
      (task : Mild app w b (app.task code)) (h : Mild app w b next) :
      Mild app w b (.defer window code next)
  | send {event : Event} {next : Program κ ρ Unit} (h : Mild app w b next) :
      Mild app w b (.send event next)
  | find {id : String} {next : Option ElementId → Program κ ρ Unit}
      (h : ∀ a, Mild app w b (next a)) : Mild app w b (.find id next)
  | handle {e : ElementId} {kind : Kind} {next : Option Handle → Program κ ρ Unit}
      (h : ∀ a, Mild app w b (next a)) : Mild app w b (.handle e kind next)
  | tryLock {handle : Handle} {next : Bool → Program κ ρ Unit} (h : ∀ a, Mild app w b (next a)) :
      Mild app w b (.tryLock handle next)

namespace Duty

/-- A duty that belongs to a mild callback, to the rounds of the binding, or to rounds that call
nobody. -/
def Mild (app : App κ ρ) (w : World κ ρ) (b : BindingId) : Duty κ ρ → Prop
  | .run program => program.Mild app w b
  | .rounds c watchers => c = b ∨ w.Unheard c ∧ watchers = []
  | .release _ c _ => c = b
  | .task (.run code) => (app.task code).Mild app w b
  | _ => False

/-- The watchers that are yet to be called. -/
def yet : Duty κ ρ → List WatcherId
  | .rounds _ watchers | .release _ _ watchers => watchers
  | _ => []

end Duty

section Accord

variable [Ordered ρ]

/-- A mirror was edited after the last change of a binding. -/
def Entry.EditedSince (b : BindingId) (x : WatcherId) (history : List Entry) : Prop :=
  ∃ before after, history = before ++ .edited x :: after ∧ .changed b ∉ after

/-- The copy is the value of the binding, or does not differ from it. -/
def World.Agrees (w : World κ ρ) (b : BindingId) (copy : Mirror ρ) : Prop :=
  ∃ value, w.content? b = some (.one value) ∧
    (copy.value = value ∨ value.differs copy.value = false)

/-- A mirror that has not been edited agrees with the binding, and one that has been was so after the
binding last changed. -/
structure Mirror.Accord (copy : Mirror ρ) (w : World κ ρ) (b : BindingId) (x : WatcherId) :
    Prop where
  agrees : copy.edited = false → w.Agrees b copy
  since : copy.edited = true → Entry.EditedSince b x w.history

/-- The mirror has yet to take over the value of the binding. -/
def Moment.Owes (m : Moment κ ρ) (b : BindingId) (x : WatcherId) : Prop :=
  (m.world.flags b).2 = true ∨ ∃ duty ∈ m.agenda, x ∈ duty.yet

/-- Whatever is left to do is mild, and every mirror that is attached is in accord or will be. What
nobody watched at the start is still for the callbacks alone. -/
structure Moment.Mirrored (app : App κ ρ) (start : World κ ρ) (b : BindingId) (m : Moment κ ρ) :
    Prop where
  mild : ∀ duty ∈ m.agenda, duty.Mild app start b
  callbacks : ∀ x code, m.world.Registered b x ∨ (∃ duty ∈ m.agenda, x ∈ duty.yet) →
    m.world.CallsBack x code → (app.watcher code b).Mild app start b
  accord : ∀ x copy, m.world.Attached b x copy → m.Owes b x ∨ copy.Accord m.world b x
  secluded : start.Secluded b m.world

variable {app : App κ ρ} {b : BindingId} {start w w' : World κ ρ} {m m' : Moment κ ρ}

omit [Ordered ρ] in
theorem Entry.EditedSince.append {x : WatcherId} {history news : List Entry}
    (h : EditedSince b x history) (hnews : .changed b ∉ news) :
    EditedSince b x (history ++ news) := by
  obtain ⟨before, after, rfl, hafter⟩ := h
  refine ⟨before, after ++ news, by rw [List.append_assoc]; rfl, ?_⟩
  rw [List.mem_append, not_or]
  exact ⟨hafter, hnews⟩

/-- The accord of a mirror goes by the content of the binding and by what happened since it
changed. -/
theorem Mirror.Accord.mono {x : WatcherId} {copy : Mirror ρ} (h : copy.Accord w b x)
    (content : w'.content? b = w.content? b)
    (history : ∃ news, w'.history = w.history ++ news ∧ .changed b ∉ news) :
    copy.Accord w' b x where
  agrees hedited := by
    obtain ⟨value, hvalue, hagrees⟩ := h.agrees hedited
    exact ⟨value, content.trans hvalue, hagrees⟩
  since hedited := by
    obtain ⟨news, hnews, hno⟩ := history
    rw [hnews]
    exact (h.since hedited).append hno

omit [Ordered ρ] in
theorem Machine.editMirror_eq_ok {x : WatcherId} {value : Scalar ρ}
    (h : editMirror x value w = .ok ((), w')) :
    w' = (w.modifyCopy x (·.edit value)).record (.edited x) := by
  obtain ⟨_, u, hmodify, hrecord⟩ := bind_eq_ok.mp h
  have hu : w.modifyCopy x (·.edit value) = u := modify_eq_ok.mp hmodify
  rw [← modify_eq_ok.mp hrecord, hu]

/-- A mirror that is edited is in accord. An edit of another kind is refused, and the mirror is as it
was. -/
theorem Mirror.Accord.of_edit {x : WatcherId} {copy : Mirror ρ} {value : Scalar ρ}
    (run : editMirror x value w = .ok ((), w')) (ha : w'.Attached b x copy) :
    copy.Accord w' b x ∨ w.Attached b x copy := by
  have hsteady : w.Steady b (Eq x) w' := editMirror_steady rfl value run
  have hw' := editMirror_eq_ok run
  have hshown : (w.copy? x).map (·.edit value) = some copy := by
    have hcopy := World.copy?_modifyCopy w x x (·.edit value)
    rw [if_pos rfl] at hcopy
    rw [← hcopy, ← ha.shown, hw']
    rfl
  obtain ⟨old, hold, rfl⟩ := Option.map_eq_some_iff.mp hshown
  -- A value of another kind is refused.
  by_cases hkind : value.kind = old.value.kind
  · refine .inl ⟨?_, fun _ => ⟨w.history, [], ?_, List.not_mem_nil⟩⟩
    · intro hedited
      rw [Mirror.edit, if_pos hkind] at hedited
      cases hedited
    · rw [hw', World.history_record]
      rfl
  · rw [Mirror.edit, if_neg hkind] at ha ⊢
    refine .inr ⟨hsteady.registered x ha.registered, ?_, hold, ?_⟩
    · rw [← hsteady.held x, ha.held]
    · rw [← hsteady.content, ha.kind]

omit [Ordered ρ] in
/-- A content of the shape of a single value. -/
theorem Content.exists_of_shape {content : Content ρ} {kind : Scalar.Kind}
    (h : content.shape = .one kind) : ∃ value, content = .one value ∧ value.kind = kind := by
  cases content with
  | one value => exact ⟨value, rfl, by simpa [Content.shape] using h⟩
  | many kind items => cases h

/-- A copy that would not change a binding agrees with it. -/
theorem World.agrees_of_same {copy : Mirror ρ}
    (kind : (w.content? b).map (·.shape) = some (.one copy.value.kind))
    (same : ∀ binding, w.binding? b = some binding →
      ¬ (binding.content.shape = (Content.one copy.value).shape ∧
        binding.content.differs (.one copy.value) = true)) : w.Agrees b copy := by
  obtain ⟨content, hcontent, hshape⟩ := Option.map_eq_some_iff.mp kind
  obtain ⟨value, rfl, -⟩ := Content.exists_of_shape hshape
  obtain ⟨binding, hbinding, hvalue⟩ := Option.map_eq_some_iff.mp hcontent
  have hno := same binding hbinding
  rw [hvalue, not_and, Bool.not_eq_true] at hno
  exact ⟨value, hcontent, .inr (hno hshape)⟩

omit [Ordered ρ] in
/-- What is called runs nothing, or is a callback that runs its program. -/
theorem Machine.call_program {x : WatcherId} {program : Program κ ρ Unit}
    (h : call app x b w = .ok (program, w')) :
    program = .done () ∨ ∃ code, w.CallsBack x code ∧ program = app.watcher code b := by
  obtain ⟨_, u, hrecord, h⟩ := bind_eq_ok.mp h
  rw [modify_eq_ok] at hrecord
  replace h := get_bind_eq_ok.mp h
  cases hcell : u.watcher? x with
  | none =>
      simp only [hcell] at h
      exact .inl (pure_eq_ok.mp h).1.symm
  | some cell =>
      cases hwatcher : cell.watcher with
      | mirror copy =>
          simp only [hcell, hwatcher] at h
          split at h
          · obtain ⟨_, _, -, h⟩ := bind_eq_ok.mp h
            obtain ⟨_, _, -, h⟩ := bind_eq_ok.mp h
            exact .inl (pure_eq_ok.mp h).1.symm
          · exact .inl (pure_eq_ok.mp h).1.symm
      | invalidator window =>
          simp only [hcell, hwatcher] at h
          obtain ⟨_, _, -, h⟩ := bind_eq_ok.mp h
          exact .inl (pure_eq_ok.mp h).1.symm
      | callback code =>
          simp only [hcell, hwatcher] at h
          subst hrecord
          exact .inr ⟨code, ⟨cell, hcell, hwatcher⟩, (pure_eq_ok.mp h).1.symm⟩

omit [Ordered ρ] in
theorem Machine.takeOver_eq_ok {x : WatcherId} {content : Content ρ}
    (found : w.content? b = some content) (h : takeOver x b w = .ok ((), w')) :
    w' = w.modifyCopy x (·.takeOver content) := by
  obtain ⟨binding, hbinding, rfl⟩ := Option.map_eq_some_iff.mp found
  replace h := get_bind_eq_ok.mp h
  simp only [hbinding] at h
  exact (modify_eq_ok.mp h).symm

/-- A mirror of the binding's kind agrees with it once it has taken over its value. -/
theorem Mirror.Accord.of_takeOver {x : WatcherId} {copy old : Mirror ρ} {value : Scalar ρ}
    (found : w.content? b = some (.one value)) (kind : value.kind = old.value.kind)
    (taken : copy = old.takeOver (.one value)) : copy.Accord w b x := by
  rw [takeOver, if_pos kind] at taken
  subst taken
  exact ⟨fun _ => ⟨value, found, .inl rfl⟩, fun hedited => nomatch hedited⟩

/-- A mirror that is called takes over the value of the binding. -/
theorem Mirror.Accord.of_call {x : WatcherId} {copy : Mirror ρ} {program : Program κ ρ Unit}
    (run : call app x b w = .ok (program, w')) (ha : w'.Attached b x copy) :
    copy.Accord w' b x := by
  obtain ⟨_, u, hrecord, h⟩ := bind_eq_ok.mp run
  replace h := get_bind_eq_ok.mp h
  have hshown := ha.shown
  cases hcell : u.watcher? x with
  | none =>
      simp only [hcell] at h
      obtain ⟨-, rfl⟩ := pure_eq_ok.mp h
      rw [World.copy?, hcell] at hshown
      cases hshown
  | some cell =>
      have hcopy : u.copy? x = cell.watcher.copy? := by
        rw [World.copy?, hcell]
        rfl
      cases hwatcher : cell.watcher with
      | mirror old =>
          rw [hwatcher] at hcopy
          simp only [hcell, hwatcher] at h
          split at h
          · next hfits =>
              obtain ⟨_, v, htake, h⟩ := bind_eq_ok.mp h
              obtain ⟨_, v', hask, h⟩ := bind_eq_ok.mp h
              obtain ⟨-, rfl⟩ := pure_eq_ok.mp h
              obtain ⟨binding, hbinding, hshape⟩ := Option.map_eq_some_iff.mp hfits
              obtain ⟨value, hvalue, hkind⟩ := Content.exists_of_shape hshape
              have hcontent : u.content? b = some (.one value) := by
                rw [World.content?, hbinding, Option.map_some, hvalue]
              have htaken := takeOver_eq_ok hcontent htake
              have hasked : v.Steady b (fun _ => False) v' := invalidate_steady _ hask
              have hafter : v'.content? b = some (.one value) := by
                rw [hasked.content, htaken]
                exact hcontent
              refine .of_takeOver hafter hkind ?_
              rw [hasked.copies x id, htaken, World.copy?_modifyCopy, if_pos rfl, hcopy] at hshown
              exact (Option.some.inj hshown).symm
          · -- An attached mirror is of the kind of the binding.
            next hmisfit =>
              obtain ⟨-, rfl⟩ := pure_eq_ok.mp h
              rw [hcopy] at hshown
              cases hshown
              refine absurd ?_ hmisfit
              rw [← ha.kind, World.content?, Option.map_map]
              rfl
      | invalidator window =>
          simp only [hcell, hwatcher] at h
          obtain ⟨_, v, hask, h⟩ := bind_eq_ok.mp h
          obtain ⟨-, rfl⟩ := pure_eq_ok.mp h
          have hasked : u.Steady b (fun _ => False) v := invalidate_steady _ hask
          rw [hasked.copies x id, hcopy, hwatcher] at hshown
          cases hshown
      | callback code =>
          simp only [hcell, hwatcher] at h
          obtain ⟨-, rfl⟩ := pure_eq_ok.mp h
          rw [hcopy, hwatcher] at hshown
          cases hshown

namespace Moment.Mirrored

variable {duty : Duty κ ρ} {left rest : List (Duty κ ρ)}

/-- A steady step, after which every mirror that is attached is in accord or is as it was, and then
still to be called if it was to be called. -/
theorem of_steady {touched : WatcherId → Prop} (h : Mirrored app start b ⟨duty :: rest, w⟩)
    (steady : w.Steady b touched w') (secluded : w.Secluded b w')
    (mild : ∀ d ∈ left, d.Mild app start b) (fewer : ∀ d ∈ left, ∀ x ∈ d.yet, x ∈ duty.yet)
    (mirrors : ∀ x copy, w'.Attached b x copy → copy.Accord w' b x ∨
      w.Attached b x copy ∧ (x ∈ duty.yet → ∃ d ∈ left, x ∈ d.yet)) :
    Mirrored app start b ⟨left ++ rest, w'⟩ := by
  refine ⟨?_, ?_, ?_, trans_of (World.Secluded b) h.secluded secluded⟩
  · intro d hd
    rcases List.mem_append.mp hd with hd | hd
    · exact mild d hd
    · exact h.mild d (List.mem_cons_of_mem _ hd)
  · intro x code hx hcode
    refine h.callbacks x code ?_ (steady.callbacks x code hcode)
    rcases hx with hx | ⟨d, hd, hx⟩
    · exact .inl (steady.registered x hx)
    · rcases List.mem_append.mp hd with hd | hd
      · exact .inr ⟨duty, List.mem_cons_self, fewer d hd x hx⟩
      · exact .inr ⟨d, List.mem_cons_of_mem _ hd, hx⟩
  · intro x copy ha
    rcases mirrors x copy ha with hin | ⟨hbefore, hkept⟩
    · exact .inr hin
    -- What the mirror owed it owes still, unless the step was to call it.
    rcases h.accord x copy hbefore with (hpending | ⟨d, hd, hyet⟩) | hin
    · refine .inl (.inl ?_)
      show (w'.flags b).2 = true
      rw [steady.pending]
      exact hpending
    · refine .inl (.inr ?_)
      rcases List.mem_cons.mp hd with rfl | hd
      · obtain ⟨d, hd, hyet⟩ := hkept hyet
        exact ⟨d, List.mem_append_left _ hd, hyet⟩
      · exact ⟨d, List.mem_append_right _ hd, hyet⟩
    · exact .inr (hin.mono steady.content steady.history)

/-- A step that touches no mirror, before and after which there is nobody to call. -/
theorem of_untouched (h : Mirrored app start b ⟨duty :: rest, w⟩)
    (steady : w.Steady b (fun _ => False) w') (secluded : w.Secluded b w') (nobody : duty.yet = [])
    (mild : ∀ d ∈ left, d.Mild app start b ∧ d.yet = []) :
    Mirrored app start b ⟨left ++ rest, w'⟩ := by
  refine h.of_steady steady secluded (fun d hd => (mild d hd).1) ?_ ?_
  · intro d hd x hx
    rw [(mild d hd).2] at hx
    cases hx
  · intro x copy ha
    exact .inr ⟨steady.attached id ha, by simp [nobody]⟩

/-- A step of a callback that touches no mirror. -/
theorem of_run {program next : Program κ ρ Unit}
    (h : Mirrored app start b ⟨.run program :: rest, w⟩) (steady : w.Steady b (fun _ => False) w')
    (secluded : w.Secluded b w') (mild : next.Mild app start b) :
    Mirrored app start b ⟨[.run next] ++ rest, w'⟩ :=
  h.of_untouched steady secluded rfl (List.forall_mem_singleton.mpr ⟨mild, rfl⟩)

/-- A callback edits a mirror. -/
theorem of_edit {next : Program κ ρ Unit} {x : WatcherId} {value : Scalar ρ}
    (h : Mirrored app start b ⟨.run (.edit x value next) :: rest, w⟩) (mild : next.Mild app start b)
    (run : editMirror x value w = .ok ((), w')) : Mirrored app start b ⟨[.run next] ++ rest, w'⟩ := by
  have hsteady : w.Steady b (Eq x) w' := editMirror_steady rfl value run
  refine h.of_steady hsteady (editMirror_respects x value run) ?_ ?_ ?_
  · simpa [Duty.Mild] using mild
  · simp [Duty.yet]
  · intro y copy ha
    by_cases hy : x = y
    · subst hy
      rcases Mirror.Accord.of_edit run ha with hin | hbefore
      · exact .inl hin
      · exact .inr ⟨hbefore, by simp [Duty.yet]⟩
    · exact .inr ⟨hsteady.attached hy ha, by simp [Duty.yet]⟩

/-- A watcher is called, and what it is going to do is mild. -/
theorem of_call {x : WatcherId} {watchers : List WatcherId} {program : Program κ ρ Unit}
    (h : Mirrored app start b ⟨.rounds b (x :: watchers) :: rest, w⟩)
    (run : call app x b w = .ok (program, w')) :
    Mirrored app start b ⟨[.run program, .release x b watchers] ++ rest, w'⟩ := by
  have hsteady : w.Steady b (Eq x) w' := call_steady app rfl b run
  have hmild : program.Mild app start b := by
    rcases call_program run with rfl | ⟨code, hcode, rfl⟩
    · exact .done
    · exact h.callbacks x code (.inr ⟨_, List.mem_cons_self, List.mem_cons_self⟩) hcode
  refine h.of_steady hsteady (call_respects app x b run) ?_ ?_ ?_
  · simpa [Duty.Mild] using hmild
  · simp only [List.mem_cons, List.not_mem_nil, or_false, forall_eq_or_imp, forall_eq, Duty.yet]
    exact ⟨fun y hy => hy.elim, fun y hy => .inr hy⟩
  · intro y copy ha
    by_cases hy : x = y
    · subst hy
      exact .inl (.of_call run ha)
    · -- The others are called after this one.
      refine .inr ⟨hsteady.attached hy ha, fun hyet => ?_⟩
      have hmem : y ∈ watchers := (List.mem_cons.mp hyet).resolve_left (Ne.symm hy)
      exact ⟨.release x b watchers, by simp, hmem⟩

/-- The binding has changed: every mirror owes taking over the value. -/
theorem of_assigned {content : Content ρ} {binding : Binding ρ}
    (found : w.binding? b = some binding) (mild : ∀ d ∈ rest, d.Mild app start b)
    (callbacks : ∀ x code, w.Registered b x ∨ (∃ d ∈ rest, x ∈ d.yet) → w.CallsBack x code →
      (app.watcher code b).Mild app start b) (secluded : start.Secluded b w) :
    Mirrored app start b ⟨(if binding.notifying then [] else [.rounds b []]) ++ rest,
      w.assigned b content⟩ := by
  -- The only duty that may come is to begin rounds.
  have hrounds (d : Duty κ ρ) (hd : d ∈ if binding.notifying then [] else [.rounds b []]) :
      d = .rounds b [] := by
    split at hd
    · exact absurd hd List.not_mem_nil
    · exact List.mem_singleton.mp hd
  refine ⟨?_, ?_, ?_, trans_of (World.Secluded b) secluded (.assigned w b content)⟩
  · intro d hd
    rcases List.mem_append.mp hd with hd | hd
    · rw [hrounds d hd]
      exact .inl rfl
    · exact mild d hd
  · intro x code hx hcode
    refine callbacks x code ?_ hcode
    rcases hx with ⟨after, hafter, hx⟩ | ⟨d, hd, hx⟩
    · rw [World.assigned, World.binding?_record, World.binding?_modifyBinding_self, found] at hafter
      cases hafter
      exact .inl ⟨binding, found, hx⟩
    · rcases List.mem_append.mp hd with hd | hd
      · rw [hrounds d hd] at hx
        cases hx
      · exact .inr ⟨d, hd, hx⟩
  · intro x copy _
    refine .inl (.inl ?_)
    show ((w.assigned b content).flags b).2 = true
    rw [World.flags_assigned found]

/-- A callback sets the binding. -/
theorem of_set {content : Content ρ} {next : Bool → Program κ ρ Unit} {changed : Bool}
    {rounds : List (Duty κ ρ)} (h : Mirrored app start b ⟨.run (.set b content next) :: rest, w⟩)
    (mild : ∀ a, (next a).Mild app start b) (run : assign b content w = .ok ((changed, rounds), w')) :
    Mirrored app start b ⟨(rounds ++ [.run (next changed)]) ++ rest, w'⟩ := by
  rcases assign_eq_ok run with ⟨rfl, rfl, rfl, -⟩ | ⟨binding, found, -, rfl, rfl, rfl⟩
  · exact h.of_run (refl_of (World.Steady b _) w') (refl_of (World.Secluded b) w') (mild false)
  · rw [List.append_assoc]
    refine of_assigned found ?_ ?_ h.secluded
    · intro d hd
      rcases List.mem_cons.mp hd with rfl | hd
      · exact mild true
      · exact h.mild d (List.mem_cons_of_mem _ hd)
    · intro x code hx hcode
      refine h.callbacks x code ?_ hcode
      rcases hx with hx | ⟨d, hd, hx⟩
      · exact .inl hx
      · rcases List.mem_cons.mp hd with rfl | hd
        · cases hx
        · exact .inr ⟨d, List.mem_cons_of_mem _ hd, hx⟩

/-- A callback sets another binding, which nobody watches. -/
theorem of_jot {c : BindingId} {content : Content ρ} {next : Bool → Program κ ρ Unit}
    {changed : Bool} {rounds : List (Duty κ ρ)}
    (h : Mirrored app start b ⟨.run (.set c content next) :: rest, w⟩) (hne : c ≠ b)
    (unheard : start.Unheard c) (mild : ∀ a, (next a).Mild app start b)
    (run : assign c content w = .ok ((changed, rounds), w')) :
    Mirrored app start b ⟨(rounds ++ [.run (next changed)]) ++ rest, w'⟩ := by
  rcases assign_eq_ok run with ⟨rfl, rfl, rfl, -⟩ | ⟨binding, -, -, rfl, rfl, rfl⟩
  · exact h.of_run (refl_of (World.Steady b _) w') (refl_of (World.Secluded b) w') (mild false)
  · refine h.of_untouched (.assigned_of_ne w hne content) (.assigned w c content) rfl fun d hd => ?_
    rcases List.mem_append.mp hd with hd | hd
    · split at hd
      · cases hd
      · obtain rfl := List.mem_singleton.mp hd
        exact ⟨.inr ⟨unheard, rfl⟩, rfl⟩
    · obtain rfl := List.mem_singleton.mp hd
      exact ⟨mild true, rfl⟩

/-- A callback hands work to a window, which keeps it until later or has it done at once. -/
theorem of_defer {window : WindowId} {code : κ} {next : Program κ ρ Unit} {tasks : List (Task κ)}
    (h : Mirrored app start b ⟨.run (.defer window code next) :: rest, w⟩)
    (task : ¬ start.Waits window → (app.task code).Mild app start b)
    (mild : next.Mild app start b) (run : enqueue window (.run code) w = .ok (tasks, w')) :
    Mirrored app start b ⟨(tasks.map .task ++ [.run next]) ++ rest, w'⟩ := by
  have hsteady : w.Steady b (fun _ => False) w' := enqueue_steady window run
  have hsecluded : w.Secluded b w' := enqueue_respects window _ run
  rcases enqueue_tasks run with rfl | ⟨rfl, hnow⟩
  · exact h.of_run hsteady hsecluded mild
  · have htask : (app.task code).Mild app start b :=
      task fun hwaits => hnow (h.secluded.waits window hwaits)
    refine h.of_untouched hsteady hsecluded rfl fun d hd => ?_
    rcases List.mem_cons.mp hd with rfl | hd
    · exact ⟨htask, rfl⟩
    · obtain rfl := List.mem_singleton.mp hd
      exact ⟨mild, rfl⟩

/-- A round begins: whoever is attached listens, and is to be called. -/
theorem of_begins (h : Mirrored app start b ⟨.rounds b [] :: rest, w⟩) :
    Mirrored app start b ⟨[.rounds b (w.listeners b)] ++ rest, w.inRound b⟩ := by
  -- Who listens is registered, and only they are after the round has begun.
  have hlisteners (x : WatcherId) (hx : x ∈ w.listeners b) : w.Registered b x := by
    rw [World.listeners] at hx
    cases hb : w.binding? b with
    | none => rw [hb] at hx; cases hx
    | some binding =>
        rw [hb] at hx
        exact ⟨binding, hb, (List.mem_filter.mp hx).1⟩
  have hregistered (x : WatcherId) (hx : (w.inRound b).Registered b x) : x ∈ w.listeners b := by
    obtain ⟨after, hafter, hx⟩ := hx
    rw [World.binding?_inRound_self] at hafter
    obtain ⟨binding, hbinding, rfl⟩ := Option.map_eq_some_iff.mp hafter
    rw [World.listeners, hbinding]
    exact hx
  refine ⟨?_, ?_, ?_, trans_of (World.Secluded b) h.secluded (.inRound w b)⟩
  · intro d hd
    rcases List.mem_cons.mp hd with rfl | hd
    · exact .inl rfl
    · exact h.mild d (List.mem_cons_of_mem _ hd)
  · intro x code hx hcode
    refine h.callbacks x code ?_ hcode
    rcases hx with hx | ⟨d, hd, hx⟩
    · exact .inl (hlisteners x (hregistered x hx))
    · rcases List.mem_cons.mp hd with rfl | hd
      · exact .inl (hlisteners x hx)
      · exact .inr ⟨d, List.mem_cons_of_mem _ hd, hx⟩
  · intro x copy ha
    exact .inl (.inr ⟨_, List.mem_cons_self, hregistered x ha.registered⟩)

/-- A round of another binding has nobody to call. -/
theorem of_begins_of_ne {c : BindingId} (h : Mirrored app start b ⟨.rounds c [] :: rest, w⟩)
    (hne : c ≠ b) (unheard : start.Unheard c) :
    Mirrored app start b ⟨[.rounds c (w.listeners c)] ++ rest, w.inRound c⟩ := by
  have hnobody : w.listeners c = [] := (h.secluded.unheard hne unheard).listeners
  refine h.of_untouched (.inRound_of_ne w hne) (.inRound w c) rfl ?_
  exact List.forall_mem_singleton.mpr ⟨.inr ⟨unheard, hnobody⟩, hnobody⟩

/-- Rounds end: there is nobody left to call. -/
theorem of_settles {c : BindingId} (h : Mirrored app start b ⟨.rounds c [] :: rest, w⟩) :
    Mirrored app start b ⟨[] ++ rest, w.settled c⟩ := by
  refine h.of_untouched ?_ (.settled w c) rfl (List.forall_mem_nil _)
  by_cases hc : c = b
  · subst hc
    exact .settled w c
  · exact .settled_of_ne w hc

/-- The call of a watcher ends. -/
theorem of_release {x : WatcherId} {watchers : List WatcherId}
    (h : Mirrored app start b ⟨.release x b watchers :: rest, w⟩) :
    Mirrored app start b ⟨[.rounds b watchers] ++ rest, w.released x b⟩ := by
  have hsteady : w.Steady b (fun _ => False) (w.released x b) := .released w x b
  refine h.of_steady hsteady (.released w x b) ?_ ?_ ?_
  · simp [Duty.Mild]
  · simp [Duty.yet]
  · intro y copy ha
    exact .inr ⟨hsteady.attached id ha, fun hy => ⟨_, List.mem_cons_self, hy⟩⟩

/-- A step of a callback. -/
theorem of_advance {program : Program κ ρ Unit} (h : Mirrored app start b ⟨.run program :: rest, w⟩)
    (run : program.advance w = .ok (left, w')) : Mirrored app start b ⟨left ++ rest, w'⟩ := by
  have hmild : program.Mild app start b := h.mild _ List.mem_cons_self
  cases hmild with
  | done =>
      obtain ⟨rfl, rfl⟩ := pure_eq_ok.mp run
      exact h.of_untouched (refl_of (World.Steady b _) w) (refl_of (World.Secluded b) w) rfl
        (List.forall_mem_nil _)
  | note hnext =>
      obtain ⟨_, v, hfirst, hpure⟩ := bind_eq_ok.mp run
      obtain ⟨rfl, rfl⟩ := pure_eq_ok.mp hpure
      exact h.of_run (note_steady _ hfirst) (note_respects _ hfirst) hnext
  | invalidate hnext =>
      obtain ⟨_, v, hfirst, hpure⟩ := bind_eq_ok.mp run
      obtain ⟨rfl, rfl⟩ := pure_eq_ok.mp hpure
      exact h.of_run (invalidate_steady _ hfirst) (invalidate_respects _ hfirst) hnext
  | send hnext =>
      obtain ⟨_, v, hfirst, hpure⟩ := bind_eq_ok.mp run
      obtain ⟨rfl, rfl⟩ := pure_eq_ok.mp hpure
      exact h.of_run (send_steady _ hfirst) (send_respects _ hfirst) hnext
  | read hnext | keeps hnext | title hnext | find hnext =>
      obtain ⟨_, v, hfirst, hpure⟩ := bind_eq_ok.mp run
      obtain ⟨rfl, rfl⟩ := get_eq_ok.mp hfirst
      obtain ⟨rfl, rfl⟩ := pure_eq_ok.mp hpure
      exact h.of_run (refl_of (World.Steady b _) w) (refl_of (World.Secluded b) w) (hnext _)
  | handle hnext =>
      obtain ⟨_, v, hfirst, hpure⟩ := bind_eq_ok.mp run
      obtain ⟨rfl, rfl⟩ := pure_eq_ok.mp hpure
      exact h.of_run (handle?_steady _ _ hfirst) (handle?_respects _ _ hfirst) (hnext _)
  | tryLock hnext =>
      obtain ⟨_, v, hfirst, hpure⟩ := bind_eq_ok.mp run
      obtain ⟨rfl, rfl⟩ := pure_eq_ok.mp hpure
      exact h.of_run (canLock_steady _ hfirst) (canLock_respects _ hfirst) (hnext _)
  | edit hnext =>
      obtain ⟨_, v, hfirst, hpure⟩ := bind_eq_ok.mp run
      obtain ⟨rfl, rfl⟩ := pure_eq_ok.mp hpure
      exact h.of_edit hnext hfirst
  | set hnext =>
      obtain ⟨⟨changed, rounds⟩, v, hassign, hpure⟩ := bind_eq_ok.mp run
      obtain ⟨rfl, rfl⟩ := pure_eq_ok.mp hpure
      exact h.of_set hnext hassign
  | @jot c _ _ unheard hnext =>
      obtain ⟨⟨changed, rounds⟩, v, hassign, hpure⟩ := bind_eq_ok.mp run
      obtain ⟨rfl, rfl⟩ := pure_eq_ok.mp hpure
      by_cases hc : c = b
      · subst hc
        exact h.of_set hnext hassign
      · exact h.of_jot hc unheard hnext hassign
  | defer waits hnext =>
      obtain ⟨tasks, v, henqueue, hpure⟩ := bind_eq_ok.mp run
      obtain ⟨rfl, rfl⟩ := pure_eq_ok.mp hpure
      exact h.of_defer (fun hno => absurd waits hno) hnext henqueue
  | doNow htask hnext =>
      obtain ⟨tasks, v, henqueue, hpure⟩ := bind_eq_ok.mp run
      obtain ⟨rfl, rfl⟩ := pure_eq_ok.mp hpure
      exact h.of_defer (fun _ => htask) hnext henqueue

/-- A step keeps every mirror in accord that owes nothing. -/
theorem next (h : m.Mirrored app start b) (hnext : Next app m m') : m'.Mirrored app start b := by
  obtain @⟨duty, rest, left, w, w', run⟩ := hnext
  have hmild := h.mild duty List.mem_cons_self
  cases duty with
  | run program => exact h.of_advance run
  | rounds c watchers =>
      cases watchers with
      | nil =>
          -- With nobody left to call, a round begins or the rounds end.
          cases Duty.effect_of_discharge run with
          | begins =>
              by_cases hc : c = b
              · subst hc
                exact h.of_begins
              · exact h.of_begins_of_ne hc (hmild.resolve_left hc).1
          | settles => exact h.of_settles
          | still duty_binding | opens duty_binding | postpones duty_binding => cases duty_binding
      | cons x rest =>
          obtain rfl : c = b := hmild.resolve_right fun hnobody => nomatch hnobody.2
          obtain ⟨program, v, hcall, hpure⟩ := bind_eq_ok.mp run
          obtain ⟨rfl, rfl⟩ := pure_eq_ok.mp hpure
          exact h.of_call hcall
  | release x c watchers =>
      obtain rfl : c = b := hmild
      cases Duty.effect_of_discharge run with
      | releases => exact h.of_release
      | still duty_binding | opens duty_binding | postpones duty_binding => cases duty_binding
  | task task =>
      cases task with
      | run code =>
          obtain ⟨rfl, rfl⟩ := pure_eq_ok.mp run
          exact h.of_untouched (refl_of (World.Steady b _) w) (refl_of (World.Secluded b) w) rfl
            (List.forall_mem_singleton.mpr ⟨hmild, rfl⟩)
      | edit e kind call reply => exact hmild.elim
  | unlock e => exact hmild.elim

theorem reaches (h : m.Mirrored app start b) (run : Reaches app m m') :
    m'.Mirrored app start b := by
  induction run with
  | refl => exact h
  | tail _ hnext ih => exact ih.next hnext

end Moment.Mirrored

end Accord

end Trellis
