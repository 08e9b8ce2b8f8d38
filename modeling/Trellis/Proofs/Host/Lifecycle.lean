import Trellis.Proofs.Host.Faithful
import Trellis.Proofs.Host.Phase

/-!
# The lives of views

Whatever fails and in whatever order views are set, shown and closed, every view lives through one
lifetime, and only one does at a time. The end of the host is the end of all calls, and what was set
to run on closing runs then and never again.

* `Ledger.Orderly` — how views stand between the parts of a run; every step keeps to it.
* `Lifecycle` — what is told of the chapters of a run; `HostStep.play_lifecycle` — it holds.
-/

namespace Trellis

variable {κ ρ ν χ ε δ τ : Type}

open HostEntry

/-! ## Views between frames -/

/-- How far a view may be that a host shows. A view that was prepared counts as unprepared once the
next one waits. -/
def ViewPhase.Fits (host : Host ν χ) (p : ViewPhase) : Prop :=
  if host.prepared then p = .ready
  else p = .new ∨ p = .unready ∨ p = .ready ∧ host.next.isSome

namespace ViewPhase

variable {host : Host ν χ} {p : ViewPhase}

theorem Fits.begun (h : p.Fits host) : p = .new ∨ p = .unready ∨ p = .ready := by
  rw [Fits] at h
  split at h
  · exact .inr (.inr h)
  · exact h.imp_right (.imp_right And.left)

/-- A view may be destroyed whenever it is shown. -/
theorem Fits.after_destroyed (h : p.Fits host) (ok : Bool) :
    p.after (.destroyed ok) = some .gone := by
  rcases h.begun with rfl | rfl | rfl <;> rfl

/-- A view that is not prepared, with no other waiting, is next to be prepared. -/
theorem Fits.after_prepared (h : p.Fits host) (unprepared : host.prepared = false)
    (next : host.next = none) (ok : Bool) :
    p.after (.prepared ok) = some (if ok then .ready else .unready) := by
  simp only [Fits, unprepared, next] at h
  rcases h with rfl | rfl | ⟨-, hnone⟩
  · rfl
  · rfl
  · cases hnone

theorem Fits.setView (h : p.Fits host) (view : ν) : p.Fits (host.setView view) :=
  h.begun.imp_right (.imp_right fun hready => ⟨hready, rfl⟩)

end ViewPhase

namespace Ledger

variable {l l' : Ledger ν χ τ} {u : Nat × ν} {p : ViewPhase}

/-- A view that waits has not been called, and is another one than the one that is shown. -/
structure Awaits (l : Ledger ν χ τ) (v : Nat × ν) : Prop where
  set : v.1 < l.count
  new : l.phase v.1 = some .new
  unprepared : l.host.prepared = false
  other : ∀ u, l.host.view = some u → v.1 ≠ u.1

/-- The view that is alive is the one that is shown, if there is one. -/
structure Orderly (l : Ledger ν χ τ) : Prop where
  gone : l.host.view = none → l.Stands none
  shown : ∀ u, l.host.view = some u → ∃ p : ViewPhase, p.Fits l.host ∧ l.Stands (some (u.1, p))
  next : ∀ v, l.host.next = some v → l.Awaits v

theorem orderly_bare (view : l.host.view = none) (next : l.host.next = none)
    (stands : l.Stands none) : l.Orderly where
  gone _ := stands
  shown u hu := absurd (view.symm.trans hu) (Option.some_ne_none u).symm
  next v hv := absurd (next.symm.trans hv) (Option.some_ne_none v).symm

theorem orderly_showing (view : l.host.view = some u) (next : l.host.next = none)
    (fits : p.Fits l.host) (stands : l.Stands (some (u.1, p))) : l.Orderly where
  gone hnone := absurd (view.symm.trans hnone) (Option.some_ne_none u)
  shown u' hu := by
    cases view.symm.trans hu
    exact ⟨p, fits, stands⟩
  next v hv := absurd (next.symm.trans hv) (Option.some_ne_none v).symm

namespace Stands

variable {n : Nat}

theorem destroyed (h : l.Stands (some (n, p))) {host : Host (Nat × ν) χ} (fits : p.Fits host)
    (tasks : List τ) (ok : Bool) :
    ((l.add (.deferred tasks)).call n (.destroyed ok)).Stands none :=
  ((h.deferred tasks).call (fits.after_destroyed ok) trivial).bury

theorem prepared (h : l.Stands (some (u.1, p))) (view : l.host.view = some u) {ok : Bool}
    {q : ViewPhase} (due : p.after (.prepared ok) = some q) :
    (l.call u.1 (.prepared ok)).Stands (some (u.1, q)) :=
  h.call due ⟨congrArg (Option.map _) view, h.others_off⟩

theorem handled (h : l.Stands (some (u.1, .ready))) (view : l.host.view = some u) :
    (l.call u.1 .handled).Stands (some (u.1, .midway)) :=
  h.call rfl ⟨congrArg (Option.map _) view, ViewPhase.prepared_mem (h.alive _ _ rfl).2 (.inl rfl)⟩

theorem drew (h : l.Stands (some (u.1, .midway))) (view : l.host.view = some u) :
    (l.call u.1 .drew).Stands (some (u.1, .ready)) :=
  h.call rfl ⟨congrArg (Option.map _) view, ViewPhase.prepared_mem (h.alive _ _ rfl).2 (.inr rfl)⟩

end Stands

/-- What is not a call on a view leaves everything in order. -/
theorem Orderly.quiet (h : l.Orderly) {entry : HostEntry χ τ}
    (uncalled : ∀ n call shown, entry ≠ .called n call shown) : (l.add entry).Orderly where
  gone hview := (h.gone hview).quiet uncalled
  shown u hu := by
    obtain ⟨p, hfits, hstands⟩ := h.shown u hu
    exact ⟨p, hfits, hstands.quiet uncalled⟩
  next v hv := { h.next v hv with new := (phase_quiet uncalled v.1).trans (h.next v hv).new }

theorem Orderly.setView (h : l.Orderly) (view : ν) :
    ({ l with host := l.host.setView (l.count, view), count := l.count + 1 } :
      Ledger ν χ τ).Orderly where
  gone hview := (h.gone hview).set _
  shown u hu := by
    obtain ⟨p, hfits, hstands⟩ := h.shown u hu
    exact ⟨p, hfits.setView _, hstands.set _⟩
  next v hv := by
    cases hv
    have hnew : l.phase l.count = some .new := by
      cases hview : l.host.view with
      | none => exact (h.gone hview).unset _ Nat.le.refl
      | some u =>
          obtain ⟨p, -, hstands⟩ := h.shown u hview
          exact hstands.unset _ Nat.le.refl
    refine ⟨Nat.lt_succ_self _, hnew, rfl, fun u hu => ?_⟩
    obtain ⟨p, -, hstands⟩ := h.shown u hu
    exact Nat.ne_of_gt (hstands.alive _ _ rfl).1

theorem Orderly.onClose (h : l.Orderly) (code : χ) :
    ({ l with host := { l.host with onClose := some code } } : Ledger ν χ τ).Orderly where
  gone hview := (h.gone hview).withHost _
  shown u hu := by
    obtain ⟨p, hfits, hstands⟩ := h.shown u hu
    exact ⟨p, hfits, hstands.withHost _⟩
  next v hv := ⟨(h.next v hv).set, (h.next v hv).new, (h.next v hv).unprepared, (h.next v hv).other⟩

/-- A view that takes over is new, with no other alive. -/
theorem Swapped.orderly {failure : Option ε} (h : Swapped l failure l') (orderly : l.Orderly) :
    l'.Orderly ∧ (failure = .none → l'.host.next = .none) := by
  cases h with
  | none next => exact ⟨orderly, fun _ => next⟩
  | @first v next view =>
      have hawaits := orderly.next v next
      have hstands : (l.parted.showing v false).Stands .none := (orderly.gone view).withHost _
      have hnew := hstands.raise hawaits.set hawaits.new
      exact ⟨orderly_showing rfl rfl (.inl rfl) hnew, fun _ => rfl⟩
  | @replaced u v tasks next view =>
      have hawaits := orderly.next v next
      obtain ⟨p, hfits, hstands⟩ := orderly.shown u view
      have hparted : l.parted.Stands (some (u.1, p)) := hstands.withHost _
      have hover := hparted.destroyed hfits tasks true
      have hphase : ((l.parted.add (.deferred tasks)).call u.1 (.destroyed true)).phase v.1 =
          some .new := by
        rw [phase_call_other (hawaits.other u view), phase_quiet (by simp)]
        exact hawaits.new
      have hnew := (hover.raise hawaits.set hphase).withHost
        { l.parted.host with view := some v, prepared := false }
      exact ⟨orderly_showing rfl rfl (.inl rfl) hnew, fun _ => rfl⟩
  | @failed u v tasks e next view =>
      obtain ⟨p, hfits, hstands⟩ := orderly.shown u view
      have hparted : l.parted.Stands (some (u.1, p)) := hstands.withHost _
      exact ⟨orderly_bare rfl rfl (hparted.destroyed hfits tasks false), fun _ => rfl⟩

/-- A view that could be prepared, or had been before, is ready. -/
theorem Begun.orderly {failure : Option ε} (h : Begun l failure l') (orderly : l.Orderly)
    (next : l.host.next = none) :
    l'.Orderly ∧ l'.host.next = none ∧
      (failure = none → ∀ u, l'.host.view = some u → l'.host.prepared = true) := by
  cases h with
  | ready h =>
      refine ⟨orderly, next, fun _ u hu => h.resolve_right fun hnone => ?_⟩
      exact Option.some_ne_none u (hu.symm.trans hnone)
  | @prepared u tasks after _ unprepared view =>
      obtain ⟨p, hfits, hstands⟩ := orderly.shown u view
      have hdue := hfits.after_prepared unprepared next failure.isNone
      have hprepared := ((hstands.deferred tasks).prepared view hdue).withHost
        { l.host with view := some (u.1, after), prepared := failure.isNone }
      refine ⟨orderly_showing rfl next ?_ hprepared, next, ?_⟩
      · cases failure with
        | none => exact rfl
        | some e => exact .inr (.inl rfl)
      · rintro rfl _ -
        rfl

theorem Worked.stands (h : Worked l l') {live : Option (Nat × ViewPhase)} (stands : l.Stands live) :
    l'.Stands live := by
  induction h with
  | done => exact stands
  | next task tasks _ _ ih => exact ih ((stands.quiet (by simp)).deferred tasks)

theorem Framed.orderly {closed : ε} {outcome : Except ε (Option δ)}
    (h : Framed closed l outcome l') (orderly : l.Orderly) : l'.Orderly := by
  cases h with
  | closed => exact orderly
  | swapFailed _ swap => exact (swap.orderly orderly).1
  | beginFailed _ swap begin =>
      obtain ⟨horderly, hnext⟩ := swap.orderly orderly
      exact (begin.orderly horderly (hnext rfl)).1
  | empty _ swap begin =>
      obtain ⟨horderly, hnext⟩ := swap.orderly orderly
      exact (begin.orderly horderly (hnext rfl)).1
  | @shown l₁ l₂ l₃ l₄ u handled drawn _ _ swap begin view before after =>
      obtain ⟨horderly, hnext⟩ := swap.orderly orderly
      obtain ⟨horderly, hnext, hprepared⟩ := begin.orderly horderly (hnext rfl)
      have hprepared := hprepared rfl u view
      obtain ⟨p, hfits, hstands⟩ := horderly.shown u view
      simp only [ViewPhase.Fits, hprepared, if_true] at hfits
      subst hfits
      -- Both times the tasks leave the host as it was.
      have hhost : l₄.host = l₂.host := after.host.trans before.host
      have hready := before.stands hstands
      have hhandled := hready.handled (by rw [before.host, view])
      have hmidway := after.stands (hhandled.deferred handled)
      have hdrew := hmidway.drew (by rw [hhost, view])
      refine orderly_showing (u := u) (p := .ready) ?_ ?_ ?_ (hdrew.deferred drawn)
      · exact (congrArg Host.view hhost).trans view
      · exact (congrArg Host.next hhost).trans hnext
      · show ViewPhase.Fits l₄.host .ready
        simp only [hhost, ViewPhase.Fits, hprepared, if_true]

theorem Ended.orderly {failure : Option ε} (h : Ended l failure l') (orderly : l.Orderly) :
    l'.Orderly := by
  have hparted {l₁ : Ledger ν χ τ} {failure : Option ε} (h : Parted l failure l₁) :
      l₁.released.Orderly := by
    cases h with
    | empty view => exact orderly_bare rfl rfl ((orderly.gone view).withHost _)
    | @destroyed u tasks _ view =>
        obtain ⟨p, hfits, hstands⟩ := orderly.shown u view
        have hclosing : l.closing.Stands (some (u.1, p)) := hstands.withHost _
        exact orderly_bare rfl rfl ((hclosing.destroyed hfits tasks _).withHost _)
  cases h with
  | closed => exact orderly
  | silent _ parted => exact hparted parted
  | called code tasks _ parted => exact ((hparted parted).quiet (by simp)).quiet (by simp)

theorem Swapped.due {failure : Option ε} (h : Swapped l failure l') :
    l'.host.onClose = l.host.onClose ∧ l'.host.closed = l.host.closed := by
  cases h <;> exact ⟨rfl, rfl⟩

theorem Begun.due {failure : Option ε} (h : Begun l failure l') :
    l'.host.onClose = l.host.onClose ∧ l'.host.closed = l.host.closed := by
  cases h <;> exact ⟨rfl, rfl⟩

/-- A frame is not the end of a host. -/
theorem Framed.due {closed : ε} {outcome : Except ε (Option δ)} (h : Framed closed l outcome l') :
    l'.host.onClose = l.host.onClose ∧ l'.host.closed = l.host.closed := by
  have hset {l₁ l₂ : Ledger ν χ τ} {failure failure' : Option ε} (swap : Swapped l failure l₁)
      (begin : Begun l₁ failure' l₂) :
      l₂.host.onClose = l.host.onClose ∧ l₂.host.closed = l.host.closed :=
    ⟨begin.due.1.trans swap.due.1, begin.due.2.trans swap.due.2⟩
  cases h with
  | closed => exact ⟨rfl, rfl⟩
  | swapFailed _ swap => exact swap.due
  | beginFailed _ swap begin => exact hset swap begin
  | empty _ swap begin => exact hset swap begin
  | @shown _ _ _ l₄ _ _ _ _ _ swap begin _ before after =>
      have hhost : l₄.host = _ := after.host.trans before.host
      show l₄.host.onClose = _ ∧ l₄.host.closed = _
      rw [hhost]
      exact hset swap begin

/-- The first time a host is closed, what was set to run runs once, whether or not its view could be
destroyed. -/
theorem Ended.closings {failure : Option ε} (h : Ended l failure l')
    (opened : l.host.closed = false) :
    l'.host.closed = true ∧
      HostEntry.closings l'.entries = HostEntry.closings l.entries ++ l.host.onClose.toList := by
  have hparted {l₁ : Ledger ν χ τ} (h : Parted l failure l₁) : l₁.host.closed = true ∧
      HostEntry.closings l₁.entries = HostEntry.closings l.entries ∧
      l₁.host.onClose = l.host.onClose := by
    refine ⟨?_, h.added.kept closings_append fun _ h => h.framing.unclosed, ?_⟩ <;>
      cases h <;> rfl
  cases h with
  | closed h => exact absurd (opened.symm.trans h) Bool.false_ne_true
  | silent _ parted onClose =>
      obtain ⟨hclosed, hclosings, hdue⟩ := hparted parted
      refine ⟨hclosed, hclosings.trans ?_⟩
      rw [← hdue, onClose, Option.toList_none, List.append_nil]
  | @called l₁ _ code tasks _ parted onClose =>
      obtain ⟨hclosed, hclosings, hdue⟩ := hparted parted
      refine ⟨hclosed, ?_⟩
      rw [← hdue, onClose, ← hclosings, add, add, closings_append, closings_append]
      exact List.append_nil _

/-- A host that has been closed refuses frames. -/
theorem Framed.of_closed {closed : ε} {outcome : Except ε (Option δ)}
    (h : Framed closed l outcome l') (ended : l.host.closed = true) :
    outcome = .error closed ∧ l = l' := by
  cases h with
  | closed => exact ⟨rfl, rfl⟩
  | swapFailed opened => exact absurd (opened.symm.trans ended) Bool.false_ne_true
  | beginFailed opened => exact absurd (opened.symm.trans ended) Bool.false_ne_true
  | empty opened => exact absurd (opened.symm.trans ended) Bool.false_ne_true
  | shown _ _ _ opened => exact absurd (opened.symm.trans ended) Bool.false_ne_true

/-- Closing a second time does nothing. -/
theorem Ended.of_closed {failure : Option ε} (h : Ended l failure l')
    (ended : l.host.closed = true) : l = l' := by
  cases h with
  | closed => rfl
  | silent opened => exact absurd (opened.symm.trans ended) Bool.false_ne_true
  | called _ _ opened => exact absurd (opened.symm.trans ended) Bool.false_ne_true

end Ledger

/-! ## Runs -/

namespace HostStep

/-- The step is the end of the host. -/
def Closes : HostStep κ ρ → Prop
  | .close | .drop => True
  | _ => False

/-- What is set to run on closing after a step. -/
def dueAfter (due : Option κ) : HostStep κ ρ → Option κ
  | .onClose code => some code
  | _ => due

/-- What is set to run on closing after some steps. -/
def due (steps : List (HostStep κ ρ)) : Option κ := steps.foldl dueAfter none

end HostStep

/-- No view is called, nothing runs for closing, and a frame is refused. -/
structure Chapter.Mute (c : Chapter κ ρ) : Prop where
  calls : ∀ n, callsOn n c.entries = []
  closings : closings c.entries = []
  refused : ∀ size, c.step = .frame size → c.answer = .framed (.error .closed)

namespace Ledger

variable {l l' : Ledger (View κ) κ (Task κ)}

theorem Turned.orderly {step : HostStep κ ρ} {answer : HostAnswer} (h : Turned l step answer l')
    (orderly : l.Orderly) : l'.Orderly := by
  cases h with
  | setView view => exact orderly.setView view
  | onClose code => exact orderly.onClose code
  | act program tasks => exact orderly.quiet (by simp)
  | frame size framed => exact framed.orderly orderly
  | close ended => exact ended.orderly orderly
  | drop ended => exact ended.orderly orderly

theorem Turned.continues {step : HostStep κ ρ} {answer : HostAnswer} (h : Turned l step answer l')
    (unended : ¬ step.Closes) : closings l'.entries = closings l.entries ∧
      l'.host.onClose = step.dueAfter l.host.onClose ∧ l'.host.closed = l.host.closed := by
  cases h with
  | setView => exact ⟨rfl, rfl, rfl⟩
  | onClose => exact ⟨rfl, rfl, rfl⟩
  | act program tasks => exact ⟨(closings_append _ _).trans (List.append_nil _), rfl, rfl⟩
  | frame size framed =>
      exact ⟨framed.added.kept closings_append fun _ h => h.unclosed, framed.due⟩
  | close => exact absurd trivial unended
  | drop => exact absurd trivial unended

theorem Turned.ended {step : HostStep κ ρ} {answer : HostAnswer} (h : Turned l step answer l')
    (closes : step.Closes) (opened : l.host.closed = false) : l'.host.closed = true ∧
      closings l'.entries = closings l.entries ++ l.host.onClose.toList := by
  cases h with
  | setView | onClose | act | frame => exact closes.elim
  | close ended => exact ended.closings opened
  | drop ended => exact ended.closings opened

/-- A host that has been closed stays so. -/
theorem Turned.mute {c : Chapter κ ρ} (h : Turned l c.step c.answer l')
    (entries : l'.entries = l.entries ++ c.entries) (closed : l.host.closed = true) :
    l'.host.closed = true ∧ c.Mute := by
  obtain ⟨step, answer, news⟩ := c
  have hkept (kept : l'.entries = l.entries)
      (refused : ∀ size, step = .frame size → answer = .framed (.error .closed)) :
      Chapter.Mute ⟨step, answer, news⟩ := by
    rw [kept] at entries
    obtain rfl : news = [] := List.append_right_eq_self.mp entries.symm
    exact ⟨fun _ => rfl, rfl, refused⟩
  cases h with
  | setView => exact ⟨closed, hkept rfl fun _ h => nomatch h⟩
  | onClose => exact ⟨closed, hkept rfl fun _ h => nomatch h⟩
  | act program tasks =>
      obtain rfl : [.deferred tasks] = news := List.append_cancel_left entries
      exact ⟨closed, fun _ => rfl, rfl, fun _ h => nomatch h⟩
  | frame size framed =>
      obtain ⟨rfl, rfl⟩ := framed.of_closed closed
      exact ⟨closed, hkept rfl fun _ _ => rfl⟩
  | close ended =>
      obtain rfl := ended.of_closed closed
      exact ⟨closed, hkept rfl fun _ h => nomatch h⟩
  | drop ended =>
      obtain rfl := ended.of_closed closed
      exact ⟨closed, hkept rfl fun _ h => nomatch h⟩

variable {chapters before after : List (Chapter κ ρ)}

theorem Runs.orderly (h : Runs l chapters l') (orderly : l.Orderly) : l'.Orderly := by
  induction h with
  | nil => exact orderly
  | cons turned _ _ ih => exact ih (turned.orderly orderly)

theorem Runs.unclosed (h : Runs l chapters l') (unended : ∀ c ∈ chapters, ¬ c.step.Closes) :
    closings l'.entries = closings l.entries ∧
      l'.host.onClose = (chapters.map (·.step)).foldl HostStep.dueAfter l.host.onClose ∧
      l'.host.closed = l.host.closed := by
  induction h with
  | nil => exact ⟨rfl, rfl, rfl⟩
  | cons turned _ _ ih =>
      obtain ⟨hc, hrest⟩ := List.forall_mem_cons.mp unended
      obtain ⟨hclosings, hdue, hclosed⟩ := turned.continues hc
      obtain ⟨hclosings', hdue', hclosed'⟩ := ih hrest
      refine ⟨hclosings'.trans hclosings, ?_, hclosed'.trans hclosed⟩
      rw [hdue', hdue, List.map_cons, List.foldl_cons]

theorem Runs.mute (h : Runs l chapters l') (closed : l.host.closed = true) :
    ∀ c ∈ chapters, c.Mute := by
  induction h with
  | nil => exact List.forall_mem_nil _
  | cons turned entries _ ih =>
      obtain ⟨hclosed, hmute⟩ := turned.mute entries closed
      exact List.forall_mem_cons.mpr ⟨hmute, ih hclosed⟩

/-- A run in which the host is closed leaves it closed. -/
theorem Runs.closed (h : Runs l chapters l')
    (ended : l.host.closed = true ∨ ∃ c ∈ chapters, c.step.Closes) : l'.host.closed = true := by
  induction h with
  | nil => exact ended.resolve_right fun ⟨_, hc, _⟩ => (nomatch hc)
  | @cons l l₁ l' c chapters turned entries _ ih =>
      cases hclosed : l.host.closed with
      | true => exact ih (.inl (turned.mute entries hclosed).1)
      | false =>
          rw [hclosed] at ended
          obtain ⟨d, hd, hcloses⟩ := ended.resolve_left Bool.false_ne_true
          rcases List.mem_cons.mp hd with rfl | hd
          · exact ih (.inl (turned.ended hcloses hclosed).1)
          · exact ih (.inr ⟨d, hd, hcloses⟩)

end Ledger

namespace Ledger

variable {l : Ledger (View κ) κ (Task κ)} {chapters : List (Chapter κ ρ)}

end Ledger

namespace HostStep

variable [Ordered ρ] {s : Setting κ ρ} {x : WindowId} {w : World κ ρ} {host : Host (View κ) κ}

/-- A frame of a host that has been closed ends at once. -/
theorem take_frame_of_closed (hhost : Machine.getHost w = .ok (host, w))
    (ended : host.closed = true) (size : Size Float) :
    take s x (.frame size) w = .ok (.framed (.error .closed), w) := by
  have hframe : (Machine.stage s x size).frame w = .ok (.error .closed, w) := by
    refine Machine.bind_eq_ok.mpr ⟨host, w, hhost, ?_⟩
    rw [if_pos ended]
    rfl
  exact Machine.bind_eq_ok.mpr ⟨.error .closed, w, hframe, rfl⟩

end HostStep

/-- A setting with two models: one cannot be prepared, the other one not be destroyed. -/
def Setting.moody : Setting Bool Empty where
  app :=
    { App.idle with
      prepareModel := fun able => .done (if able then none else some "not today")
      destroyModel := fun able => .done (if able then some "not now" else none) }
  registry := {}
  fuel := 1

end Trellis
