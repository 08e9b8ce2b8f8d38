import Trellis.Proofs.Host.Outcome

/-!
# Runs of a host, chapter by chapter

Every step of a run adds a chapter to the ledger. What a run can be is told by what each of its
steps can be.

* `HostEntry.Added` — only entries of one kind have been added, as each part of a step does.
* `Ledger.Turned` — the ways in which a step comes out.
* `Ledger.Runs` — runs of such steps.
* `HostStep.chronicle_runs` — what is written down of a run is one of these.
-/

namespace Trellis

variable {κ ρ ν χ ε δ τ : Type}

/-! ## What the parts of a step write down -/

namespace HostEntry

/-- Entries of one kind have been added, and no others. -/
def Added (kind : HostEntry χ τ → Prop) (entries later : List (HostEntry χ τ)) : Prop :=
  ∃ news, entries ++ news = later ∧ ∀ entry ∈ news, kind entry

/-- What is written down while views are swapped, prepared and destroyed. -/
def Setup : HostEntry χ τ → Prop
  | .called _ (.prepared _) _ | .called _ (.destroyed _) _ | .deferred _ => True
  | _ => False

/-- What is written down while tasks run. -/
def Work : HostEntry χ τ → Prop
  | .started _ | .deferred _ => True
  | _ => False

/-- What is written down in a frame. -/
def Framing : HostEntry χ τ → Prop
  | .closing _ => False
  | _ => True

/-- What is written down when no view is shown, or the host is closed. -/
def Quiet : HostEntry χ τ → Prop
  | .started _ | .called _ .handled _ | .called _ .drew _ => False
  | _ => True

theorem Setup.framing {entry : HostEntry χ τ} (h : entry.Setup) : entry.Framing := by
  cases entry with
  | closing => exact h
  | called | deferred | started => trivial

theorem Work.framing {entry : HostEntry χ τ} (h : entry.Work) : entry.Framing := by
  cases entry with
  | closing => exact h
  | called | deferred | started => trivial

theorem Framing.unclosed {entry : HostEntry χ τ} (h : entry.Framing) : closings [entry] = [] := by
  cases entry with
  | closing => exact h.elim
  | called | deferred | started => rfl

theorem Quiet.unstarted {entry : HostEntry χ τ} (h : entry.Quiet) : starts [entry] = [] := by
  cases entry with
  | started => exact h.elim
  | called | closing | deferred => rfl

theorem Setup.quiet {entry : HostEntry χ τ} (h : entry.Setup) : entry.Quiet := by
  cases entry with
  | called n call => cases call <;> exact h
  | closing | deferred => trivial
  | started => exact h

namespace Added

variable {kind weaker : HostEntry χ τ → Prop} {entries later last : List (HostEntry χ τ)}

theorem refl (entries : List (HostEntry χ τ)) : Added kind entries entries :=
  ⟨[], List.append_nil _, List.forall_mem_nil _⟩

theorem single {entry : HostEntry χ τ} (h : kind entry) : Added kind entries (entries ++ [entry]) :=
  ⟨[entry], rfl, List.forall_mem_singleton.mpr h⟩

theorem trans (h : Added kind entries later) (h' : Added kind later last) :
    Added kind entries last := by
  obtain ⟨news, rfl, hnews⟩ := h
  obtain ⟨more, rfl, hmore⟩ := h'
  exact ⟨news ++ more, (List.append_assoc ..).symm, List.forall_mem_append.mpr ⟨hnews, hmore⟩⟩

theorem mono (h : Added kind entries later) (weaken : ∀ ⦃entry⦄, kind entry → weaker entry) :
    Added weaker entries later := by
  obtain ⟨news, hlater, hnews⟩ := h
  exact ⟨news, hlater, fun entry hentry => weaken (hnews entry hentry)⟩

theorem grows (h : Added kind entries later) : entries <+: later := by
  obtain ⟨news, rfl, -⟩ := h
  exact List.prefix_append _ _

/-- What is not read off entries of the kind is what it was before. -/
theorem kept {β : Type} {read : List (HostEntry χ τ) → List β} (h : Added kind entries later)
    (append : ∀ entries later, read (entries ++ later) = read entries ++ read later)
    (unread : ∀ ⦃entry⦄, kind entry → read [entry] = []) : read later = read entries := by
  obtain ⟨news, rfl, hnews⟩ := h
  induction news generalizing entries with
  | nil => rw [List.append_nil]
  | cons entry news ih =>
      obtain ⟨hentry, hrest⟩ := List.forall_mem_cons.mp hnews
      rw [← List.singleton_append, ← List.append_assoc, ih hrest, append, unread hentry,
        List.append_nil]

end Added

end HostEntry

namespace Ledger

open HostEntry

variable {l l' : Ledger ν χ τ}

/-- A call on a view and the tasks that were deferred in it, which are written down first. -/
theorem added_call {kind : HostEntry χ τ → Prop} (l : Ledger ν χ τ) {tasks : List τ} {n : Nat}
    {call : ViewCall} (htasks : kind (.deferred tasks))
    (hcall : ∀ shown, kind (.called n call shown)) :
    Added kind l.entries ((l.add (.deferred tasks)).call n call).entries :=
  (Added.single htasks).trans (.single (hcall _))

theorem Swapped.added {failure : Option ε} (h : Swapped l failure l') :
    Added Setup l.entries l'.entries := by
  cases h with
  | none | first => exact .refl _
  | replaced tasks | failed tasks => exact added_call l.parted trivial fun _ => trivial

theorem Begun.added {failure : Option ε} (h : Begun l failure l') :
    Added Setup l.entries l'.entries := by
  cases h with
  | ready => exact .refl _
  | prepared tasks => exact added_call l trivial fun _ => trivial

theorem Worked.added (h : Worked l l') : Added Work l.entries l'.entries := by
  induction h with
  | done => exact .refl _
  | @next l l' task tasks _ _ ih =>
      have hstarted : Added Work l.entries (l.add (.started task)).entries := .single trivial
      have hdeferred : Added Work (l.add (.started task)).entries
          ((l.add (.started task)).add (.deferred tasks)).entries := .single trivial
      exact hstarted.trans (hdeferred.trans ih)

/-- Running tasks leaves the host as it is. -/
theorem Worked.host (h : Worked l l') : l'.host = l.host := by
  induction h with
  | done => rfl
  | next _ _ _ _ ih => exact ih

theorem Framed.added {closed : ε} {outcome : Except ε (Option δ)}
    (h : Framed closed l outcome l') : Added Framing l.entries l'.entries := by
  have hset {l₁ l₂ : Ledger ν χ τ} {failure failure' : Option ε} (swap : Swapped l failure l₁)
      (begin : Begun l₁ failure' l₂) : Added Framing l.entries l₂.entries :=
    (swap.added.trans begin.added).mono fun _ => Setup.framing
  cases h with
  | closed => exact .refl _
  | swapFailed _ swap => exact swap.added.mono fun _ => Setup.framing
  | beginFailed _ swap begin => exact hset swap begin
  | empty _ swap begin => exact hset swap begin
  | @shown _ _ l₃ l₄ u handled drawn _ _ swap begin _ before after =>
      have hbefore := before.added.mono fun _ => Work.framing
      have hafter := after.added.mono fun _ => Work.framing
      have hhandled : Added Framing l₃.entries
          ((l₃.call u.1 .handled).add (.deferred handled)).entries :=
        (Added.single trivial).trans (.single trivial)
      refine (hset swap begin).trans (hbefore.trans (hhandled.trans (hafter.trans ?_)))
      exact (Added.single trivial).trans (.single trivial)

theorem Parted.added {failure : Option ε} (h : Parted l failure l') :
    Added Setup l.entries l'.entries := by
  cases h with
  | empty => exact .refl _
  | destroyed tasks => exact added_call l.closing trivial fun _ => trivial

theorem Ended.added {failure : Option ε} (h : Ended l failure l') :
    Added Quiet l.entries l'.entries := by
  cases h with
  | closed => exact .refl _
  | silent _ parted => exact parted.added.mono fun _ => Setup.quiet
  | @called l₁ _ code tasks _ parted =>
      have hclosing : Added Quiet l₁.entries
          ((l₁.released.add (.closing code)).add (.deferred tasks)).entries :=
        (Added.single trivial).trans (.single trivial)
      exact (parted.added.mono fun _ => Setup.quiet).trans hclosing

end Ledger

/-! ## Steps -/

namespace Ledger

/-- The ways in which a step comes out. -/
inductive Turned (l : Ledger (View κ) κ (Task κ)) :
    HostStep κ ρ → HostAnswer → Ledger (View κ) κ (Task κ) → Prop
  | setView (view : View κ) :
      Turned l (.setView view) .done
        { l with host := l.host.setView (l.count, view), count := l.count + 1 }
  | onClose (code : κ) :
      Turned l (.onClose code) .done { l with host := { l.host with onClose := some code } }
  | act (program : Program κ ρ Unit) (tasks : List (Task κ)) :
      Turned l (.act program) .done (l.add (.deferred tasks))
  | frame (size : Size Float) {outcome : Except ViewError (Option (List (DrawOp Float)))}
      {l' : Ledger (View κ) κ (Task κ)} (framed : Framed .closed l outcome l') :
      Turned l (.frame size) (.framed outcome) l'
  | close {failure : Option ViewError} {l' : Ledger (View κ) κ (Task κ)}
      (ended : Ended l failure l') : Turned l .close (.closed failure) l'
  | drop {failure : Option ViewError} {l' : Ledger (View κ) κ (Task κ)}
      (ended : Ended l failure l') : Turned l .drop .done l'

/-- Runs of steps. -/
inductive Runs : Ledger (View κ) κ (Task κ) → List (Chapter κ ρ) → Ledger (View κ) κ (Task κ) → Prop
  | nil (l : Ledger (View κ) κ (Task κ)) : Runs l [] l
  | cons {l l₁ l' : Ledger (View κ) κ (Task κ)} {chapter : Chapter κ ρ}
      {chapters : List (Chapter κ ρ)} (turned : Turned l chapter.step chapter.answer l₁)
      (entries : l₁.entries = l.entries ++ chapter.entries) (rest : Runs l₁ chapters l') :
      Runs l (chapter :: chapters) l'

variable {l l' : Ledger (View κ) κ (Task κ)}

theorem Turned.grows {step : HostStep κ ρ} {answer : HostAnswer} (h : Turned l step answer l') :
    l.entries <+: l'.entries := by
  cases h with
  | setView | onClose => exact List.prefix_rfl
  | act program tasks => exact List.prefix_append _ _
  | frame size framed => exact framed.added.grows
  | close ended => exact ended.added.grows
  | drop ended => exact ended.added.grows

/-- A ledger holds the chapters of its run, one after another. -/
theorem Runs.entries {chapters : List (Chapter κ ρ)} (h : Runs l chapters l') :
    l'.entries = l.entries ++ chapters.flatMap (·.entries) := by
  induction h with
  | nil => rw [List.flatMap_nil, List.append_nil]
  | cons _ entries _ ih => rw [ih, entries, List.flatMap_cons, List.append_assoc]

/-- A run can be told in two parts. -/
theorem Runs.split {before after : List (Chapter κ ρ)} (h : Runs l (before ++ after) l') :
    ∃ l₁, Runs l before l₁ ∧ Runs l₁ after l' := by
  induction before generalizing l with
  | nil => exact ⟨l, .nil l, h⟩
  | cons chapter before ih =>
      cases h with
      | cons turned entries rest =>
          obtain ⟨l₁, hbefore, hafter⟩ := ih rest
          exact ⟨l₁, .cons turned entries hbefore, hafter⟩

end Ledger

namespace HostStep

open Ledger Recorded

variable [Ordered ρ] {s : Setting κ ρ} {x : WindowId} {l l' : Ledger (View κ) κ (Task κ)}
  {w w' : World κ ρ}

/-- A step comes out in one of these ways. -/
theorem record_turned {step : HostStep κ ρ} {answer : HostAnswer}
    (run : record s x step l w = .ok ((answer, l'), w')) (tally : l.Tallies x w) :
    Turned l step answer l' ∧ l'.Tallies x w' := by
  cases step with
  | setView view =>
      obtain ⟨u, l₁, w₁, writing, run⟩ := bind_eq_ok.mp run
      obtain ⟨rfl, rfl⟩ := modify_eq_ok.mp writing
      obtain ⟨u, l₂, w₂, setting, run⟩ := bind_eq_ok.mp run
      obtain ⟨hset, rfl⟩ := lift_eq_ok.mp setting
      obtain ⟨rfl, rfl, rfl⟩ := pure_eq_ok.mp run
      obtain ⟨u, w₃, hmodify, hask⟩ := Machine.bind_eq_ok.mp hset
      cases hmodify
      obtain ⟨w₄, w₅, hget, hask⟩ := Machine.bind_eq_ok.mp hask
      cases hget
      have hkept := Machine.invalidate_respects (R := World.Undisturbed x) _ hask
      refine ⟨.setView view, ?_, hkept.queues tally.queues⟩
      exact tally.tasks.trans (congrArg _ (Machine.invalidate_waiting hask).symm)
  | onClose code =>
      obtain ⟨u, l₁, w₁, writing, run⟩ := bind_eq_ok.mp run
      obtain ⟨rfl, rfl⟩ := modify_eq_ok.mp writing
      obtain ⟨u, l₂, w₂, setting, run⟩ := bind_eq_ok.mp run
      obtain ⟨hset, rfl⟩ := lift_eq_ok.mp setting
      obtain ⟨rfl, rfl, rfl⟩ := pure_eq_ok.mp run
      cases hset
      exact ⟨.onClose code, tally.tasks, tally.queues⟩
  | act program =>
      obtain ⟨u, l₁, w₁, acting, run⟩ := bind_eq_ok.mp run
      obtain ⟨-, tasks, rfl, htally⟩ :=
        watching_outcome (program.run_respects (Machine.reentry_respects s)) acting tally
      obtain ⟨rfl, rfl, rfl⟩ := pure_eq_ok.mp run
      exact ⟨.act program tasks, htally⟩
  | frame size =>
      obtain ⟨outcome, l₁, w₁, framing, run⟩ := bind_eq_ok.mp run
      obtain ⟨rfl, rfl, rfl⟩ := pure_eq_ok.mp run
      obtain ⟨hframed, htally⟩ := frame_outcome framing tally
      exact ⟨.frame size hframed, htally⟩
  | close =>
      obtain ⟨failure, l₁, w₁, closing, run⟩ := bind_eq_ok.mp run
      obtain ⟨rfl, rfl, rfl⟩ := pure_eq_ok.mp run
      obtain ⟨hended, htally⟩ := close_outcome closing tally
      exact ⟨.close hended, htally⟩
  | drop =>
      obtain ⟨failure, l₁, w₁, closing, run⟩ := bind_eq_ok.mp run
      obtain ⟨rfl, rfl, rfl⟩ := pure_eq_ok.mp run
      obtain ⟨hended, htally⟩ := close_outcome closing tally
      exact ⟨.drop hended, htally⟩

theorem chapter_turned {step : HostStep κ ρ} {chapter : Chapter κ ρ}
    (run : HostStep.chapter s x step l w = .ok ((chapter, l'), w')) (tally : l.Tallies x w) :
    chapter.step = step ∧ Turned l chapter.step chapter.answer l' ∧
      l'.entries = l.entries ++ chapter.entries ∧ l'.Tallies x w' := by
  obtain ⟨before, l₁, w₁, looking, run⟩ := bind_eq_ok.mp run
  obtain ⟨rfl, rfl, rfl⟩ := get_eq_ok.mp looking
  obtain ⟨answer, l₂, w₂, recording, run⟩ := bind_eq_ok.mp run
  obtain ⟨hturned, htally⟩ := record_turned recording tally
  obtain ⟨after, l₃, w₃, looking, run⟩ := bind_eq_ok.mp run
  obtain ⟨rfl, rfl, rfl⟩ := get_eq_ok.mp looking
  obtain ⟨rfl, rfl, rfl⟩ := pure_eq_ok.mp run
  refine ⟨rfl, hturned, ?_, htally⟩
  obtain ⟨news, hnews⟩ := hturned.grows
  rw [← hnews, List.drop_left]

/-- What is written down of a run is a run of such steps. The induction is on the steps. -/
theorem chronicle_runs {steps : List (HostStep κ ρ)} {chapters : List (Chapter κ ρ)}
    (run : chronicle s x steps l w = .ok ((chapters, l'), w')) (tally : l.Tallies x w) :
    chapters.map (·.step) = steps ∧ Runs l chapters l' ∧ l'.Tallies x w' := by
  induction steps generalizing l w chapters with
  | nil =>
      obtain ⟨rfl, rfl, rfl⟩ := pure_eq_ok.mp run
      exact ⟨rfl, .nil _, tally⟩
  | cons step steps ih =>
      rw [chronicle, List.mapM_cons] at run
      obtain ⟨chapter, l₁, w₁, first, run⟩ := bind_eq_ok.mp run
      obtain ⟨hstep, hturned, hentries, htally⟩ := chapter_turned first tally
      obtain ⟨chapters', l₂, w₂, others, run⟩ := bind_eq_ok.mp run
      obtain ⟨rfl, rfl, rfl⟩ := pure_eq_ok.mp run
      obtain ⟨hsteps, hruns, htally⟩ := ih others htally
      exact ⟨by rw [List.map_cons, hstep, hsteps], .cons hturned hentries hruns, htally⟩

end HostStep

end Trellis
