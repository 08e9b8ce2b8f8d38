import Trellis.Proofs.Host.Faithful

/-!
# Deferred tasks

Tasks run in the order they were deferred in, each once, and only in frames that show a view: those
that wait before the view handles the events, and those that have come up since then before it is
drawn. All others wait.

* `HostEntry.Timely` — tasks have been run in order, always.
* `HostEntry.ShownFrame` — the frames in which tasks are run, and then all of them.
* `TaskOrder` — what is told of the chapters of a run; `HostStep.play_tasks` — it holds.
-/

namespace Trellis

variable {κ ρ ν χ ε δ τ : Type}

namespace HostEntry

/-- All tasks deferred so far have been run, in order. -/
def AllRun (entries : List (HostEntry χ τ)) : Prop := starts entries = deferrals entries

/-- At any time, the tasks that have been run are the first ones of those deferred. -/
def Timely (entries : List (HostEntry χ τ)) : Prop :=
  ∀ before, before <+: entries → starts before <+: deferrals before

/-- The tasks that have been deferred and not been run. -/
def pending (entries : List (HostEntry χ τ)) : List τ :=
  (deferrals entries).drop (starts entries).length

/-- The views that have handled events, in order. -/
def handlings (entries : List (HostEntry χ τ)) : List Nat :=
  entries.filterMap fun
    | .called n .handled _ => some n
    | _ => none

/-- What a frame that shows a view writes down after other entries. The tasks that waited, and those
deferred meanwhile, are run before any events are handled; and when the view is drawn, all have been
run. -/
inductive ShownFrame : List (HostEntry χ τ) → List (HostEntry χ τ) → Prop
  | frame {before : List (HostEntry χ τ)} (n : Nat) (early late : List (HostEntry χ τ))
      (drawn : List τ) (unhandled : handlings early = [])
      (waited : starts early = pending before ++ deferrals early)
      (all : AllRun (before ++ early ++ .called n .handled (some n) :: late)) :
      ShownFrame before (early ++ .called n .handled (some n) :: late ++
        [.called n .drew (some n), .deferred drawn])

variable {entries : List (HostEntry χ τ)}

theorem Timely.pending (h : Timely entries) :
    deferrals entries = starts entries ++ pending entries := by
  obtain ⟨others, hothers⟩ := h entries List.prefix_rfl
  rw [HostEntry.pending, ← hothers, List.drop_left]

/-- If all have been run in the end, then first those that waited. -/
theorem Timely.waited (h : Timely entries) {later : List (HostEntry χ τ)}
    (all : AllRun (entries ++ later)) :
    starts later = HostEntry.pending entries ++ deferrals later := by
  rw [AllRun, starts_append, deferrals_append, h.pending, List.append_assoc] at all
  exact List.append_cancel_left all

theorem timely_nil : Timely ([] : List (HostEntry χ τ)) := by
  intro before h
  rw [List.prefix_nil.mp h]
  exact List.prefix_rfl

theorem timely_append_singleton {entry : HostEntry χ τ} (h : Timely entries)
    (last : starts (entries ++ [entry]) <+: deferrals (entries ++ [entry])) :
    Timely (entries ++ [entry]) := by
  intro before hbefore
  rcases List.prefix_concat_iff.mp hbefore with rfl | hbefore
  · exact last
  · exact h before hbefore

/-- The entry is not the start of a task. -/
def Unstarted (entry : HostEntry χ τ) : Prop := starts [entry] = []

/-- Without the start of a task the order stays what it is. -/
theorem Added.timely {later : List (HostEntry χ τ)} (h : Added Unstarted entries later)
    (timely : Timely entries) : Timely later := by
  obtain ⟨news, rfl, hnews⟩ := h
  induction news generalizing entries with
  | nil =>
      rw [List.append_nil]
      exact timely
  | cons entry news ih =>
      obtain ⟨hentry, hrest⟩ := List.forall_mem_cons.mp hnews
      rw [← List.singleton_append, ← List.append_assoc]
      refine ih (timely_append_singleton timely ?_) hrest
      rw [starts_append, hentry, List.append_nil, deferrals_append]
      exact (timely entries List.prefix_rfl).trans (List.prefix_append _ _)

theorem handlings_append (entries later : List (HostEntry χ τ)) :
    handlings (entries ++ later) = handlings entries ++ handlings later := List.filterMap_append

theorem Setup.unhandled {entry : HostEntry χ τ} (h : entry.Setup) : handlings [entry] = [] := by
  cases entry with
  | called n call => cases call <;> first | rfl | exact h.elim
  | closing | deferred | started => rfl

theorem Work.unhandled {entry : HostEntry χ τ} (h : entry.Work) : handlings [entry] = [] := by
  cases entry with
  | called => exact h.elim
  | closing | deferred | started => rfl

end HostEntry

open HostEntry

namespace Ledger

variable {l l' : Ledger ν χ τ}

/-! ## Frames -/

/-- In a frame that shows no view no task is run. -/
theorem Framed.quiet {closed : ε} {outcome : Except ε (Option δ)}
    (h : Framed closed l outcome l') (unshown : ∀ answer, outcome ≠ .ok (some answer)) :
    Added Quiet l.entries l'.entries := by
  cases h with
  | closed => exact .refl _
  | swapFailed _ swap => exact swap.added.mono fun _ => Setup.quiet
  | beginFailed _ swap begin => exact (swap.added.trans begin.added).mono fun _ => Setup.quiet
  | empty _ swap begin => exact (swap.added.trans begin.added).mono fun _ => Setup.quiet
  | shown => exact absurd rfl (unshown _)

/-- Tasks are run until none waits. -/
theorem Worked.idle (h : Worked l l') : AllRun l'.entries := by
  induction h with
  | done idle => exact idle
  | next _ _ _ _ ih => exact ih

theorem Worked.timely (h : Worked l l') (timely : Timely l.entries) : Timely l'.entries := by
  induction h with
  | done => exact timely
  | @next l l' task tasks first _ ih =>
      have hdeferred : Added Unstarted (l.add (.started task)).entries
          ((l.add (.started task)).add (.deferred tasks)).entries := .single rfl
      refine ih (hdeferred.timely (timely_append_singleton timely ?_))
      obtain ⟨others, hfirst⟩ := first
      rw [starts_append, deferrals_append, hfirst]
      exact ⟨others, by simp [starts, deferrals]⟩

theorem Framed.shownFrame {closed : ε} {answer : δ} (h : Framed closed l (.ok (some answer)) l')
    (timely : Timely l.entries) :
    Timely l'.entries ∧ ∃ news, l'.entries = l.entries ++ news ∧ ShownFrame l.entries news := by
  cases h with
  | @shown _ l₂ l₃ l₄ u handled drawn _ _ swap begin view before after =>
      have hbegun := swap.added.trans begin.added
      have hbefore := before.timely ((hbegun.mono fun _ h => h.quiet.unstarted).timely timely)
      have hcalled (l : Ledger ν χ τ) (call : ViewCall) (tasks : List τ) :
          Added Unstarted l.entries ((l.call u.1 call).add (.deferred tasks)).entries := by
        have hcall : Added Unstarted l.entries (l.call u.1 call).entries := .single rfl
        exact hcall.trans (.single rfl)
      have hafter := after.timely ((hcalled l₃ .handled handled).timely hbefore)
      refine ⟨(hcalled l₄ .drew drawn).timely hafter, ?_⟩
      -- The tasks leave the view as it was, both before it handles the events and afterwards.
      have hview : l₃.host.view = some u := by rw [before.host, view]
      have hview' : l₄.host.view = some u := after.host ▸ hview
      obtain ⟨early, hearly⟩ := hbegun.grows.trans before.added.grows
      obtain ⟨late, hlate⟩ := after.added.grows
      have hhandled : l₄.entries =
          l.entries ++ early ++ .called u.1 .handled (some u.1) :: .deferred handled :: late := by
        rw [← hlate, hearly, add, Ledger.call, add, hview]
        simp
      have hunhandled : HostEntry.handlings early = [] := by
        have hkept := (before.added.kept handlings_append fun _ h => h.unhandled).trans
          (hbegun.kept handlings_append fun _ h => h.unhandled)
        rw [← hearly, handlings_append] at hkept
        exact List.append_right_eq_self.mp hkept
      refine ⟨_, ?_, .frame u.1 early (.deferred handled :: late) drawn hunhandled
        (timely.waited ?_) ?_⟩
      · rw [add, Ledger.call, add, hhandled, hview']
        simp
      · rw [hearly]
        exact before.idle
      · rw [← hhandled]
        exact after.idle

end Ledger

/-! ## Runs -/

/-- A frame has shown a view. -/
def HostAnswer.Shows : HostAnswer → Prop
  | .framed (.ok (some _)) => True
  | _ => False

namespace Ledger

variable {l l' : Ledger (View κ) κ (Task κ)}

theorem Turned.quiet {step : HostStep κ ρ} {answer : HostAnswer} (h : Turned l step answer l')
    (unshown : ¬ answer.Shows) : Added Quiet l.entries l'.entries := by
  cases h with
  | setView | onClose => exact .refl _
  | act program tasks => exact .single trivial
  | frame size framed =>
      refine framed.quiet fun ops hops => unshown ?_
      rw [hops]
      trivial
  | close ended => exact ended.added
  | drop ended => exact ended.added

theorem Turned.shownFrame {step : HostStep κ ρ} {answer : HostAnswer} (h : Turned l step answer l')
    (shown : answer.Shows) (timely : Timely l.entries) :
    Timely l'.entries ∧ ∃ news, l'.entries = l.entries ++ news ∧ ShownFrame l.entries news := by
  cases h with
  | setView | onClose | act | close | drop => exact shown.elim
  | @frame size outcome _ framed =>
      match outcome with
      | .ok (some ops) => exact framed.shownFrame timely

theorem Turned.timely {step : HostStep κ ρ} {answer : HostAnswer} (h : Turned l step answer l')
    (timely : Timely l.entries) : Timely l'.entries := by
  by_cases hshows : answer.Shows
  · exact (h.shownFrame hshows timely).1
  · exact ((h.quiet hshows).mono fun _ h => h.unstarted).timely timely

variable {chapters : List (Chapter κ ρ)}

theorem Runs.timely (h : Runs l chapters l') (timely : Timely l.entries) : Timely l'.entries := by
  induction h with
  | nil => exact timely
  | cons turned _ _ ih => exact ih (turned.timely timely)

theorem Runs.quiet (h : Runs l chapters l') {c : Chapter κ ρ} (hc : c ∈ chapters)
    (unshown : ¬ c.answer.Shows) : starts c.entries = [] := by
  induction h with
  | nil => cases hc
  | cons turned entries _ ih =>
      rcases List.mem_cons.mp hc with rfl | hc
      · have hstarts := (turned.quiet unshown).kept starts_append fun _ h => h.unstarted
        rw [entries, starts_append] at hstarts
        exact List.append_right_eq_self.mp hstarts
      · exact ih hc

end Ledger

/-- What there is to tell of the tasks of a run after which some wait. -/
structure TaskOrder (chapters : List (Chapter κ ρ)) (waiting : List (Task κ)) : Prop where
  /-- At any time, the tasks that have been run are the first ones deferred. -/
  timely : Timely (chapters.flatMap (·.entries))
  /-- The others wait. -/
  waiting : deferrals (chapters.flatMap (·.entries)) =
    starts (chapters.flatMap (·.entries)) ++ waiting
  /-- Tasks are run in frames that show a view, -/
  rests : ∀ c ∈ chapters, ¬ c.answer.Shows → starts c.entries = []
  /-- and there all of them are. -/
  shown : ∀ before c after, chapters = before ++ c :: after → c.answer.Shows →
    ShownFrame (before.flatMap (·.entries)) c.entries

/-- In every run of a host, whatever defers tasks and whenever: they run in order, in the first
frame that shows a view, before the view handles the events or, if they came up meanwhile, before it
is drawn. To defer a task puts it behind the others. -/
theorem HostStep.play_tasks [Ordered ρ] {s : Setting κ ρ} {config : Config}
    {steps : List (HostStep κ ρ)} {answers : List HostAnswer} {w w' : World κ ρ}
    (run : play s config steps w = .ok (answers, w')) :
    ∃ chapters, retrace s config steps w = .ok (chapters, w') ∧
      chapters.map (·.step) = steps ∧ chapters.map (·.answer) = answers ∧
      TaskOrder chapters (w'.waiting ⟨w.windows.size⟩) ∧ w'.Queues ⟨w.windows.size⟩ ∧
      ∀ (v : World κ ρ) (x : WindowId) (r : Reentry κ ρ) (task : Task κ), v.Queues x →
        ∃ v', Machine.defer r x task v = .ok ((), v') ∧ v'.waiting x = v.waiting x ++ [task] := by
  obtain ⟨chapters, l, hretrace, hsteps, hanswers, hruns, htally, -⟩ := play_retraced run
  have hentries : l.entries = chapters.flatMap (·.entries) := hruns.entries
  have htimely := hruns.timely timely_nil
  refine ⟨chapters, hretrace, hsteps, hanswers, ?_, htally.queues,
    fun v x r task h => Machine.defer_run r h task⟩
  refine ⟨hentries ▸ htimely, hentries ▸ htally.tasks, fun c hc => hruns.quiet hc, ?_⟩
  rintro before c after rfl hshows
  obtain ⟨l₁, hbefore, hrest⟩ := hruns.split
  cases hrest with
  | cons turned entries _ =>
      obtain ⟨-, news, hnews, hframe⟩ := turned.shownFrame hshows (hbefore.timely timely_nil)
      obtain rfl := List.append_cancel_left (entries.symm.trans hnews)
      have hbefore' : l₁.entries = before.flatMap (·.entries) := hbefore.entries
      rw [← hbefore']
      exact hframe

/-! ## A task that defers another one -/

/-- A setting where the first task defers the second one, and the events of a frame defer what the
view is set up with. -/
def Setting.busy : Setting Nat Empty where
  app :=
    { App.idle with
      task := fun code => if code = 1 then .defer ⟨0⟩ 2 (.done ()) else .done ()
      hook := fun code _ => .defer ⟨0⟩ code (.done ()) }
  registry := {}
  fuel := 8

/-- A task is deferred before there is a view. -/
def HostStep.chores : List (HostStep Nat Empty) :=
  [.act (.defer ⟨0⟩ 7 (.done ())), .frame Vec.zero,
    .setView { id := "busy", model := .table [], hook := some 1 }, .frame Vec.zero]

/-- The code of a task that is a callback. -/
def Task.code? : Task κ → Option κ
  | .run code => some code
  | .edit .. => none

/-- The early task waits for the first frame with a view, where the other two follow it. -/
theorem HostStep.play_tasks_busy :
    ∃ (answers : List HostAnswer) (chapters : List (Chapter Nat Empty)) (w : World Nat Empty),
      play .busy {} chores {} = .ok (answers, w) ∧
      retrace .busy {} chores {} = .ok (chapters, w) ∧ TaskOrder chapters (w.waiting ⟨0⟩) ∧
      chapters.map (fun c => (starts c.entries).map Task.code?) =
        [[], [], [], [some 7, some 1, some 2]] := by
  obtain ⟨answers, w, hplay⟩ := Machine.exists_eq_ok
    (m := play .busy {} chores) (w := {}) (by decide +kernel)
  obtain ⟨chapters, hretrace, -, -, horder, -⟩ := play_tasks hplay
  have hcodes : (retrace .busy {} chores {}).toOption.map (fun r =>
      r.1.map fun c => (starts c.entries).map Task.code?) =
      some [[], [], [], [some 7, some 1, some 2]] := by decide +kernel
  rw [hretrace] at hcodes
  exact ⟨answers, chapters, w, hplay, hretrace, horder, Option.some.inj hcodes⟩

end Trellis
