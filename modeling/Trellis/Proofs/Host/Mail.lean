import Trellis.Proofs.Host.Faithful

/-!
# What becomes of events

Events that are sent to a host wait until a frame collects them, all at once. What the frame
collects and what its view is handed is written down by the calls themselves: the host is driven by
the same frames as ever, on a stage that keeps a record of these two calls.

* `World.mail` — the events that wait; `World.Mailed` — none of them was lost.
* `Stage.parcelled` — the stage that keeps the record.
* `Post`, `HostStep.deliver` — a step with what became of events in it, and runs of steps.
* `Parcelled.Silent` — where nothing is written down; `Parcelled.poll_run`,
  `Parcelled.handleEvents_run` — where something is.
-/

namespace Trellis

variable {κ ρ ν χ ε δ τ α β : Type}

/-! ## The events that wait -/

namespace World

/-- The events that have been sent to the host and that no frame has collected. -/
def mail (w : World κ ρ) : List Event := (w.session.map (·.events)).getD []

/-- The events that waited still wait, before any other ones. -/
def Mailed (w w' : World κ ρ) : Prop := w.mail <+: w'.mail

instance : IsPreorder (World κ ρ) Mailed where
  refl _ := List.prefix_rfl
  trans _ _ _ h h' := List.IsPrefix.trans h h'

instance : Permissive (Mailed (κ := κ) (ρ := ρ)) where
  bindings _ _ := List.prefix_rfl
  watchers _ _ := List.prefix_rfl
  elements _ _ := List.prefix_rfl
  awaiting _ _ := List.prefix_rfl
  scope _ _ := List.prefix_rfl
  madeUp _ _ := List.prefix_rfl
  trail _ _ := List.prefix_rfl
  event w event := by
    rw [Mailed, mail, mail]
    cases w.session with
    | none => exact List.prefix_rfl
    | some session => exact List.prefix_append _ _
  asked _ _ := List.prefix_rfl
  handed _ _ _ := List.prefix_rfl

/-- A session where a host stands otherwise has the same events. -/
theorem Mailed.session (w : World κ ρ) {f : Session κ → Session κ}
    (events : ∀ session, (f session).events = session.events) :
    Mailed w { w with session := w.session.map f } := by
  rw [Mailed, mail, mail]
  cases w.session with
  | none => exact List.prefix_rfl
  | some session =>
      show session.events <+: (f session).events
      simp only [events, List.prefix_rfl]

end World

/-! ## A record of the events -/

/-- What is done with events. -/
inductive Parcel
  | collected (events : List Event)
  | handed (events : List Event)

namespace Parcel

/-- The events that were collected, by frames. -/
def collections (parcels : List Parcel) : List (List Event) :=
  parcels.filterMap fun
    | .collected events => some events
    | .handed _ => none

/-- The events that views were handed, by frames. -/
def handings (parcels : List Parcel) : List (List Event) :=
  parcels.filterMap fun
    | .handed events => some events
    | .collected _ => none

end Parcel

/-- Parts that keep a record of events. -/
abbrev Parcelled (m : Type → Type) : Type → Type := StateT (List Parcel) m

/-- The stage with a record kept of what the host collects and what views are handed. -/
def Stage.parcelled {m : Type → Type} [Monad m] (stage : Stage m ν χ ε δ τ) :
    Stage (Parcelled m) ν χ ε δ τ where
  get := stage.get
  set host := stage.set host
  poll := do
    let events ← stage.poll
    modify (· ++ [.collected events])
    pure events
  nextTask := stage.nextTask
  runTask task := stage.runTask task
  taskLimit := stage.taskLimit
  giveUp := stage.giveUp
  prepare view := stage.prepare view
  destroy view := stage.destroy view
  handleEvents view events := do
    modify (· ++ [.handed events])
    stage.handleEvents view events
  draw view := stage.draw view
  runOnClose code := stage.runOnClose code
  closed := stage.closed

/-- A step with its answer and what became of events in it. -/
structure Post (κ ρ : Type) where
  step : HostStep κ ρ
  answer : HostAnswer
  parcels : List Parcel
  /-- The events that arrived in the step. -/
  sent : List Event

/-- The events that were collected in a step. -/
def Post.collected (post : Post κ ρ) : List Event := (Parcel.collections post.parcels).flatten

namespace HostStep

variable [Ordered ρ] (s : Setting κ ρ) (x : WindowId)

/-- Takes a step with the host in a window and keeps a record of events. Only frames do anything
with them. -/
def parcel : HostStep κ ρ → Parcelled (Machine κ ρ) HostAnswer
  | .frame size => do pure (.framed (← (Machine.stage s x size).parcelled.frame))
  | step => take s x step

/-- Takes a step and answers what became of events in it. Events arrive behind those that wait, as
far as these are not collected. -/
def post (step : HostStep κ ρ) : Machine κ ρ (Post κ ρ) := do
  let before ← get
  let (answer, parcels) ← parcel s x step []
  let after ← get
  let left := before.mail.drop (Parcel.collections parcels).flatten.length
  pure { step, answer, parcels, sent := after.mail.drop left.length }

/-- Opens a host, takes steps with it, and answers what became of events in each of them. -/
def deliver (config : Config) (steps : List (HostStep κ ρ)) : Machine κ ρ (List (Post κ ρ)) := do
  let x ← Machine.openHost config
  steps.mapM (post s x)

end HostStep

/-! ## Keeping the record changes nothing -/

namespace Parcelled

variable {l : List Parcel} {w w' w₁ : World κ ρ}

theorem bind_run {p : Parcelled (Machine κ ρ) α} {f : α → Parcelled (Machine κ ρ) β} {a : α}
    {l₁ : List Parcel} (first : p l w = .ok ((a, l₁), w₁)) : (p >>= f) l w = f a l₁ w₁ := by
  show Except.bind (p l w) _ = _
  rw [first]
  rfl

/-- Wherever the first part ends, the second one does, too, and writes nothing down. -/
def Silent (p : Machine κ ρ α) (q : Parcelled (Machine κ ρ) α) : Prop :=
  ∀ ⦃l w a w'⦄, p w = .ok (a, w') → q l w = .ok ((a, l), w')

namespace Silent

theorem lift (p : Machine κ ρ α) : Silent p (liftM p) := by
  intro l w a w' run
  have hlift : (liftM p : Parcelled (Machine κ ρ) α) l w =
      (p >>= fun a => (Pure.pure (a, l) : Machine κ ρ (α × List Parcel))) w := rfl
  rw [hlift]
  exact Machine.bind_eq_ok.mpr ⟨a, w', run, rfl⟩

theorem pure (a : α) : Silent (pure a : Machine κ ρ α) (Pure.pure a) := by
  intro l w a' w' run
  obtain ⟨rfl, rfl⟩ := Machine.pure_eq_ok.mp run
  rfl

theorem bind {p : Machine κ ρ α} {q : Parcelled (Machine κ ρ) α} {f : α → Machine κ ρ β}
    {g : α → Parcelled (Machine κ ρ) β} (h : Silent p q) (h' : ∀ a, Silent (f a) (g a)) :
    Silent (p >>= f) (q >>= g) := by
  intro l w b w' run
  obtain ⟨a, w₁, hfirst, hrest⟩ := Machine.bind_eq_ok.mp run
  exact (bind_run (h hfirst)).trans (h' a hrest)

end Silent

variable (stage : Stage (Machine κ ρ) ν χ ε δ τ)

theorem parcelled_taskLimit : stage.parcelled.taskLimit = stage.taskLimit := rfl

theorem get_silent : Silent stage.get stage.parcelled.get := .lift _

theorem draw_silent (view : ν) : Silent (stage.draw view) (stage.parcelled.draw view) := .lift _

theorem poll_run {events : List Event} (run : stage.poll w = .ok (events, w')) :
    stage.parcelled.poll l w = .ok ((events, l ++ [.collected events]), w') :=
  bind_run (Silent.lift _ run)

theorem handleEvents_run {view : ν} {events : List Event} {u : Unit}
    (run : stage.handleEvents view events w = .ok (u, w')) :
    stage.parcelled.handleEvents view events l w = .ok ((u, l ++ [.handed events]), w') :=
  Silent.lift _ run

theorem swap_silent : Silent stage.swap stage.parcelled.swap := by
  refine .bind (get_silent stage) fun host => ?_
  split
  · exact .pure _
  · refine .bind (.lift _) fun _ => ?_
    -- whether or not there was a view to destroy, the same follows
    split
    all_goals
      refine .bind ?_ fun failure => ?_
      · exact .lift _
      · cases failure with
        | some e => exact .pure _
        | none => exact .bind (get_silent stage) fun _ => .bind (.lift _) fun _ => .pure _

theorem begin_silent : Silent stage.begin stage.parcelled.begin := by
  refine .bind (get_silent stage) fun host => ?_
  split
  · refine .bind (.lift _) fun prepared => .bind (get_silent stage) fun _ => ?_
    exact .bind (.lift _) fun _ => .pure _
  · exact .pure _

theorem runTasks_silent (limit : Nat) :
    Silent (stage.runTasks limit) (stage.parcelled.runTasks limit) := by
  induction limit with
  | zero =>
      refine .bind (.lift stage.nextTask) fun next => ?_
      cases next with
      | none => exact .pure _
      | some task => exact .lift _
  | succ limit ih =>
      refine .bind (.lift stage.nextTask) fun next => ?_
      cases next with
      | none => exact .pure _
      | some task => exact .bind (.lift _) fun _ => .bind ih fun _ => .pure _

end Parcelled

end Trellis
