import Trellis.Host.Views
import Trellis.Proofs.Notification.Agenda

/-!
# Frames, one step at a time

While a frame shows a view, deferred tasks run, the events go down the tree, and callbacks run in
between. Here that part of a frame is taken apart in the way callbacks are: what is left to do is a
list of acts, and the first of them is done in one step, which may put others before the rest. What
updates of elements are asked for and made is written down on the way.

* `Act.perform` — what one step does; `Machine.leafActs` — what an element does with events.
* `Scene.Next`, `Course` — one step and any number of them.
* `Leads` — what acts do in the end.
* `Scene.start`, `Machine.Shown` — how a frame comes to draw a view.
* `Frames` — frames one after another.
-/

namespace Trellis

variable {κ ρ : Type}

/-- What is left to do of a frame while a view is up. -/
inductive Act (κ ρ : Type)
  /-- A duty of a callback. -/
  | duty (duty : Duty κ ρ)
  /-- To have the tree below an element handle the events. -/
  | tree (e : ElementId)
  /-- To have it handle them down to a depth. -/
  | visit (depth : Nat) (e : ElementId)
  /-- To take an edited text into an input. -/
  | enter (e : ElementId) (id : String) (input : Input κ) (edited : String)
  /-- To report the value of an element to the binding it follows. -/
  | report (e : ElementId)
  /-- To run the tasks that wait in the window, and at most so many. -/
  | work (limit : Nat)

/-- To run a callback. -/
def Act.run (program : Program κ ρ Unit) : Act κ ρ := .duty (.run program)

namespace Program

/-- Asks a window, if there is one, for a new frame. -/
def asking : Option WindowId → Program κ ρ Unit
  | some x => .invalidate x (.done ())
  | none => .done ()

/-- Shows a value through a watcher, if there is one, and asks a window for a frame. -/
def showing (follower : Option WatcherId) (window : Option WindowId) (value : Scalar ρ) :
    Program κ ρ Unit :=
  match follower with
  | some x => .edit x value (asking window)
  | none => asking window

/-- Takes an edited text as far as it is accepted, and shows what has been taken. -/
def entering (app : App κ ρ) (ctx : EventContext) (id : String) (input : Input κ)
    (follower : Option WatcherId) (window : Option WindowId) (edited : String) :
    Program κ ρ Unit :=
  let allowed (taken : List Char) : Program κ ρ (List Char) :=
    (Machine.filterAfter app ctx id input (String.ofList taken)).bind fun filter =>
      .done filter.toList
  (accept allowed input.multiLine input.maxLength edited.toList).bind fun taken =>
    showing follower window (.text (String.ofList taken))

end Program

/-! ## What one step does -/

namespace Machine

/-- What a pressable widget does with pointer events. Answers what is left to do. -/
def pointerActs (app : App κ ρ) (ctx : EventContext) (e : ElementId) (element : Element κ)
    (handlers : PointerHandlers κ) (before : PointerState) : Machine κ ρ (List (Act κ ρ)) := do
  let (now, clicks) := before.apply (ctx.phases element.id)
  let calls := ((handlers.due before now clicks).map (·.2)).map fun code =>
    Act.run (app.handler code ctx element.id)
  modify (·.modifyElement e fun el => { el with body := el.body.withPointer now })
  match element.body with
  | .checkbox _ =>
    if clicks % 2 = 1 then
      if let some (.flag value) ← valueOf e then setValue e (.flag !value)
    pure (.report e :: calls)
  | _ =>
    if before ≠ now then invalidate element.window
    pure calls

/-- What an input is to do with its events. -/
def inputActs (app : App κ ρ) (ctx : EventContext) (e : ElementId) (id : String)
    (input : Input κ) : List (Act κ ρ) :=
  let events := ctx.addressedTo id
  let texts : List (Act κ ρ) := events.flatMap fun
    | .text text => if input.readOnly then [] else [.enter e id input text]
    | _ => []
  texts ++ .report e :: (input.confirmation? events).toList.map fun code =>
    Act.run (app.handler code ctx id)

/-- What a slider does with its events. Answers what is left to do. -/
def sliderActs (ctx : EventContext) (e : ElementId) (id : String) :
    Machine κ ρ (List (Act κ ρ)) := do
  let values := (ctx.addressedTo id).filterMap fun
    | .value x => some x
    | _ => none
  if let some x := values.getLast? then
    setValue e (.single (Number.unit (Number.single x)))
  pure [.report e]

/-- What a list does with the items it has. Answers what is left to do. -/
def itemActs (app : App κ ρ) (ctx : EventContext) (element : Element κ) (list : ItemList κ) :
    Machine κ ρ (List (Act κ ρ)) := do
  match element.binding, list.handler with
  | some b, some code =>
    let items := (((← get).binding? b).bind (·.content.items?)).getD []
    pure ((List.range items.length).map fun i => Act.run (app.itemHandler code ctx i b))
  | _, _ => pure []

/-- What an element without children does with its events. Answers what is left to do. -/
def leafActs (app : App κ ρ) (ctx : EventContext) (e : ElementId) (element : Element κ) :
    Machine κ ρ (List (Act κ ρ)) := do
  match element.body with
  | .button s => pointerActs app ctx e element s.handlers s.pointer
  | .checkbox s => pointerActs app ctx e element s.handlers s.pointer
  | .iconButton s => pointerActs app ctx e element s.handlers s.pointer
  | .input input => pure (inputActs app ctx e element.id input)
  | .slider .. => sliderActs ctx e element.id
  | .label _ | .progressBar _ => pure [.report e]
  | .list list => itemActs app ctx element list
  | .block size frames =>
    modify (·.modifyElement e fun el => { el with body := .block size (frames + 1) })
    pure []
  | _ => pure []

/-- What an element does with the events. Answers what is left to do. -/
def elementActs (app : App κ ρ) (ctx : EventContext) (depth : Nat) (e : ElementId) :
    Machine κ ρ (List (Act κ ρ)) := do
  match (← get).element? e with
  | none => pure []
  | some element =>
    match element.body with
    | .flex .. | .inset .. | .minSize .. | .stack .. =>
      pure (element.body.children.map (.visit depth))
    | _ => leafActs app ctx e element

/-- Reports the value of an element to the binding it follows. Answers the rounds to begin. -/
def reportActs [Ordered ρ] (e : ElementId) : Machine κ ρ (List (Duty κ ρ)) := do
  match (← get).element? e with
  | none => pure []
  | some element =>
    match element.follower, element.binding with
    | some x, some b => pure (← assignEdit x b).2
    | _, _ => pure []

end Machine

open Machine in
/-- Does an act of a frame in a window. Answers what that leaves to do. -/
def Act.perform [Ordered ρ] (app : App κ ρ) (ctx : EventContext) (x : WindowId) :
    Act κ ρ → Machine κ ρ (List (Act κ ρ))
  | .duty d => do pure ((← d.discharge app).map .duty)
  | .tree e => do pure [.visit ((← get).elements.size + 1) e]
  | .visit 0 _ => stop .outOfFuel
  | .visit (depth + 1) e => do
    lock e
    pure ((← elementActs app ctx depth e) ++ [.duty (.unlock e)])
  | .enter e id input edited => do
    let element := (← get).element? e
    let follower := element.bind (·.follower)
    let window := element.bind (·.window)
    pure [.run (.entering app ctx id input follower window edited)]
  | .report e => do pure ((← reportActs e).map .duty)
  | .work limit => do
    match ← nextTask x, limit with
    | none, _ => pure []
    | some _, 0 => stop .outOfFuel
    | some task, limit + 1 => pure [.duty (.task task), .work limit]

open Machine

/-! ## Steps -/

/-- The update that an act asks for. -/
def Act.asks : Act κ ρ → List (Task κ)
  | .duty (.run (.update h call reply _)) => [.edit h.element h.kind call reply]
  | _ => []

/-- The task that an act runs. -/
def Act.makes : Act κ ρ → List (Task κ)
  | .duty (.task task) => [task]
  | _ => []

/-- A point of a frame: what is left to do, the state, and which updates have been asked for and
which tasks have been run so far. -/
structure Scene (κ ρ : Type) where
  acts : List (Act κ ρ)
  world : World κ ρ
  asked : List (Task κ) := []
  made : List (Task κ) := []

variable [Ordered ρ] {app : App κ ρ} {ctx : EventContext} {x : WindowId} {w w' v : World κ ρ}

/-- One step: the first act is done. -/
inductive Scene.Next (app : App κ ρ) (ctx : EventContext) (x : WindowId) :
    Scene κ ρ → Scene κ ρ → Prop
  | perform {act : Act κ ρ} {rest left : List (Act κ ρ)} {w w' : World κ ρ}
      {asked made : List (Task κ)} (run : act.perform app ctx x w = .ok (left, w')) :
      Next app ctx x ⟨act :: rest, w, asked, made⟩
        ⟨left ++ rest, w', asked ++ act.asks, made ++ act.makes⟩

/-- Any number of steps. -/
abbrev Course (app : App κ ρ) (ctx : EventContext) (x : WindowId) : Scene κ ρ → Scene κ ρ → Prop :=
  Relation.ReflTransGen (Scene.Next app ctx x)

/-- Frames go one way only. -/
theorem Scene.Next.deterministic {c d d' : Scene κ ρ} (h : Next app ctx x c d)
    (h' : Next app ctx x c d') : d = d' := by
  obtain ⟨run⟩ := h
  obtain ⟨run'⟩ := h'
  rw [run, Except.ok.injEq, Prod.mk.injEq] at run'
  obtain ⟨rfl, rfl⟩ := run'
  rfl

/-- The scene after the next act, if there is one and it comes out. -/
def Scene.step? (app : App κ ρ) (ctx : EventContext) (x : WindowId) (c : Scene κ ρ) :
    Option (Scene κ ρ) :=
  match c.acts with
  | [] => none
  | act :: rest =>
    match act.perform app ctx x c.world with
    | .ok (left, w) => some ⟨left ++ rest, w, c.asked ++ act.asks, c.made ++ act.makes⟩
    | .error _ => none

theorem Scene.step?_eq_some {c d : Scene κ ρ} (h : c.step? app ctx x = some d) :
    Next app ctx x c d := by
  obtain ⟨acts, w, asked, made⟩ := c
  unfold step? at h
  split at h
  · cases h
  · next act rest hacts =>
      split at h
      · next left w' run =>
          cases h
          cases hacts
          exact .perform run
      · cases h

theorem Scene.Next.step?_eq {c d : Scene κ ρ} (h : Next app ctx x c d) :
    c.step? app ctx x = some d := by
  obtain ⟨run⟩ := h
  rw [step?]
  dsimp only
  rw [run]

/-- The scene after so many acts, or where no other one comes out. -/
def Scene.after (app : App κ ρ) (ctx : EventContext) (x : WindowId) : Nat → Scene κ ρ → Scene κ ρ
  | 0, c => c
  | acts + 1, c =>
    match c.step? app ctx x with
    | some d => d.after app ctx x acts
    | none => c

namespace Course

variable {c d d' : Scene κ ρ}

theorem after (acts : Nat) (c : Scene κ ρ) : Course app ctx x c (c.after app ctx x acts) := by
  induction acts generalizing c with
  | zero => exact .refl
  | succ acts ih =>
      unfold Scene.after
      cases hstep : c.step? app ctx x with
      | none => exact .refl
      | some d => exact .head (Scene.step?_eq_some hstep) (ih d)

/-- All scenes of a course can be computed. -/
theorem exists_after (h : Course app ctx x c d) : ∃ acts, c.after app ctx x acts = d := by
  induction h using Relation.ReflTransGen.head_induction_on with
  | refl => exact ⟨0, rfl⟩
  | head hstep _ ih =>
      obtain ⟨acts, hacts⟩ := ih
      refine ⟨acts + 1, ?_⟩
      rw [Scene.after, hstep.step?_eq]
      exact hacts

/-- After the end of a course nothing happens. -/
theorem after_end {acts : Nat} (done : (c.after app ctx x acts).acts = []) (more : Nat) :
    c.after app ctx x (acts + more) = c.after app ctx x acts := by
  induction acts generalizing c with
  | zero =>
      cases more with
      | zero => rfl
      | succ more =>
          have hnone : c.step? app ctx x = none := by
            rw [Scene.step?, show c.acts = [] from done]
          rw [Nat.zero_add]
          show (match c.step? app ctx x with
            | some d => d.after app ctx x more
            | none => c) = c
          rw [hnone]
  | succ acts ih =>
      rw [Nat.add_right_comm]
      unfold Scene.after at done ⊢
      cases hstep : c.step? app ctx x with
      | none => rfl
      | some d =>
          rw [hstep] at done
          exact ih done

/-- Up to the end of a course there are only so many scenes. -/
theorem forall_scene {acts : Nat} (done : (c.after app ctx x acts).acts = [])
    {P : Scene κ ρ → Prop} (h : ∀ n ≤ acts, P (c.after app ctx x n))
    (reached : Course app ctx x c d) : P d := by
  obtain ⟨n, rfl⟩ := reached.exists_after
  rcases Nat.le_total n acts with hle | hle
  · exact h n hle
  · obtain ⟨more, rfl⟩ := Nat.exists_eq_add_of_le hle
    rw [after_end done]
    exact h acts (Nat.le_refl acts)

/-- A course that comes to its end passes through all that can be reached from its start. -/
theorem to_end (h : Course app ctx x c d) (hend : Course app ctx x c d') (done : d'.acts = []) :
    Course app ctx x d d' := by
  induction h using Relation.ReflTransGen.head_induction_on with
  | refl => exact hend
  | head hstep _ ih =>
      rcases hend.cases_head with rfl | ⟨e, hstep', hend'⟩
      · obtain ⟨run⟩ := hstep
        cases done
      · rw [← hstep.deterministic hstep'] at hend'
        exact ih hend'

end Course

/-- To do these acts leads from one state to another, whatever is to be done after them. -/
def Leads (app : App κ ρ) (ctx : EventContext) (x : WindowId) (acts : List (Act κ ρ))
    (w w' : World κ ρ) : Prop :=
  ∀ rest asked made, ∃ asked' made',
    Course app ctx x ⟨acts ++ rest, w, asked, made⟩ ⟨rest, w', asked', made'⟩

namespace Leads

variable {acts left : List (Act κ ρ)} {act : Act κ ρ}

theorem nil : Leads app ctx x [] w w := fun _ asked made => ⟨asked, made, .refl⟩

theorem of_pure (h : (pure () : Machine κ ρ Unit) w = .ok ((), w')) : Leads app ctx x [] w w' := by
  obtain ⟨-, rfl⟩ := pure_eq_ok.mp h
  exact nil

theorem append {later : List (Act κ ρ)} (h : Leads app ctx x acts w v)
    (h' : Leads app ctx x later v w') : Leads app ctx x (acts ++ later) w w' := by
  intro rest asked made
  obtain ⟨asked₁, made₁, hfirst⟩ := h (later ++ rest) asked made
  obtain ⟨asked₂, made₂, hlater⟩ := h' rest asked₁ made₁
  rw [List.append_assoc]
  exact ⟨asked₂, made₂, hfirst.trans hlater⟩

/-- A first step and what it leaves to do. -/
theorem step (run : act.perform app ctx x w = .ok (left, v)) (h : Leads app ctx x left v w') :
    Leads app ctx x [act] w w' := by
  intro rest asked made
  obtain ⟨asked', made', hlater⟩ := h rest (asked ++ act.asks) (made ++ act.makes)
  exact ⟨asked', made', .head (.perform run) hlater⟩

theorem cons (h : Leads app ctx x [act] w v) (h' : Leads app ctx x acts v w') :
    Leads app ctx x (act :: acts) w w' :=
  append h h'

/-- What callbacks do to the end. The induction is on the steps. -/
theorem of_reaches {agenda : List (Duty κ ρ)} (h : Reaches app ⟨agenda, w⟩ ⟨[], w'⟩) :
    Leads app ctx x (agenda.map .duty) w w' := by
  generalize hc : (⟨agenda, w⟩ : Moment κ ρ) = c at h
  induction h using Relation.ReflTransGen.head_induction_on generalizing agenda w with
  | refl =>
      cases hc
      exact nil
  | head hstep _ ih =>
      obtain @⟨duty, rest, left, u, u', run⟩ := hstep
      cases hc
      intro later asked made
      obtain ⟨asked', made', hcourse⟩ := ih rfl later _ _
      rw [List.map_append, List.append_assoc] at hcourse
      exact ⟨asked', made', .head (.perform (bind_eq_ok.mpr ⟨left, u', run, rfl⟩)) hcourse⟩

end Leads

/-! ## Frames that show a view -/

/-- What a view does in a frame before it is drawn: the tasks that wait are run, the view handles
the events, and the tasks that have come up meanwhile are run. -/
def View.acts (s : Setting κ ρ) (ctx : EventContext) (view : View κ) : List (Act κ ρ) :=
  let events := view.hook.toList.map (fun hook => Act.run (s.app.hook hook ctx)) ++
    view.root.toList.map Act.tree
  .work s.fuel :: events ++ [.work s.fuel]

/-- The scene in which the view of a frame has come up and has done nothing yet. -/
def Scene.start (s : Setting κ ρ) (x : WindowId) (events : List Event) (view : View κ)
    (w : World κ ρ) : Scene κ ρ where
  acts := view.acts s ⟨events, some x⟩
  world := w

open Machine in
/-- In a frame a view has come up, and is there with the events that the frame has collected. -/
structure Machine.Opened (s : Setting κ ρ) (x : WindowId) (size : Size Float) (events : List Event)
    (view : View κ) (w w' : World κ ρ) : Prop where
  begun : ∃ v v', (stage s x size).poll w = .ok (events, v) ∧
    (stage s x size).swap v = .ok (none, v') ∧ (stage s x size).begin v' = .ok (none, w')
  shown : ∃ host, getHost w' = .ok (host, w') ∧ host.view = some view

/-- How far a frame has come, with the events and the window that it is about. -/
structure Frame (κ ρ : Type) where
  ctx : EventContext
  window : WindowId
  scene : Scene κ ρ

/-- One step of a frame, or the beginning of another one after its end. What is done between two
frames counts as a frame of its own. -/
inductive Frame.Next (app : App κ ρ) : Frame κ ρ → Frame κ ρ → Prop
  | act {ctx : EventContext} {x : WindowId} {c d : Scene κ ρ} (step : Scene.Next app ctx x c d) :
      Next app ⟨ctx, x, c⟩ ⟨ctx, x, d⟩
  | begins {frame : Frame κ ρ} {ctx : EventContext} {x : WindowId} {acts : List (Act κ ρ)}
      (done : frame.scene.acts = []) : Next app frame ⟨ctx, x, { frame.scene with acts := acts }⟩

/-- Any number of frames, the last of which need not have come to its end. -/
abbrev Frames (app : App κ ρ) : Frame κ ρ → Frame κ ρ → Prop :=
  Relation.ReflTransGen (Frame.Next app)

/-- The course of a frame. -/
theorem Course.frames {c d : Scene κ ρ} (h : Course app ctx x c d) :
    Frames app ⟨ctx, x, c⟩ ⟨ctx, x, d⟩ :=
  h.lift (Frame.mk ctx x) fun _ _ step => .act step

end Trellis
