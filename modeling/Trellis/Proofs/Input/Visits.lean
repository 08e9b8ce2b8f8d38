import Mathlib.Data.List.Chain
import Trellis.Machine.Events
import Trellis.Proofs.Input.Confirmed
import Trellis.Proofs.Widget.Report

/-!
# An input from frame to frame

Every frame an input is visited: it takes the texts of the frame, reports what it shows, and calls the
application if that was confirmed.

* `Visit.Stages` — what a visit consists of.
* `Visit.Made` — a visit in which the input handles the events, stage by stage.
* `Visit.Alone` — a visit in which nobody else sets the text.
* `Visit.Made.outcome` — what such a visit comes to.
* `Visit.calls_confirmed` — what is held at the calls of any number of visits.
-/

namespace Trellis

variable {κ ρ : Type}

/-! ## Texts that are taken -/

/-- A mirror shows a text, which its binding has, too, unless the mirror was edited. -/
def World.Typed (w : World κ ρ) (x : WatcherId) (target : Option BindingId) (text : String) : Prop :=
  ∃ copy, w.copy? x = some copy ∧ copy.value = .text text ∧ ∀ b, target = some b →
    ∃ old, w.content? b = some (.one (.text old)) ∧ (copy.edited = false → old = text)

open Machine

variable {e : ElementId} {x : WatcherId} {target : Option BindingId} {w w' : World κ ρ}
  {text text' : String}

namespace World.Typed

theorem of_holds (h : w.Holds x target (.text text)) : w.Typed x target text := by
  obtain ⟨copy, hcopy, hvalue, -⟩ := h.shown
  exact ⟨copy, hcopy, hvalue, fun b hb => ⟨text, h.content b hb, fun _ => rfl⟩⟩

theorem leave (h : w.Typed x target text) (leaves : w.Leaves x target w') :
    w'.Typed x target text := by
  obtain ⟨copy, hcopy, hvalue, hcontent⟩ := h
  refine ⟨copy, leaves.copy.trans hcopy, hvalue, fun b hb => ?_⟩
  rw [leaves.content b hb]
  exact hcontent b hb

theorem edit (h : w.Typed x target text) (edits : w.Edits x (.text text') w') :
    w'.Typed x target text' := by
  obtain ⟨copy, hcopy, hvalue, hcontent⟩ := h
  refine ⟨{ copy with value := .text text', edited := true }, ?_, rfl, fun b hb => ?_⟩
  · rw [edits.copy, hcopy, Option.map_some, Mirror.edit, hvalue]
    rfl
  · obtain ⟨old, hold, -⟩ := hcontent b hb
    exact ⟨old, (edits.content b).trans hold, fun hedited => absurd hedited (by simp)⟩

end World.Typed

/-- The change that reporting a mirror makes of the binding that it follows. -/
def World.untold [Ordered ρ] (w : World κ ρ) (x : WatcherId) (target : Option BindingId) :
    List Entry :=
  ((w.copy? x).map fun copy => w.change target copy.value).getD []

variable [Ordered ρ] {app : App κ ρ} {fuel : Nat} {ctx : EventContext} {element : Element κ}
  {id : String} {input : Input κ} {f : String → String}

namespace Machine

/-- A text that is shown is reported, if a binding is followed. Afterwards the mirror and the binding
have it, as long as nobody else sets it. -/
theorem report_typed (happ : app.Avoids x) (guarded : w.Guarded e x)
    (found : w.element? e = some element) (follower : element.follower = some x)
    (typed : w.Typed x element.binding text)
    (run : report (.ofFuel app fuel) e w = .ok ((), w')) :
    ∃ news, w'.history = w.history ++ (w.untold x element.binding ++ news) ∧
      (Entry.Aside x element.binding news → w'.Holds x element.binding (.text text)) := by
  obtain ⟨copy, hcopy, hvalue, hcontent⟩ := typed
  have huntold : w.untold x element.binding = w.change element.binding copy.value := by
    rw [World.untold, hcopy]
    rfl
  rw [huntold, ← hvalue]
  cases hedited : copy.edited with
  | true =>
      refine report_sets happ guarded found follower hcopy ⟨fun _ _ => hedited, fun b hb => ?_⟩ run
      obtain ⟨old, hold, -⟩ := hcontent b hb
      rw [hvalue]
      refine ⟨_, hold, rfl, fun hsame => ?_⟩
      exact congrArg Scalar.text (by simpa [Scalar.differs] using hsame)
  | false =>
      have hhas (b : BindingId) (hb : element.binding = some b) :
          w.content? b = some (.one copy.value) := by
        obtain ⟨old, hold, hsame⟩ := hcontent b hb
        rw [hold, hsame hedited, hvalue]
      have hholds : w.Holds x element.binding copy.value :=
        ⟨⟨copy, hcopy, rfl, fun _ _ => hedited⟩, hhas⟩
      have hchange : w.change element.binding copy.value = [] := by
        cases hbinding : element.binding with
        | none => rfl
        | some b =>
            have hno : (Content.one copy.value).differs (.one copy.value) = false := by
              rw [hvalue]
              simp [Content.differs, Scalar.differs]
            rw [World.change, Option.filter_some, hhas b hbinding, Option.any_some, hno]
            rfl
      obtain rfl := report_of_holds found follower hholds run
      rw [hchange]
      exact ⟨[], (List.append_nil _).symm, fun _ => hholds⟩

/-- An input whose filter depends on the text only, and sets nothing, shows what it accepts of a
text. -/
theorem takeEvent_typed (follower : w.follower? e = some x)
    (answers : ∀ text, Gives (World.Leaves x target) (f text)
      ((filterAfter app ctx id input text).run (.ofFuel app fuel)))
    (typed : w.Typed x target text) {event : EventKind}
    (run : takeEvent app (.ofFuel app fuel) ctx e id input event w = .ok ((), w')) :
    w'.Typed x target (input.taking f text event) := by
  cases event with
  | text edited =>
      rw [takeEvent] at run
      rw [Input.taking]
      split at run
      · next hfixed =>
          rw [if_pos hfixed]
          obtain ⟨-, rfl⟩ := pure_eq_ok.mp run
          exact typed
      · next hfree =>
          rw [if_neg hfree]
          have hfitted : w.Fitted w' := enterText_outlasts ctx e id input edited run
          obtain ⟨v, hleaves, hset⟩ := enterText_eq answers e edited w
          rw [hset] at run
          -- The filter has not changed the follower, as the input still has it in the end.
          have hfitted' : v.Fitted w' := setValue_respects e _ run
          have hfollower : v.follower? e = some x :=
            (hfitted'.follower e).symm.trans ((hfitted.follower e).trans follower)
          exact (typed.leave hleaves).edit (setValue_edits hfollower run)
  | _ =>
      obtain ⟨-, rfl⟩ := pure_eq_ok.mp run
      exact typed

/-- The texts of a frame are taken one after another. -/
theorem takeEvents_typed (follower : w.follower? e = some x)
    (answers : ∀ text, Gives (World.Leaves x target) (f text)
      ((filterAfter app ctx id input text).run (.ofFuel app fuel)))
    (typed : w.Typed x target text) {events : List EventKind}
    (run : events.forM (takeEvent app (.ofFuel app fuel) ctx e id input) w = .ok ((), w')) :
    w'.Typed x target (input.shownAfter f text events) := by
  induction events generalizing w text with
  | nil =>
      obtain ⟨-, rfl⟩ := pure_eq_ok.mp run
      exact typed
  | cons event events ih =>
      obtain ⟨_, v, htake, hrest⟩ := bind_eq_ok.mp run
      have hfitted : w.Fitted v := takeEvent_outlasts event htake
      exact ih ((hfitted.follower e).trans follower) (takeEvent_typed follower answers typed htake) hrest

end Machine

/-! ## One visit -/

/-- An input with its id and settings, the follower that is its own, and the binding that it
follows. -/
structure World.TextField (w : World κ ρ) (e : ElementId) (id : String) (input : Input κ)
    (x : WatcherId) (target : Option BindingId) : Prop where
  element : ∃ element, w.element? e = some element ∧ element.id = id ∧
    element.body = .input input ∧ element.follower = some x ∧ element.binding = target
  own : ∀ d, w.follower? d = some x → d = e

/-- A visit of an input: the events of a frame, the states around it, the one in which all texts have
been taken, and those in which the application was called. -/
structure Visit (κ ρ : Type) where
  fuel : Nat
  ctx : EventContext
  before : World κ ρ
  entered : World κ ρ
  after : World κ ρ
  calls : List (World κ ρ)

namespace Visit

/-- What a visit consists of: the input is locked, takes the texts, reports what it shows, runs the
callback for a confirmation, and is unlocked. The callback begins to run in `told` and has run in
`ended`. -/
structure Stages (app : App κ ρ) (e : ElementId) (v : Visit κ ρ) (element : Element κ)
    (input : Input κ) (told ended : World κ ρ) : Prop where
  found : v.before.element? e = some element
  body : element.body = .input input
  took : (v.ctx.addressedTo element.id).forM
    (takeEvent app (.ofFuel app v.fuel) v.ctx e element.id input)
    (v.before.modifyElement e ({ · with locked := true })) = .ok ((), v.entered)
  reported : report (.ofFuel app v.fuel) e v.entered = .ok ((), told)
  called : v.calls =
    (input.confirmation? (v.ctx.addressedTo element.id)).toList.map fun _ => told
  ran : runHandlers app (.ofFuel app v.fuel) v.ctx element.id
    (input.confirmation? (v.ctx.addressedTo element.id)).toList told = .ok ((), ended)
  unlocked : v.after = ended.modifyElement e ({ · with locked := false })

/-- The input handles the events. All texts have been taken in `entered`, and the calls are the states
in which a callback begins to run. -/
structure Made (app : App κ ρ) (e : ElementId) (v : Visit κ ρ) : Prop where
  handled : handleEvents app (.ofFuel app v.fuel) v.ctx e v.before = .ok ((), v.after)
  stages : ∃ element input told ended, v.Stages app e element input told ended

/-- A visit of an input. Its filter answers `f` of the text so far and sets nothing, and nobody else
sets the text or the binding once all texts are taken. -/
structure Alone (app : App κ ρ) (e : ElementId) (id : String) (input : Input κ)
    (f : String → String) (x : WatcherId) (target : Option BindingId) (v : Visit κ ρ) : Prop where
  field : v.before.TextField e id input x target
  answers : ∀ text, Gives (World.Leaves x target) (f text)
    ((filterAfter app v.ctx id input text).run (.ofFuel app v.fuel))
  others : ∀ news, v.after.history = v.entered.history ++ (v.entered.untold x target ++ news) →
    Entry.Aside x target news

variable {v : Visit κ ρ}

/-- Whenever an input handles events, it is visited. -/
theorem exists_made {field : w.TextField e id input x target}
    (run : handleEvents app (.ofFuel app fuel) ctx e w = .ok ((), w')) :
    ∃ entered calls, Made app e ⟨fuel, ctx, w, entered, w', calls⟩ := by
  obtain ⟨element, hfound, -, hbody, -⟩ := field.element
  obtain ⟨-, ended, hpart, hunlocked⟩ := locking_eq_ok hfound run
  replace hpart := get_bind_eq_ok.mp hpart
  rw [World.element?_modifyElement, if_pos rfl, hfound, Option.map_some] at hpart
  simp only [hbody, handleLeaf] at hpart
  obtain ⟨_, entered, htook, hpart⟩ := bind_eq_ok.mp hpart
  obtain ⟨_, told, hreported, hran⟩ := bind_eq_ok.mp hpart
  exact ⟨entered, (input.confirmation? (ctx.addressedTo element.id)).toList.map fun _ => told, run,
    element, input, told, ended, hfound, hbody, htook, hreported, rfl, hran, hunlocked⟩

/-- A visit reports what the input shows after all texts, and calls the application in the state to
which that leads. As long as nobody else sets the text, it is held in this state and after the visit. -/
theorem Made.reports (h : v.Made app e) (happ : app.Avoids x)
    (alone : v.Alone app e id input f x target) (holds : v.before.Holds x target (.text text)) :
    let events := v.ctx.addressedTo id
    let shown := Scalar.text (input.shownAfter f text events)
    ∃ told news, v.calls = (input.confirmation? events).toList.map (fun _ => told) ∧
      v.after.history = v.entered.history ++ (v.entered.untold x target ++ news) ∧
      (Entry.Aside x target news → told.Holds x target shown ∧ v.after.Holds x target shown) := by
  obtain ⟨element, hfound, rfl, hbody, hfollower, rfl⟩ := alone.field.element
  obtain ⟨_, _, told, u, hstages⟩ := h.stages
  obtain rfl := Option.some.inj (hfound.symm.trans hstages.found)
  obtain rfl := Body.input.inj (hbody.symm.trans hstages.body)
  have htake := hstages.took
  have hreport := hstages.reported
  -- The input is locked, and still is when all texts have been taken.
  let w := v.before.modifyElement e ({ · with locked := true })
  have hlocked : w.element? e = some { element with locked := true } := by
    rw [World.element?_modifyElement, if_pos rfl, hfound]
    rfl
  have hguarded : w.Guarded e x := .modifyElement hfound rfl alone.field.own
  have hstays : w.Stays e v.entered := Respects.forM_list _ (fun _ => takeEvent_outlasts _) htake
  have hfitted : w.Fitted v.entered := Respects.forM_list _ (fun _ => takeEvent_outlasts _) htake
  have hentered : v.entered.Guarded e x := hguarded.outlast hstays hfitted
  have hsame : v.entered.element? e = some { element with locked := true } :=
    (hstays (by rw [hlocked]; rfl)).trans hlocked
  have hw : w.Holds x element.binding (.text text) := holds.leave ⟨rfl, fun _ _ => rfl⟩
  have hown : w.follower? e = some x := by
    rw [World.follower?, hlocked]
    exact hfollower
  have htyped := takeEvents_typed hown alone.answers (.of_holds hw) htake
  obtain ⟨news, hnews, hholds⟩ := report_typed happ hentered hsame hfollower htyped hreport
  -- So it is after the report, when the callback runs.
  have htold : told.Guarded e x :=
    hentered.outlast (report_outlasts e hreport) (report_outlasts e hreport)
  obtain ⟨later, hlater, hkeeps⟩ : told.Spares x element.binding u :=
    runHandlers_spares happ htold hstages.ran
  refine ⟨told, news ++ later, hstages.called, ?_, fun haside => ?_⟩
  · calc v.after.history
      _ = u.history := by rw [hstages.unlocked]; rfl
      _ = v.entered.history ++ (v.entered.untold x element.binding ++ news) ++ later := by
        rw [hlater, hnews]
      _ = _ := by rw [List.append_assoc, List.append_assoc]
  · obtain ⟨hnewsAside, hlaterAside⟩ := Entry.aside_append.mp haside
    have htoldHolds := hholds hnewsAside
    refine ⟨htoldHolds, ?_⟩
    rw [hstages.unlocked]
    exact (hkeeps hlaterAside _ htoldHolds).leave ⟨rfl, fun _ _ => rfl⟩

/-- After a visit the input and its binding hold what it shows after all texts, and they do so when the
application is called. -/
theorem Made.outcome (h : v.Made app e) (happ : app.Avoids x)
    (alone : v.Alone app e id input f x target) (holds : v.before.Holds x target (.text text)) :
    let events := v.ctx.addressedTo id
    let shown := Scalar.text (input.shownAfter f text events)
    v.after.Holds x target shown ∧
      v.calls.length = (input.confirmation? events).toList.length ∧
      ∀ w ∈ v.calls, w.Holds x target shown := by
  obtain ⟨told, news, hcalls, hhistory, hholds⟩ := h.reports happ alone holds
  obtain ⟨htold, hafter⟩ := hholds (alone.others news hhistory)
  refine ⟨hafter, by rw [hcalls, List.length_map], fun w hmem => ?_⟩
  rw [hcalls] at hmem
  obtain ⟨_, -, rfl⟩ := List.mem_map.mp hmem
  exact htold

/-- If confirmations are taken, what is held at the calls of a visit is what is confirmed in it. -/
theorem Made.confirmed (h : v.Made app e) (happ : app.Avoids x)
    (alone : v.Alone app e id input f x target) (submit : input.submit = true)
    (set : input.onSubmit.isSome = true) (holds : v.before.Holds x target (.text text)) :
    List.Forall₂ (fun w shown => w.Holds x target (.text shown)) v.calls
      (input.confirmed f text (EventKind.gathered (v.ctx.addressedTo id))) := by
  obtain ⟨code, hcode⟩ := Option.isSome_iff_exists.mp set
  obtain ⟨-, hlength, hholds⟩ := h.outcome happ alone holds
  rw [Input.confirmation?, submit, hcode, Bool.true_and] at hlength
  rw [Input.confirmed_gathered]
  split
  · next hany =>
      rw [if_pos hany] at hlength
      obtain ⟨w, hw⟩ := List.length_eq_one_iff.mp hlength
      rw [hw] at hholds ⊢
      exact .cons (hholds w List.mem_cons_self) .nil
  · next hnone =>
      rw [if_neg hnone] at hlength
      rw [List.length_eq_zero_iff.mp hlength]
      exact .nil

/-! ## Any number of visits -/

/-- An input from frame to frame. Nobody else sets its text or the binding in a visit or between two,
and before the first one it has a text. -/
structure Undisturbed (app : App κ ρ) (e : ElementId) (id : String) (input : Input κ)
    (f : String → String) (x : WatcherId) (target : Option BindingId) (text : String)
    (visits : List (Visit κ ρ)) : Prop where
  made : ∀ v ∈ visits, v.Made app e
  alone : ∀ v ∈ visits, v.Alone app e id input f x target
  first : ∀ v ∈ visits.head?, v.before.Holds x target (.text text)
  between : visits.IsChain fun v v' => v.after.Leaves x target v'.before

variable {visits : List (Visit κ ρ)}

/-- What is held at the calls is what is confirmed when the texts of every frame come before its
confirmations, and these count as one. The induction is on the visits. -/
theorem Undisturbed.confirmed (happ : app.Avoids x) (submit : input.submit = true)
    (set : input.onSubmit.isSome = true)
    (h : Undisturbed app e id input f x target text visits) :
    List.Forall₂ (fun w shown => w.Holds x target (.text shown)) (visits.flatMap (·.calls))
      (input.confirmed f text
        (visits.flatMap fun v => EventKind.gathered (v.ctx.addressedTo id))) := by
  induction visits generalizing text with
  | nil => exact .nil
  | cons v visits ih =>
      have hmade := h.made v List.mem_cons_self
      have halone := h.alone v List.mem_cons_self
      have hholds := h.first v rfl
      have hafter := (hmade.outcome happ halone hholds).1
      have hrest : Undisturbed app e id input f x target
          (input.shownAfter f text (v.ctx.addressedTo id)) visits := by
        refine ⟨fun v' hv' => h.made v' (List.mem_cons_of_mem _ hv'),
          fun v' hv' => h.alone v' (List.mem_cons_of_mem _ hv'), fun v' hv' => ?_, ?_⟩
        · exact hafter.leave ((List.isChain_cons.mp h.between).1 v' hv')
        · exact (List.isChain_cons.mp h.between).2
      rw [List.flatMap_cons, List.flatMap_cons, Input.confirmed_append, Input.shownAfter_gathered]
      exact List.rel_append (hmade.confirmed happ halone submit set hholds) (ih hrest)

omit [Ordered ρ] in
theorem addressedTo_events (visits : List (Visit κ ρ)) (id : String) :
    ({ events := visits.flatMap (·.ctx.events) } : EventContext).addressedTo id =
      (visits.map (·.ctx.addressedTo id)).flatten := by
  induction visits with
  | nil => rfl
  | cons v visits ih =>
      rw [List.flatMap_cons, EventContext.addressedTo_append, ih, List.map_cons, List.flatten_cons]
      rfl

/-- In every frame with a confirmation, an input that takes them calls the application once, when it
and its binding have what it accepted of the last text. So if neither a text nor a confirmation follows
a confirmation in the same frame, what is held at the calls is what the stream of events confirms,
however it is cut into frames. -/
theorem calls_confirmed (happ : app.Avoids x) (submit : input.submit = true)
    (set : input.onSubmit.isSome = true)
    (h : Undisturbed app e id input f x target text visits) :
    List.Forall₂ (fun w shown => w.Holds x target (.text shown)) (visits.flatMap (·.calls))
      (input.confirmed f text
        (visits.flatMap fun v => EventKind.gathered (v.ctx.addressedTo id))) ∧
    ((∀ v ∈ visits, EventKind.Tidy (v.ctx.addressedTo id)) →
      List.Forall₂ (fun w shown => w.Holds x target (.text shown)) (visits.flatMap (·.calls))
        (input.confirmed f text
          (({ events := visits.flatMap (·.ctx.events) } : EventContext).addressedTo id))) := by
  have hconfirmed := h.confirmed happ submit set
  refine ⟨hconfirmed, fun tidy => ?_⟩
  have htidy : ∀ events ∈ visits.map (·.ctx.addressedTo id), EventKind.Tidy events :=
    List.forall_mem_map.mpr tidy
  rw [addressedTo_events, ← Input.confirmed_flatMap_gathered htidy, List.flatMap_map]
  exact hconfirmed

end Visit

/-! ## An input whose content is confirmed twice in a frame -/

/-- An input of two characters at most, which can be confirmed. -/
def Input.typing : Input Unit where
  hint := ""
  type := .text
  maxLength := 2
  submit := true
  onSubmit := some ()

/-- An input that follows a binding. The two have texts of their own while the input is edited. Of
what has happened the latest comes first. -/
def World.typing (shown held : String) (locked edited : Bool) (trail : List Entry) :
    World Unit Empty where
  bindings := #[{ name := "text", content := .one (.text held), watchers := [⟨0⟩] }]
  watchers := #[{ watcher := .mirror { value := .text shown, edited }, owner := some ⟨0⟩ }]
  elements := #[{
    id := "field", window := none, follower := some ⟨0⟩, binding := some ⟨0⟩, locked
    body := .input .typing }]
  pinned := [⟨0⟩]
  trail := trail

/-- What is recorded when two texts are taken and reported, the latest first. -/
def Entry.typed : List Entry :=
  [.settled ⟨0⟩, .returned ⟨0⟩ ⟨0⟩, .called ⟨0⟩ ⟨0⟩, .round ⟨0⟩ [⟨0⟩], .changed ⟨0⟩, .edited ⟨0⟩,
    .edited ⟨0⟩]

/-- Two texts and a confirmation. -/
def Visit.typing : Visit Unit Empty where
  fuel := 2
  ctx := { events := [⟨"field", .text "a"⟩, ⟨"field", .text "abc"⟩, ⟨"field", .submit⟩] }
  before := .typing "" "" false false []
  entered := .typing "ab" "" true true [.edited ⟨0⟩, .edited ⟨0⟩]
  after := .typing "ab" "ab" false false Entry.typed
  calls := [.typing "ab" "ab" true false Entry.typed]

/-- Two confirmations. -/
def Visit.confirming : Visit Unit Empty where
  fuel := 2
  ctx := { events := [⟨"field", .submit⟩, ⟨"field", .submit⟩] }
  before := .typing "ab" "ab" false false Entry.typed
  entered := .typing "ab" "ab" true false Entry.typed
  after := .typing "ab" "ab" false false Entry.typed
  calls := [.typing "ab" "ab" true false Entry.typed]

theorem World.typing_field (shown held : String) (locked edited : Bool) (trail : List Entry) :
    (typing shown held locked edited trail).TextField ⟨0⟩ "field" .typing ⟨0⟩ (some ⟨0⟩) where
  element := ⟨_, rfl, rfl, rfl, rfl, rfl⟩
  own := by
    rintro ⟨i⟩ h
    cases i with
    | zero => rfl
    | succ i => cases h

/-- The text is confirmed once in each of two frames, although there are three confirmations. -/
theorem Visit.calls_confirmed_typing :
    let f (text : String) : String := String.ofList (Input.typing.type.filterAfter text.toList)
    App.Avoids (κ := Unit) (ρ := Empty) App.idle ⟨0⟩ ∧
      Undisturbed App.idle ⟨0⟩ "field" .typing f ⟨0⟩ (some ⟨0⟩) "" [typing, confirming] ∧
      List.Forall₂ (fun w shown => w.Holds ⟨0⟩ (some ⟨0⟩) (.text shown))
        (typing.calls ++ confirming.calls) ["ab", "ab"] ∧
      Input.typing.confirmed f "" (typing.ctx.addressedTo "field" ++
        confirming.ctx.addressedTo "field") = ["ab", "ab", "ab"] := by
  intro f
  have havoids : App.Avoids (κ := Unit) (ρ := Empty) App.idle ⟨0⟩ := by
    constructor <;> intros <;> trivial
  have hanswers (ctx : EventContext) (text : String) :
      Gives (World.Leaves ⟨0⟩ (some ⟨0⟩)) (f text) ((filterAfter App.idle ctx "field" .typing text).run
        (.ofFuel App.idle 2) : Machine Unit Empty String) :=
    .pure (f text)
  have hundisturbed :
      Undisturbed App.idle ⟨0⟩ "field" .typing f ⟨0⟩ (some ⟨0⟩) "" [typing, confirming] := by
    refine ⟨?_, ?_, ?_, ?_⟩
    · rw [List.forall_mem_cons, List.forall_mem_singleton]
      refine ⟨⟨by with_unfolding_all rfl, _, _, _, _, rfl, rfl, ?_, ?_, rfl, rfl, rfl⟩,
        ⟨rfl, _, _, _, _, rfl, rfl, rfl, rfl, rfl, rfl, rfl⟩⟩
      all_goals with_unfolding_all rfl
    · rw [List.forall_mem_cons, List.forall_mem_singleton]
      refine ⟨⟨World.typing_field _ _ _ _ _, hanswers _, fun news hnews => ?_⟩,
        ⟨World.typing_field _ _ _ _ _, hanswers _, fun news hnews => ?_⟩⟩
      · rw [show typing.entered.untold ⟨0⟩ (some ⟨0⟩) = [.changed ⟨0⟩] by decide +kernel] at hnews
        have hround : Entry.typed.reverse = .edited ⟨0⟩ :: .edited ⟨0⟩ :: .changed ⟨0⟩ :: news :=
          hnews
        obtain rfl := (List.cons.inj (List.cons.inj (List.cons.inj hround).2).2).2
        exact ⟨by simp, by simp, by simp⟩
      · rw [show confirming.entered.untold ⟨0⟩ (some ⟨0⟩) = [] by decide +kernel] at hnews
        obtain rfl : news = [] := List.self_eq_append_right.mp hnews
        exact ⟨by simp, by simp, by simp⟩
    · rintro _ ⟨⟩
      exact ⟨⟨_, rfl, rfl, fun _ _ => rfl⟩, fun b hb => by cases hb; rfl⟩
    · exact .cons_cons ⟨rfl, fun _ _ => rfl⟩ (.singleton _)
  have hconfirmed := (calls_confirmed havoids rfl rfl hundisturbed).1
  have hgathered : Input.typing.confirmed f ""
      ([typing, confirming].flatMap fun v => EventKind.gathered (v.ctx.addressedTo "field")) =
        ["ab", "ab"] := by
    decide +kernel
  rw [hgathered] at hconfirmed
  exact ⟨havoids, hundisturbed, hconfirmed, by decide +kernel⟩

end Trellis
