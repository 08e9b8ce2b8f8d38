import Mathlib
import Trellis.Host.Views
import Trellis.Proofs.Definition.Adding
import Trellis.Proofs.Figure.Unseen
import Trellis.Proofs.Notification.Rounds
import Trellis.Registry.Builtin

/-!
# What a failed build leaves behind

A build that fails leaves elements that nobody holds. Bindings may list watchers of theirs until the
next round, but nobody is told who would not have been told before.

* `World.Spared` — whatever was there is as it was, and whatever has been added is dead.
* `Machine.failed_spares` — failed builds, and views that could not be prepared.
-/

namespace Trellis

variable {κ ρ : Type} {w v w' : World κ ρ}

namespace World

/-- Whatever was there is as it was, and whatever has been added is dead. -/
structure Spared (w w' : World κ ρ) : Prop where
  /-- Bindings keep their values and list those that they listed. All others are dead. -/
  binding : ∀ b c, w.binding? b = some c → ∃ dead,
    w'.binding? b = some { c with watchers := c.watchers ++ dead } ∧
    ∀ x ∈ dead, w'.watcherAlive x = false
  unknown : ∀ b, w.binding? b = none → w'.binding? b = none
  listeners : ∀ b, w'.listeners b = w.listeners b
  /-- The next round calls whom it would have called before, and the binding lists nobody else. -/
  told : ∀ b watchers v, Machine.beginRound b w' = .ok (watchers, v) →
    watchers = w.listeners b ∧ ∀ c, v.binding? b = some c → c.watchers = w.listeners b
  watcherAlive : ∀ x, w'.watcherAlive x = w.watcherAlive x
  watcher : ∀ x : WatcherId, x.index < w.watchers.size → w'.watcher? x = w.watcher? x
  elementAlive : ∀ e, w'.elementAlive e = w.elementAlive e
  element : ∀ e : ElementId, e.index < w.elements.size → w'.element? e = w.element? e
  window : ∀ x, (w'.window? x).map Window.lasting = (w.window? x).map Window.lasting
  awaiting : w'.awaiting = w.awaiting
  session : w'.session = w.session
  definition : w'.definition = w.definition
  scope : w'.scope = w.scope
  trail : w'.trail = w.trail
  /-- Looking an id up gives what it gave. -/
  found : ∀ index id, w'.find? index id = w.find? index id
  /-- Trees are drawn as they were. -/
  drawn : ∀ (app : App κ ρ) (e : ElementId), e.index < w.elements.size → ∀ figure u,
    Machine.figure app e w = .ok (figure, u) → Machine.figure app e w' = .ok (figure, w')

/-- Nobody can tell that something was added. -/
theorem Added.spared (h : w.Added w') (grounded : w.Grounded) : w.Spared w' where
  binding b c hc := by
    obtain ⟨added, hb, hadded⟩ := h.binding b
    rw [hc] at hb
    exact ⟨added, hb, fun x hx => h.not_watcherAlive grounded (hadded x hx)⟩
  unknown b hnone := by
    obtain ⟨added, hb, -⟩ := h.binding b
    rw [hb, hnone]
    rfl
  listeners := h.listeners grounded
  told b watchers v run := by
    obtain ⟨rfl, rfl⟩ := Machine.beginRound_eq_ok run
    refine ⟨h.listeners grounded b, fun c hc => ?_⟩
    rw [binding?_inRound_self] at hc
    obtain ⟨binding, hbinding, rfl⟩ := Option.map_eq_some_iff.mp hc
    rw [← h.listeners grounded b, World.listeners, hbinding]
    rfl
  watcherAlive := h.watcherAlive grounded
  watcher := h.watcher
  elementAlive := h.elementAlive grounded.toClosed
  element := h.element
  window := h.window
  awaiting := h.awaiting
  session := h.session
  definition := h.definition
  scope := h.scope
  trail := h.trail
  found := h.find? grounded.toClosed
  drawn app e old figure u run := (Machine.figure_added h grounded old run).2

end World

namespace Machine

variable [Ordered ρ]

/-- A view that could not be prepared keeps the tree it had. Nothing is held that building has added
since the model was prepared. -/
theorem prepareView_failed {s : Setting κ ρ} {window : WindowId} {view view' : View κ}
    {e : ViewError} (run : prepareView s window view w = .ok ((view', some e), w')) :
    view' = { view with window := some window } ∧
    ∃ reason v, prepareModel s view.model w = .ok (reason, v) ∧ (reason.isSome → w' = v) ∧
      v.Added w' := by
  obtain ⟨reason, v, hmodel, run⟩ := bind_eq_ok.mp run
  cases reason with
  | some reason =>
      obtain ⟨hview, rfl⟩ := pure_eq_ok.mp run
      cases hview
      exact ⟨rfl, some reason, v, hmodel, fun _ => rfl, .refl v⟩
  | none =>
      suffices view' = { view with window := some window } ∧ v.Added w' from
        ⟨this.1, none, v, hmodel, fun h => absurd h Bool.false_ne_true, this.2⟩
      cases hscreen : view.screen with
      | none =>
          simp only [hscreen] at run
          obtain ⟨hview, -⟩ := pure_eq_ok.mp run
          cases hview
      | some screen =>
          simp only [hscreen] at run
          replace run := get_bind_eq_ok.mp run
          obtain ⟨outcome, u, hload, run⟩ := bind_eq_ok.mp run
          have hadded := Definition.load_adds _ v screen.source screen.name (.refl v) hload
          cases outcome with
          | error e =>
              obtain ⟨hview, rfl⟩ := pure_eq_ok.mp run
              cases hview
              exact ⟨rfl, hadded.1⟩
          | ok definition =>
              obtain ⟨_, u', -, run⟩ := bind_eq_ok.mp run
              obtain ⟨hview, -⟩ := pure_eq_ok.mp run
              cases hview

/-- A build that fails spares what was there. A view that could not be prepared keeps the tree it
had, and whatever was there after its model was prepared is spared. -/
theorem failed_spares (s : Setting κ ρ) :
    (∀ (ctx : BuildContext κ ρ) (doc : Node) (e : BuildError) (w w' : World κ ρ), w.Grounded →
      Definition.build ctx doc w = .ok (.error e, w') → w.Spared w') ∧
    ∀ (window : WindowId) (view view' : View κ) (e : ViewError) (w w' : World κ ρ),
      prepareView s window view w = .ok ((view', some e), w') →
      view' = { view with window := some window } ∧
      ∃ reason v, prepareModel s view.model w = .ok (reason, v) ∧ (reason.isSome → w' = v) ∧
        (v.Grounded → v.Spared w') := by
  refine ⟨fun ctx doc e w w' grounded run => ?_, fun window view view' e w w' run => ?_⟩
  · have hadded := Definition.build_adds ctx w doc (.refl w) run
    exact hadded.1.spared grounded
  · obtain ⟨hview, reason, v, hmodel, hsome, hadded⟩ := prepareView_failed run
    exact ⟨hview, reason, v, hmodel, hsome, hadded.spared⟩

/-- Why a build failed, and the state after it. -/
def failure? {α : Type} : Except Stop (Except BuildError α × World κ ρ) →
    Option (BuildError × World κ ρ)
  | .ok (.error e, w) => some (e, w)
  | _ => none

omit [Ordered ρ] in
theorem eq_of_failure? {α : Type} {outcome : Except Stop (Except BuildError α × World κ ρ)}
    {e : BuildError} {w : World κ ρ} (h : failure? outcome = some (e, w)) :
    outcome = .ok (.error e, w) := by
  unfold failure? at h
  split at h
  · cases h
    rfl
  · cases h

/-- The texts of a document that holds two of them and an empty mapping. -/
def texts : Option Datum → List String
  | some (.mapping [(a, .text b), (c, .text d), (e, .mapping [])]) => [a, b, c, d, e]
  | _ => []

theorem eq_of_texts {read : Option Datum} {a b c d e : String} (h : texts read = [a, b, c, d, e]) :
    read = some (.mapping [(a, .text b), (c, .text d), (e, .mapping [])]) := by
  unfold texts at h
  split at h
  · cases h
    rfl
  · cases h

/-- A label follows its binding before its child turns out to have no type. The view keeps its root,
and the binding lists a watcher that is dead. -/
theorem failed_spares_unnamed :
    let text := "\x7b\"type\":\"widget.Label\",\"binding\":\"b\",\"child\":\x7b\x7d\x7d"
    let doc : Node :=
      [("type", .text "widget.Label"), ("binding", .text "b"), ("child", .mapping [])]
    let s : Setting Unit Empty := { app := .idle, registry := .builtin, fuel := 0 }
    let view : View Unit := {
      id := "v"
      model := .table [("b", ⟨0⟩)]
      screen := some { source := ⟨fun _ => .ok text.toUTF8⟩, name := "v" }
      root := some ⟨0⟩ }
    let w : World Unit Empty := {
      bindings := #[{ name := "b", content := .one (.text "x") }]
      elements := #[{ id := "old", window := none, body := .spacer Vec.zero }] }
    let ctx : BuildContext Unit Empty :=
      { registry := .builtin, lookup := view.lookup .idle w, window := some ⟨0⟩ }
    w.Grounded ∧ ∃ w', Definition.build ctx doc w = .ok (.error (.missingType [.child]), w') ∧
      w.Spared w' ∧ (w'.binding? ⟨0⟩).map (·.watchers) = some [⟨0⟩] ∧
      ∃ view', prepareView s ⟨0⟩ view w =
          .ok ((view', some (.definition (.missingType [.child]))), w') ∧ view'.root = some ⟨0⟩ := by
  intro text doc s view w ctx
  have hgrounded : w.Grounded := by
    refine ⟨⟨fun r hr => ?_, fun e c hc => ?_⟩, fun x hx => ?_, fun e el x hel hx => ?_⟩
    · cases hr
    · obtain ⟨n⟩ := e
      cases n <;> cases hc
    · cases hx
    · obtain ⟨n⟩ := e
      cases n with
      | zero =>
          cases hel
          cases hx
      | succ n => cases hel
  have houtcome : ((failure? (Definition.build ctx doc w)).map fun failure =>
      (failure.1, (failure.2.binding? ⟨0⟩).map (·.watchers))) =
      some (.missingType [.child], some [⟨0⟩]) := by decide +kernel
  obtain ⟨⟨e, w'⟩, hfailure, heq⟩ := Option.map_eq_some_iff.mp houtcome
  obtain ⟨he, hwatchers⟩ := Prod.mk.inj heq
  have hrun : Definition.build ctx doc w = .ok (.error (.missingType [.child]), w') :=
    he ▸ eq_of_failure? hfailure
  have hutf : String.fromUTF8? text.toUTF8 = some text := dif_pos text.isValidUTF8
  have hformat : Format.ofName "v" = .json := by cbv
  have hread : Format.json.read? text = some (.mapping doc) := eq_of_texts (by decide +kernel)
  have hload : Definition.load ctx ⟨fun _ => .ok text.toUTF8⟩ "v" =
      Definition.build ctx doc := by
    simp only [Definition.load, Definition.parse, hutf, hformat, hread]
  have hprepare : prepareView s ⟨0⟩ view w =
      .ok (({ view with window := some ⟨0⟩ }, some (.definition (.missingType [.child]))), w') := by
    refine bind_eq_ok.mpr ⟨none, w, rfl, ?_⟩
    refine bind_eq_ok.mpr ⟨w, w, rfl, ?_⟩
    exact bind_eq_ok.mpr ⟨_, w', (congrFun hload w).trans hrun, rfl⟩
  have hspares := failed_spares s
  refine ⟨hgrounded, w', hrun, hspares.1 ctx doc _ w w' hgrounded hrun, hwatchers, _, hprepare, ?_⟩
  rw [(hspares.2 ⟨0⟩ view _ _ w w' hprepare).1]

end Machine

end Trellis
