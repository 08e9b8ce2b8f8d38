import Trellis.Proofs.Pointer.Turns

/-!
# What a pressable widget reports

A widget compares its state after the phases of a frame with the one before them, so what happens
within a frame is not reported. Over any number of turns its calls still tell how it is.

* `Turns.tells` — the calls for presses and for hovering tell how the widget is.
* `Turns.calls_alternate` — either kind alternates, and a press lies within a stay of the pointer.
-/

namespace Trellis

open PointerCall (Alternate Tells)

variable {κ ρ : Type} [Ordered ρ] {app : App κ ρ} {e : ElementId} {turns : List (Turn κ ρ)}
  {state : PointerState}

namespace Turns

/-- The calls tell how the widget is now. -/
theorem tells (h : Turns app e turns state) (attends : ∀ t ∈ turns, ∀ call, t.Attends e call) :
    Tells .pressDown .pressUp (turns.flatMap (·.calls)) state.pressed ∧
      Tells .hoverEntered .hoverExited (turns.flatMap (·.calls)) state.hovered := by
  induction h with
  | start => exact ⟨PointerCall.tells_nil, PointerCall.tells_nil⟩
  | next earlier found taken left ih =>
      obtain ⟨hpress, hhover⟩ := ih fun t ht => attends t (List.mem_append_left _ ht)
      have hcalls := taken.calls_eq found left (attends _ List.mem_concat_self)
      rw [List.flatMap_append, List.flatMap_singleton]
      refine ⟨hpress.append (by simp) ?_, hhover.append (by simp) ?_⟩
      · rw [hcalls, PointerState.filter_calls_press]
      · rw [hcalls, PointerState.filter_calls_hover]

/-- With all callbacks set, the calls for presses alternate, as do those for hovering. A widget calls
once in every turn for being pressed, and for being hovered, as long as the one is under way, or the
other; and it is pressed only while it is hovered. -/
theorem calls_alternate (h : Turns app e turns state)
    (attends : ∀ t ∈ turns, ∀ call, t.Attends e call) :
    Alternate .pressDown .pressUp (turns.flatMap (·.calls)) ∧
    Alternate .hoverEntered .hoverExited (turns.flatMap (·.calls)) ∧
    ∀ front t back, turns = front ++ t :: back →
      let calls := (front ++ [t]).flatMap (·.calls)
      t.calls.count .pressed = (if calls.count .pressUp < calls.count .pressDown then 1 else 0) ∧
      t.calls.count .hovered =
        (if calls.count .hoverExited < calls.count .hoverEntered then 1 else 0) ∧
      (∃ now, t.after.pointer? e = some now ∧ (now.pressed → now.hovered)) ∧
      (calls.count .pressUp < calls.count .pressDown →
        calls.count .hoverExited < calls.count .hoverEntered) := by
  obtain ⟨hpress, hhover⟩ := h.tells attends
  refine ⟨hpress.alternate, hhover.alternate, ?_⟩
  rintro front t back rfl
  rw [List.append_cons] at h attends
  obtain ⟨now, hturns⟩ := h.front
  have hattends (t' : Turn κ ρ) (ht : t' ∈ front ++ [t]) : ∀ call, t'.Attends e call :=
    attends t' (List.mem_append_left _ ht)
  obtain ⟨hpress, hhover⟩ := hturns.tells hattends
  obtain ⟨before, -, hfound, htaken, hleft⟩ := hturns.concat
  have hcalls := htaken.calls_eq hfound hleft (hattends t List.mem_concat_self)
  obtain ⟨hpressed, hhovered, -⟩ := before.count_calls now t.clicks
  -- No phase leaves a widget pressed and not hovered, and a fresh one is neither.
  have hheld : now.pressed → now.hovered := by
    have hfresh : ({} : PointerState).pressed → ({} : PointerState).hovered := nofun
    have hstate := PointerState.hovered_of_pressed hfresh ((front ++ [t]).flatMap (·.heard e))
    rw [hturns.apply_eq] at hstate
    exact hstate
  refine ⟨?_, ?_, ⟨now, hleft, hheld⟩, ?_⟩
  · simp only [← hpress.now_iff, hcalls]
    rw [hpressed]
    cases now.pressed <;> rfl
  · simp only [← hhover.now_iff, hcalls]
    rw [hhovered]
    cases now.hovered <;> rfl
  · rw [← hpress.now_iff, ← hhover.now_iff]
    exact hheld

end Turns

/-! ## A button that is pressed for a while -/

/-- A button with all callbacks set, and the pointer state that it has. -/
def World.pressing (pointer : PointerState) : World Unit Empty :=
  let handlers : PointerHandlers Unit :=
    ⟨some (), some (), some (), some (), some (), some (), some ()⟩
  { elements := #[{ id := "go", window := none, body := .button ⟨"Go", Palette.accent, handlers, pointer⟩ }] }

/-- A turn in which the button hears of some phases. -/
def Turn.pressing (before after : PointerState) (phases : List PointerPhase) (clicks : Nat)
    (calls : List PointerCall) : Turn Unit Empty where
  fuel := 1
  ctx := { events := phases.map fun phase => ⟨"go", .pointer phase⟩ }
  before := .pressing before
  after := .pressing after
  clicks := clicks
  calls := calls

/-- A button that is released and pressed again within a frame goes on being pressed, as far as it
reports. -/
theorem Turns.calls_alternate_pressing :
    let turns : List (Turn Unit Empty) := [
      .pressing ⟨false, false⟩ ⟨true, true⟩ [.press] 0
        [.pressDown, .pressed, .hoverEntered, .hovered],
      .pressing ⟨true, true⟩ ⟨true, true⟩ [.release, .press, .release, .press] 2
        [.pressed, .hovered, .clicked, .clicked],
      .pressing ⟨true, true⟩ ⟨false, false⟩ [.leave, .release] 0 [.pressUp, .hoverExited]]
    Turns App.idle ⟨0⟩ turns {} ∧ (∀ t ∈ turns, ∀ call, t.Attends ⟨0⟩ call) ∧
      Alternate .pressDown .pressUp (turns.flatMap (·.calls)) ∧
      Alternate .hoverEntered .hoverExited (turns.flatMap (·.calls)) := by
  intro turns
  have hfirst : Turns App.idle ⟨0⟩ ([] ++ [turns[0]]) ⟨true, true⟩ :=
    Turns.start.next rfl (.of_handled rfl rfl rfl rfl rfl) rfl
  have hsecond : Turns App.idle ⟨0⟩ ([turns[0]] ++ [turns[1]]) ⟨true, true⟩ :=
    hfirst.next rfl (.of_handled rfl rfl rfl rfl rfl) rfl
  have hturns : Turns App.idle ⟨0⟩ turns {} := hsecond.next rfl (.of_handled rfl rfl rfl rfl rfl) rfl
  have hattends : ∀ t ∈ turns, ∀ call, t.Attends ⟨0⟩ call := by
    simp only [turns, List.forall_mem_cons]
    refine ⟨?_, ?_, ?_, List.forall_mem_nil _⟩
    all_goals
      rintro call _ ⟨⟩
      cases call <;> rfl
  obtain ⟨hpress, hhover, -⟩ := calls_alternate hturns hattends
  exact ⟨hturns, hattends, hpress, hhover⟩

end Trellis
