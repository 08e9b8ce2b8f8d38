import Mathlib.Data.List.Induction
import Trellis.Element.Body

/-!
# Pointers on a pressable widget

What a pressable widget counts as clicks, and what it calls for, goes by the phases of the pointer that
it has heard of since it was made, however they were cut into frames.

* `PointerPhase.completed` — the clicks among phases, counted by looking back from every release.
* `PointerState.apply_fresh` — following the pointer comes to that.
* `PointerState.calls` — what a widget calls for in a frame.
* `PointerCall.Alternate`, `PointerCall.Tells` — calls that tell of a switch being turned on and off.
-/

namespace Trellis

/-! ## Clicks -/

/-- Whether the pointer is held down after some phases: the last one that is no entering is a press. -/
def PointerPhase.held (phases : List PointerPhase) : Bool :=
  (phases.filter (· ≠ .enter)).getLast? = some .press

/-- The releases among phases that come while the pointer is held down. -/
def PointerPhase.completed (phases : List PointerPhase) : Nat :=
  (List.range phases.length).countP fun i =>
    phases[i]? = some .release && held (phases.take i)

namespace PointerPhase

theorem completed_concat (phases : List PointerPhase) (phase : PointerPhase) :
    completed (phases ++ [phase]) =
      completed phases + if phase = .release && held phases then 1 else 0 := by
  have hearlier : (List.range phases.length).countP (fun i =>
      (phases ++ [phase])[i]? = some .release && held ((phases ++ [phase]).take i)) =
        completed phases := by
    refine List.countP_congr fun i hi => ?_
    have hlt : i < phases.length := List.mem_range.mp hi
    rw [List.getElem?_append_left hlt, List.take_append_of_le_length (Nat.le_of_lt hlt)]
  -- What is counted up to the last phase does not see it.
  have hlast : (phases ++ [phase])[phases.length]? = some phase := by simp
  rw [completed, List.length_append, List.length_singleton, List.range_succ, List.countP_append,
    hearlier, List.countP_singleton, hlast, List.take_left]
  simp

theorem held_concat (phases : List PointerPhase) (phase : PointerPhase) :
    held (phases ++ [phase]) = match phase with
      | .enter => held phases
      | .press => true
      | .leave | .release => false := by
  cases phase <;> simp [held, List.filter_append]

end PointerPhase

namespace PointerState

theorem apply_append (state : PointerState) (front back : List PointerPhase) :
    state.apply (front ++ back) =
      (((state.apply front).1.apply back).1,
        (state.apply front).2 + ((state.apply front).1.apply back).2) := by
  induction front generalizing state with
  | nil => simp [apply]
  | cons phase front ih =>
      simp only [List.cons_append, apply, ih]
      rw [Prod.mk.injEq]
      exact ⟨rfl, by omega⟩

/-- A widget that is pressed is hovered. -/
theorem hovered_of_pressed {state : PointerState} (h : state.pressed → state.hovered)
    (phases : List PointerPhase) :
    (state.apply phases).1.pressed → (state.apply phases).1.hovered := by
  induction phases generalizing state with
  | nil => exact h
  | cons phase phases ih =>
      refine ih ?_
      cases phase <;> simp_all [step]

/-- A fresh widget is pressed as long as the pointer is held down, and counts as clicks the releases
that end that. The induction is on the phases, from the end. -/
theorem apply_fresh (phases : List PointerPhase) :
    ((({} : PointerState).apply phases).1.pressed = PointerPhase.held phases) ∧
      (({} : PointerState).apply phases).2 = PointerPhase.completed phases := by
  induction phases using List.reverseRecOn with
  | nil => exact ⟨rfl, rfl⟩
  | append_singleton phases phase ih =>
      obtain ⟨hpressed, hclicks⟩ := ih
      rw [apply_append, PointerPhase.completed_concat, PointerPhase.held_concat]
      cases phase <;> simp [apply, step, clicksOf, hpressed, hclicks]

end PointerState

/-! ## Calls -/

/-- Whether a call is for a switch. -/
def PointerCall.isFor (on off call : PointerCall) : Bool := call = on || call = off

/-- The call for a switch that has been turned on or off, if it has. -/
def PointerCall.switch (on off : PointerCall) (before now : Bool) : List PointerCall :=
  if now && !before then [on] else if !now && before then [off] else []

/-- What a widget calls for, in order, when its state changes and clicks are completed. -/
def PointerState.calls (before now : PointerState) (clicks : Nat) : List PointerCall :=
  PointerCall.switch .pressDown .pressUp before.pressed now.pressed ++
    (if now.pressed then [.pressed] else []) ++
    PointerCall.switch .hoverEntered .hoverExited before.hovered now.hovered ++
    (if now.hovered then [.hovered] else []) ++
    List.replicate clicks .clicked

namespace PointerHandlers

variable {κ : Type} (h : PointerHandlers κ) (before now : PointerState) (clicks : Nat)

/-- What is due is what the widget calls for, as far as callbacks are set. -/
theorem due_eq : h.due before now clicks = (before.calls now clicks).flatMap h.call := by
  rw [due, PointerState.calls, List.flatMap_append, List.flatMap_replicate]
  obtain ⟨hovered, pressed⟩ := before
  obtain ⟨hovered', pressed'⟩ := now
  cases hovered <;> cases pressed <;> cases hovered' <;> cases pressed' <;>
    simp [PointerCall.switch]

/-- The calls that are due. -/
theorem map_fst_due : (h.due before now clicks).map (·.1) =
    (before.calls now clicks).filter fun call => (h.code? call).isSome := by
  rw [due_eq, List.map_flatMap]
  induction before.calls now clicks with
  | nil => rfl
  | cons call calls ih =>
      rw [List.flatMap_cons, List.filter_cons, ih, PointerHandlers.call]
      cases h.code? call <;> rfl

end PointerHandlers

namespace PointerCall

/-- The calls for a switch alternate, the first one being to turn it on. -/
def Alternate (on off : PointerCall) (calls : List PointerCall) : Prop :=
  ∀ i call, (calls.filter (isFor on off))[i]? = some call → call = if i % 2 = 0 then on else off

/-- Calls that tell how a switch is now. -/
structure Tells (on off : PointerCall) (calls : List PointerCall) (now : Bool) : Prop where
  alternate : Alternate on off calls
  balance : calls.count on = calls.count off + now.toNat

variable {on off : PointerCall} {calls more : List PointerCall} {before now : Bool}

theorem tells_nil : Tells on off [] false where
  alternate i call h := by simp at h
  balance := rfl

/-- A switch is on as long as it was turned on more often than off. -/
theorem Tells.now_iff (h : Tells on off calls now) : now = true ↔ calls.count off < calls.count on := by
  have hbalance := h.balance
  cases now <;> simp at hbalance ⊢ <;> omega

/-- The calls for a switch are those to turn it on and those to turn it off. -/
theorem length_filter_switch (hne : on ≠ off) (calls : List PointerCall) :
    (calls.filter (isFor on off)).length = calls.count on + calls.count off := by
  induction calls with
  | nil => rfl
  | cons call calls ih =>
      rw [List.filter_cons, List.count_cons, List.count_cons]
      by_cases hon : call = on
      · subst hon
        simp [isFor, hne, ih, Nat.add_right_comm]
      · by_cases hoff : call = off
        · subst hoff
          simp [isFor, hon, ih, Nat.add_assoc]
        · simp [isFor, hon, hoff, ih]

/-- More calls, in which the switch is turned at most once. -/
theorem Tells.append (hne : on ≠ off) (h : Tells on off calls before)
    (turned : more.filter (isFor on off) = switch on off before now) :
    Tells on off (calls ++ more) now where
  alternate i call hcall := by
    have hlength := length_filter_switch hne calls
    have hbalance := h.balance
    rw [List.filter_append, turned, List.getElem?_append] at hcall
    split at hcall
    · exact h.alternate i call hcall
    · next hle =>
        -- The last call before tells how the switch was, and so which call it is.
        cases before with
        | false =>
            cases now with
            | false => simp [switch] at hcall
            | true =>
                obtain ⟨hi, rfl⟩ : i - (calls.filter (isFor on off)).length = 0 ∧ on = call := by
                  simpa [switch, List.getElem?_singleton] using hcall
                rw [Bool.toNat_false] at hbalance
                rw [if_pos (by omega)]
        | true =>
            cases now with
            | false =>
                obtain ⟨hi, rfl⟩ : i - (calls.filter (isFor on off)).length = 0 ∧ off = call := by
                  simpa [switch, List.getElem?_singleton] using hcall
                rw [Bool.toNat_true] at hbalance
                rw [if_neg (by omega)]
            | true => simp [switch] at hcall
  balance := by
    have hbalance := h.balance
    have hcount (c : PointerCall) (hc : isFor on off c = true) :
        more.count c = (switch on off before now).count c := by
      rw [← turned, List.count_filter hc]
    rw [List.count_append, List.count_append, hcount on (by simp [isFor]),
      hcount off (by simp [isFor]), hbalance]
    cases before <;> cases now <;> simp [switch, hne, hne.symm]

end PointerCall

namespace PointerState

open PointerCall (isFor switch)

/-- Of the calls for a change of state, those for presses. -/
theorem filter_calls_press (before now : PointerState) (clicks : Nat) :
    (before.calls now clicks).filter (isFor .pressDown .pressUp) =
      switch .pressDown .pressUp before.pressed now.pressed := by
  obtain ⟨hovered, pressed⟩ := before
  obtain ⟨hovered', pressed'⟩ := now
  cases hovered <;> cases pressed <;> cases hovered' <;> cases pressed' <;>
    simp [calls, switch, isFor]

/-- Of the calls for a change of state, those for hovering. -/
theorem filter_calls_hover (before now : PointerState) (clicks : Nat) :
    (before.calls now clicks).filter (isFor .hoverEntered .hoverExited) =
      switch .hoverEntered .hoverExited before.hovered now.hovered := by
  obtain ⟨hovered, pressed⟩ := before
  obtain ⟨hovered', pressed'⟩ := now
  cases hovered <;> cases pressed <;> cases hovered' <;> cases pressed' <;>
    simp [calls, switch, isFor]

theorem count_calls (before now : PointerState) (clicks : Nat) :
    (before.calls now clicks).count .pressed = now.pressed.toNat ∧
      (before.calls now clicks).count .hovered = now.hovered.toNat ∧
      (before.calls now clicks).count .clicked = clicks := by
  obtain ⟨hovered, pressed⟩ := before
  obtain ⟨hovered', pressed'⟩ := now
  cases hovered <;> cases pressed <;> cases hovered' <;> cases pressed' <;>
    simp [calls, switch, List.count_replicate]

end PointerState

end Trellis
