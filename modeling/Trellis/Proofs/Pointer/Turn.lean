import Trellis.Machine.Events
import Trellis.Proofs.Host.Calls
import Trellis.Proofs.Pointer.Calls
import Trellis.Proofs.Widget.Report

/-!
# Turns of a pressable widget

Every frame a pressable widget has its turn: it handles the events of the frame. It follows the
pointer, counts clicks, and runs the callbacks for the calls that are due.

* `Turn.Stages` — what a turn consists of.
* `Turn.Taken` — a turn in which the widget handles the events, stage by stage.
* `Turn.exists_taken` — whenever a pressable widget handles events, it has such a turn.
-/

namespace Trellis

open Machine

variable {κ ρ : Type}

namespace World

/-- The pointer state of a pressable widget. -/
def pointer? (w : World κ ρ) (e : ElementId) : Option PointerState :=
  (w.element? e).bind (·.pointer?)

/-- The callbacks of a pressable widget. -/
def handlers? (w : World κ ρ) (e : ElementId) : Option (PointerHandlers κ) :=
  (w.element? e).bind fun element => element.body.pressable?.map (·.1)

theorem exists_of_pointer? {w : World κ ρ} {e : ElementId} {state : PointerState}
    (h : w.pointer? e = some state) :
    ∃ element handlers, w.element? e = some element ∧
      element.body.pressable? = some (handlers, state) := by
  obtain ⟨element, helement, hpointer⟩ := Option.bind_eq_some_iff.mp h
  obtain ⟨⟨handlers, _⟩, hpressable, rfl⟩ := Option.map_eq_some_iff.mp hpointer
  exact ⟨element, handlers, helement, hpressable⟩

end World

/-- A turn of a widget: the events of a frame, the states around it, the clicks that were counted and
the calls that were made. -/
structure Turn (κ ρ : Type) where
  fuel : Nat
  ctx : EventContext
  before : World κ ρ
  after : World κ ρ
  clicks : Nat
  calls : List PointerCall

namespace Turn

/-- The phases of the pointer that the widget hears of. -/
def heard (e : ElementId) (t : Turn κ ρ) : List PointerPhase :=
  t.ctx.phases (((t.before.element? e).map (·.id)).getD "")

/-- The callback for a call is set. -/
def Attends (e : ElementId) (t : Turn κ ρ) (call : PointerCall) : Prop :=
  ∀ handlers, t.before.handlers? e = some handlers → (handlers.code? call).isSome = true

variable [Ordered ρ]

/-- What a turn consists of: the widget is locked, follows the pointer, reacts to its new state, runs
the callbacks for the calls that are due, and is unlocked. Its state is `before` at first and `now`
from then on; the callbacks begin to run in `told` and have run in `ended`. -/
structure Stages (app : App κ ρ) (e : ElementId) (t : Turn κ ρ) (element : Element κ)
    (handlers : PointerHandlers κ) (before now : PointerState) (told ended : World κ ρ) : Prop where
  found : t.before.element? e = some element
  free : element.locked = false
  pressable : element.body.pressable? = some (handlers, before)
  followed : before.apply (t.ctx.phases element.id) = (now, t.clicks)
  reacted : react (.ofFuel app t.fuel) e { element with locked := true } before now t.clicks
    (t.before.modifyElement e fun el => { el with body := el.body.withPointer now, locked := true }) =
      .ok ((), told)
  due : t.calls = (handlers.due before now t.clicks).map (·.1)
  ran : runHandlers app (.ofFuel app t.fuel) t.ctx element.id
    ((handlers.due before now t.clicks).map (·.2)) told = .ok ((), ended)
  unlocked : t.after = ended.modifyElement e ({ · with locked := false })

/-- The widget handles the events. The clicks are those that it counts meanwhile, and the calls are
those that it runs callbacks for. -/
structure Taken (app : App κ ρ) (e : ElementId) (t : Turn κ ρ) : Prop where
  handled : handleEvents app (.ofFuel app t.fuel) t.ctx e t.before = .ok ((), t.after)
  stages : ∃ element handlers before now told ended,
    t.Stages app e element handlers before now told ended

end Turn

variable [Ordered ρ] {app : App κ ρ} {fuel : Nat} {ctx : EventContext} {e : ElementId}
  {w w' : World κ ρ} {element : Element κ} {handlers : PointerHandlers κ} {before : PointerState}

/-! ## How events are handled -/

namespace Machine

/-- A pressable widget that is visited follows the pointer. -/
theorem handleWithin_of_pressable {r : Reentry κ ρ} (found : w.element? e = some element)
    (pressable : element.body.pressable? = some (handlers, before)) (depth : Nat) :
    handleWithin app r ctx (depth + 1) e w =
      locking e (handlePointer app r ctx e { element with locked := true } handlers before) w := by
  refine locking_congr found fun v hv => ?_
  have hget {β : Type} (f : World κ ρ → Machine κ ρ β) : (get >>= f) v = f v v := rfl
  rw [hget, hv]
  cases hbody : element.body with
  | button s | checkbox s | iconButton s =>
      rw [hbody] at pressable
      cases pressable
      simp only [handleLeaf]
  | _ =>
      rw [hbody] at pressable
      cases pressable

/-- How deep the tree may be does not matter to a pressable widget. -/
theorem handleWithin_eq_handleEvents {r : Reentry κ ρ} (pressable : (w.pointer? e).isSome)
    (depth : Nat) : handleWithin app r ctx (depth + 1) e w = handleEvents app r ctx e w := by
  obtain ⟨state, hstate⟩ := Option.isSome_iff_exists.mp pressable
  obtain ⟨element, handlers, helement, hpressable⟩ := World.exists_of_pointer? hstate
  have hall (depth : Nat) : handleWithin app r ctx (depth + 1) e w = _ :=
    handleWithin_of_pressable helement hpressable depth
  exact (hall depth).trans (hall w.elements.size).symm

end Machine

namespace Turn

variable {t : Turn κ ρ}

/-- A turn whose clicks and calls are those that handling the events comes to. -/
theorem Taken.of_handled (found : t.before.element? e = some element)
    (pressable : element.body.pressable? = some (handlers, before))
    (handled : handleEvents app (.ofFuel app t.fuel) t.ctx e t.before = .ok ((), t.after))
    (clicks : t.clicks = (before.apply (t.ctx.phases element.id)).2)
    (calls : t.calls = (handlers.due before (before.apply (t.ctx.phases element.id)).1 t.clicks).map
      (·.1)) : t.Taken app e := by
  have hvisited : handleEvents app (.ofFuel app t.fuel) t.ctx e t.before = _ :=
    handleWithin_of_pressable found pressable _
  obtain ⟨hfree, ended, hpart, hunlocked⟩ := locking_eq_ok found (hvisited.symm.trans handled)
  obtain ⟨_, u, hmodify, hpart⟩ := bind_eq_ok.mp hpart
  rw [modify_eq_ok, World.modifyElement_modifyElement] at hmodify
  subst hmodify
  obtain ⟨_, told, hreact, hran⟩ := bind_eq_ok.mp hpart
  rw [← clicks] at hreact hran
  exact ⟨handled, element, handlers, before, _, told, ended, found, hfree, pressable,
    Prod.ext rfl clicks.symm, hreact, calls, hran, hunlocked⟩

/-- Whenever a pressable widget handles events, it has its turn. -/
theorem exists_taken (pressable : (w.pointer? e).isSome)
    (run : handleEvents app (.ofFuel app fuel) ctx e w = .ok ((), w')) :
    ∃ clicks calls, Taken app e ⟨fuel, ctx, w, w', clicks, calls⟩ := by
  obtain ⟨state, hstate⟩ := Option.isSome_iff_exists.mp pressable
  obtain ⟨element, handlers, helement, hpressable⟩ := World.exists_of_pointer? hstate
  let after := state.apply (ctx.phases element.id)
  exact ⟨after.2, (handlers.due state after.1 after.2).map (·.1),
    .of_handled helement hpressable run rfl rfl⟩

namespace Stages

variable {now : PointerState} {told ended : World κ ρ}
  (h : t.Stages app e element handlers before now told ended)

include h

/-- Whatever is kept when the widget changes, sets its value, asks for a frame and runs callbacks is
kept in a turn. -/
theorem respects {R : World κ ρ → World κ ρ → Prop} [World.Outlasts app R]
    (modifies : ∀ (w : World κ ρ) f, R w (w.modifyElement e f))
    (sets : ∀ value, Respects R (setValue e value))
    (asks : ∀ window, Respects R (invalidate window)) : R t.before t.after := by
  have hreacted : R _ told := react_respects sets asks (report_outlasts e) _ _ _ _ h.reacted
  have hran : R told ended := runHandlers_outlasts _ _ _ h.ran
  rw [h.unlocked]
  exact trans_of R (trans_of R (modifies _ _) hreacted) (trans_of R hran (modifies _ _))

/-- After a turn, the widget is what it was, but for its pointer state. -/
theorem found_after :
    t.after.element? e = some { element with body := element.body.withPointer now } := by
  have hlocked := World.element?_modifyElement t.before e e fun el =>
    { el with body := el.body.withPointer now, locked := true }
  rw [if_pos rfl, h.found, Option.map_some] at hlocked
  -- The widget is locked until its callbacks have run.
  have htold : told.element? e = _ := (react_respects (R := World.Stays e) (setValue_respects e)
    invalidate_respects (report_outlasts e) _ _ _ _ h.reacted (by rw [hlocked]; rfl)).trans hlocked
  have hended : ended.element? e = told.element? e :=
    (runHandlers_outlasts _ _ _ h.ran : told.Stays e ended) (by rw [htold]; rfl)
  rw [h.unlocked, World.element?_modifyElement, if_pos rfl, hended, htold, Option.map_some, ← h.free]

end Stages

/-- A turn leaves nobody half told. -/
theorem Taken.concludes (h : t.Taken app e) : t.before.Concludes t.after := by
  have hstill {α : Type} {part : Machine κ ρ α} (hpart : Respects World.Still part) :
      Respects World.Concludes part := fun _ _ _ run => (hpart run).concludes
  obtain ⟨element, handlers, before, now, told, ended, hstages⟩ := h.stages
  have hmodify (w : World κ ρ) (f : Element κ → Element κ) : w.Concludes (w.modifyElement e f) := by
    have hrun : (modify (·.modifyElement e f) : Machine κ ρ Unit) w = .ok ((), w.modifyElement e f) :=
      rfl
    exact hstill (modifyElement_still e f) hrun
  exact hstages.respects hmodify (fun value => hstill (setValue_still e value))
    fun window => hstill (invalidate_still window)

end Turn

end Trellis
