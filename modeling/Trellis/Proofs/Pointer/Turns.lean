import Mathlib.Algebra.GroupWithZero.Nat
import Trellis.Proofs.Pointer.Turn

/-!
# A widget from turn to turn

A pressable widget has its turn frame after frame. Whatever else happens in between, its pointer state
is its own, so each turn begins with the one that the turn before has left.

* `Turns` — the turns of a widget since it was made.
* `Turns.apply_eq` — the pointer state and the clicks after any number of turns.
* `Turns.GoesOn` — a step after which the turns are still those of a widget; callbacks are such steps.
* `Machine.handleWithin_goesOn` — so is the handling of events by any tree.
-/

namespace Trellis

open Machine

open World (Lenient Recopies Refits Hands)

variable {κ ρ : Type}

/-- The turns of a pressable widget since it was made, and the pointer state that they leave. -/
inductive Turns [Ordered ρ] (app : App κ ρ) (e : ElementId) : List (Turn κ ρ) → PointerState → Prop
  | start : Turns app e [] {}
  | next {turns : List (Turn κ ρ)} {t : Turn κ ρ} {before after : PointerState}
      (earlier : Turns app e turns before) (found : t.before.pointer? e = some before)
      (taken : t.Taken app e) (left : t.after.pointer? e = some after) :
      Turns app e (turns ++ [t]) after

/-! ## One turn -/

theorem Body.pressable?_withPointer {body : Body κ} {handlers : PointerHandlers κ}
    {before : PointerState} (h : body.pressable? = some (handlers, before)) (now : PointerState) :
    (body.withPointer now).pressable? = some (handlers, now) := by
  cases body <;> cases h <;> rfl

variable [Ordered ρ] {app : App κ ρ} {e : ElementId} {t : Turn κ ρ} {turns : List (Turn κ ρ)}
  {before state : PointerState}

namespace Turn.Taken

/-- A turn follows the pointer: it leaves the state after the phases, counts the clicks that they
complete, and makes the calls that are set. -/
theorem outcome (h : t.Taken app e) (found : t.before.pointer? e = some before) :
    let after := before.apply (t.heard e)
    t.after.pointer? e = some after.1 ∧ t.clicks = after.2 ∧
      ∃ handlers, t.before.handlers? e = some handlers ∧
        t.calls = (before.calls after.1 t.clicks).filter fun c => (handlers.code? c).isSome := by
  obtain ⟨element, handlers, before', now, told, ended, hstages⟩ := h.stages
  -- The state that the stages begin with is the one that was found.
  obtain rfl : before' = before := by
    rw [World.pointer?, hstages.found, Option.bind_some, Element.pointer?, hstages.pressable] at found
    exact Option.some.inj found
  have hheard : t.heard e = t.ctx.phases element.id := by
    rw [heard, hstages.found]
    rfl
  rw [hheard, hstages.followed]
  refine ⟨?_, rfl, handlers, ?_, ?_⟩
  · rw [World.pointer?, hstages.found_after, Option.bind_some, Element.pointer?,
      Body.pressable?_withPointer hstages.pressable]
    rfl
  · rw [World.handlers?, hstages.found, Option.bind_some, hstages.pressable]
    rfl
  · rw [hstages.due, PointerHandlers.map_fst_due]

/-- With all callbacks set, every call is made. -/
theorem calls_eq (h : t.Taken app e) (found : t.before.pointer? e = some before)
    (left : t.after.pointer? e = some state) (attends : ∀ call, t.Attends e call) :
    t.calls = before.calls state t.clicks := by
  obtain ⟨hafter, -, handlers, hhandlers, hcalls⟩ := h.outcome found
  obtain rfl := Option.some.inj (hafter.symm.trans left)
  rw [hcalls, List.filter_eq_self.mpr fun call _ => attends call handlers hhandlers]

end Turn.Taken

/-! ## Any number of turns -/

namespace Turns

theorem concat (h : Turns app e (turns ++ [t]) state) : ∃ before, Turns app e turns before ∧
    t.before.pointer? e = some before ∧ t.Taken app e ∧ t.after.pointer? e = some state := by
  generalize hlist : turns ++ [t] = list at h
  cases h with
  | start => simp at hlist
  | next earlier found taken left =>
      obtain ⟨rfl, hlast⟩ := List.append_inj' hlist rfl
      obtain rfl := List.singleton_inj.mp hlast
      exact ⟨_, earlier, found, taken, left⟩

/-- The turns up to some point. -/
theorem front {front back : List (Turn κ ρ)} (h : Turns app e (front ++ back) state) :
    ∃ state, Turns app e front state := by
  induction back using List.reverseRecOn generalizing state with
  | nil =>
      rw [List.append_nil] at h
      exact ⟨state, h⟩
  | append_singleton back t ih =>
      rw [← List.append_assoc] at h
      obtain ⟨before, hbefore, -⟩ := h.concat
      exact ih hbefore

/-- After any number of turns, the state and the clicks are those of all phases heard, however they
were cut into frames. -/
theorem apply_eq (h : Turns app e turns state) :
    ({} : PointerState).apply (turns.flatMap (·.heard e)) =
      (state, (turns.map (·.clicks)).sum) := by
  induction h with
  | start => rfl
  | next earlier found taken left ih =>
      obtain ⟨hafter, hclicks, -⟩ := taken.outcome found
      obtain rfl := Option.some.inj (hafter.symm.trans left)
      rw [List.flatMap_append, PointerState.apply_append, ih, List.map_append,
        List.sum_append_nat, List.flatMap_singleton, List.map_singleton, List.sum_cons, List.sum_nil,
        Nat.add_zero, hclicks]

end Turns

/-! ## Whatever else happens -/

/-- The pointer state of an element is as it was. -/
def World.SamePointer (e : ElementId) (w w' : World κ ρ) : Prop := w'.pointer? e = w.pointer? e

namespace World.SamePointer

instance : IsPreorder (World κ ρ) (SamePointer e) where
  refl _ := rfl
  trans _ _ _ h h' := Eq.trans h' h

instance : Lenient (SamePointer (κ := κ) (ρ := ρ) e) where
  bindings _ _ := rfl
  awaiting _ _ := rfl
  madeUp _ _ := rfl
  recorded _ _ := rfl
  dropped _ _ := rfl
  edited _ _ _ := rfl
  event _ _ := rfl
  asked _ _ := rfl

instance : Hands (SamePointer (κ := κ) (ρ := ρ) e) where
  handed _ _ _ := rfl

instance (x : WatcherId) : Recopies (SamePointer (κ := κ) (ρ := ρ) e) x where
  copied _ _ := rfl

omit [Ordered ρ] in
/-- Another element may change, and this one but for its pointer state. -/
theorem modifyElement {w : World κ ρ} {d : ElementId} {f : Element κ → Element κ}
    (h : d = e → ∀ el, w.element? d = some el → (f el).pointer? = el.pointer?) :
    w.SamePointer e (w.modifyElement d f) := by
  show ((w.modifyElement d f).element? e).bind _ = (w.element? e).bind _
  rw [element?_modifyElement]
  split
  · next hd =>
      subst hd
      cases hel : w.element? d with
      | none => rfl
      | some el => exact h rfl el hel
  · rfl

instance (d : ElementId) : Refits (SamePointer (κ := κ) (ρ := ρ) e) d where
  refitted _ _ h := modifyElement fun _ el hel => (h el hel).2.2.1

instance : World.Outlasts app (SamePointer (κ := κ) (ρ := ρ) e) where
  runs run := run.respects

end World.SamePointer

namespace Machine

variable {d : ElementId} {fuel : Nat} {ctx : EventContext} {w w' : World κ ρ}

/-- An element that cannot be pressed changes no pointer state. -/
theorem handleLeaf_samePointer {element : Element κ} (found : w.element? d = some element)
    (unpressable : element.pointer? = none)
    (run : handleLeaf app (.ofFuel app fuel) ctx d element w = .ok ((), w')) :
    w.SamePointer e w' := by
  have hreport : Respects (World.SamePointer e) (report (.ofFuel app fuel) d : Machine κ ρ Unit) :=
    report_outlasts d
  unfold handleLeaf at run
  cases hbody : element.body with
  | button s | checkbox s | iconButton s =>
      rw [Element.pointer?, hbody] at unpressable
      cases unpressable
  | input input =>
      simp only [hbody] at run
      refine (.bind (.forM_list _ fun event => ?_) fun _ => .bind hreport fun _ => ?_ :
        Respects (World.SamePointer e) (handleInput app (.ofFuel app fuel) ctx d element.id input)) run
      · exact takeEvent_outlasts event
      · exact runHandlers_outlasts _ _ _
  | slider axis color =>
      simp only [hbody] at run
      refine (?_ : Respects (World.SamePointer e) (handleSlider _ ctx d element.id)) run
      unfold handleSlider
      dsimp only
      split
      · exact .bind (setValue_respects d _) fun _ => hreport
      · exact hreport
  | label s | progressBar color =>
      simp only [hbody] at run
      exact hreport run
  | list list =>
      simp only [hbody] at run
      refine (?_ : Respects (World.SamePointer e) (handleItems app _ ctx element list)) run
      unfold handleItems
      split
      · exact .get_bind fun w => .forM_list _ fun i => run_outlasts _
      · exact .pure _
  | block size frames =>
      simp only [hbody] at run
      rw [modify_eq_ok] at run
      subst run
      exact rebody_permitted found unpressable.symm (by rw [hbody]; rfl)
  | _ =>
      simp only [hbody] at run
      exact (Respects.pure _) run

/-- The turn of a widget changes the pointer state of no other one. -/
theorem samePointer_of_taken (other : d ≠ e) (h : t.Taken app d) :
    t.before.SamePointer e t.after := by
  obtain ⟨element, handlers, before, now, told, ended, hstages⟩ := h.stages
  exact hstages.respects (fun _ _ => World.SamePointer.modifyElement fun hd => absurd hd other)
    (setValue_respects d) invalidate_respects

end Machine

/-- From one state to the other, the widget goes on to have its turns. -/
def Turns.GoesOn (app : App κ ρ) (e : ElementId) (w w' : World κ ρ) : Prop :=
  ∀ turns state, Turns app e turns state → w.pointer? e = some state →
    ∃ more state', Turns app e (turns ++ more) state' ∧ w'.pointer? e = some state'

namespace Turns.GoesOn

instance : IsPreorder (World κ ρ) (GoesOn app e) where
  refl _ turns state h hstate := ⟨[], state, by rwa [List.append_nil], hstate⟩
  trans _ _ _ h h' turns state hturns hstate := by
    obtain ⟨more, now, hmore, hnow⟩ := h turns state hturns hstate
    obtain ⟨later, last, hlater, hlast⟩ := h' _ now hmore hnow
    exact ⟨more ++ later, last, by rwa [← List.append_assoc], hlast⟩

theorem of_same {w w' : World κ ρ} (h : w.SamePointer e w') : GoesOn app e w w' :=
  fun _ state hturns hstate => ⟨[], state, by rwa [List.append_nil], h.trans hstate⟩

/-- Whatever callbacks do, the widget only goes on to have its turns. -/
theorem of_reaches {m m' : Moment κ ρ} (run : Reaches app m m') : GoesOn app e m.world m'.world :=
  of_same run.respects

end Turns.GoesOn

namespace Machine

open Turns (GoesOn)

variable {d : ElementId} {fuel : Nat} {ctx : EventContext} {w w' : World κ ρ}

/-- When a pressable widget is visited, it or another one has its turn. -/
theorem handleWithin_goesOn_of_pressable {depth : Nat} (pressable : (w.pointer? d).isSome)
    (run : handleWithin app (.ofFuel app fuel) ctx (depth + 1) d w = .ok ((), w')) :
    GoesOn app e w w' := by
  rw [handleWithin_eq_handleEvents pressable] at run
  obtain ⟨clicks, calls, htaken⟩ := Turn.exists_taken pressable run
  by_cases hd : d = e
  · -- The widget itself is visited, so this is its next turn.
    subst hd
    intro turns state hturns hstate
    have hleft := (htaken.outcome hstate).1
    exact ⟨_, _, hturns.next hstate htaken hleft, hleft⟩
  · exact .of_same (samePointer_of_taken hd htaken)

/-- Whatever element handles the events of a frame, the widget only goes on to have its turns. The
induction is on the depth of the tree. -/
theorem handleWithin_goesOn (ctx : EventContext) (depth : Nat) (d : ElementId) :
    Respects (GoesOn app e) (handleWithin app (.ofFuel app fuel) ctx depth d) := by
  induction depth generalizing d with
  | zero => exact .stop _
  | succ depth ih =>
      intro w _ w' run
      cases hpointer : w.pointer? d with
      | some state => exact handleWithin_goesOn_of_pressable (by rw [hpointer]; rfl) run
      | none =>
          obtain ⟨_, v, hlock, run⟩ := bind_eq_ok.mp run
          obtain ⟨_, v', hpart, run⟩ := bind_eq_ok.mp run
          obtain ⟨_, u, hunlock, run⟩ := bind_eq_ok.mp run
          obtain ⟨-, rfl⟩ := pure_eq_ok.mp run
          -- It remains what the element does while it is locked, which changes no pointer state.
          have hlocked : w.SamePointer d v := lock_respects d hlock
          have hunlocked : v'.SamePointer e u :=
            (refit_respects d fun _ => ⟨rfl, rfl, rfl, rfl⟩ : Respects _ (unlock d)) hunlock
          refine trans_of _ (.of_same (lock_respects d hlock)) (trans_of _ ?_ (.of_same hunlocked))
          replace hpart := get_bind_eq_ok.mp hpart
          cases helement : v.element? d with
          | none =>
              simp only [helement] at hpart
              exact (Respects.pure _) hpart
          | some element =>
              have hnone : element.pointer? = none := by
                rw [← hpointer, ← hlocked, World.pointer?, helement]
                rfl
              simp only [helement] at hpart
              cases hbody : element.body with
              | flex _ _ | inset _ _ | minSize _ _ | stack _ _ =>
                  simp only [hbody] at hpart
                  exact (Respects.forM_list _ ih) hpart
              | _ =>
                  simp only [hbody] at hpart
                  exact .of_same (handleLeaf_samePointer helement hnone hpart)

end Machine

end Trellis
