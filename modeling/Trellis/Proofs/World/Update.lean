import Mathlib.Tactic.SplitIfs
import Trellis.World.Basic

/-!
# Changes of the state, seen through look-ups

What the look-ups of a `World` answer after one of its small changes: the entry that was changed
(`binding?_modifyBinding` and its like), every other entry, and the history (`history_record`).
-/

namespace Trellis.World

variable {κ ρ : Type}

/-! ## Bindings -/

theorem binding?_modifyBinding (w : World κ ρ) (b c : BindingId) (f : Binding ρ → Binding ρ) :
    (w.modifyBinding b f).binding? c = if b = c then (w.binding? c).map f else w.binding? c := by
  obtain ⟨i⟩ := b
  obtain ⟨j⟩ := c
  show (w.bindings.modify i f)[j]? = _
  rw [Array.getElem?_modify]
  simp only [BindingId.mk.injEq]
  rfl

@[simp] theorem binding?_modifyBinding_self (w : World κ ρ) (b : BindingId)
    (f : Binding ρ → Binding ρ) : (w.modifyBinding b f).binding? b = (w.binding? b).map f := by
  rw [binding?_modifyBinding, if_pos rfl]

theorem modifyBinding_record (w : World κ ρ) (entry : Entry) (b : BindingId)
    (f : Binding ρ → Binding ρ) :
    (w.record entry).modifyBinding b f = (w.modifyBinding b f).record entry := rfl

/-- Two changes of a binding in a row. -/
theorem modifyBinding_modifyBinding (w : World κ ρ) (b : BindingId) (f g : Binding ρ → Binding ρ) :
    (w.modifyBinding b f).modifyBinding b g = w.modifyBinding b (g ∘ f) := by
  have hmodify : (w.bindings.modify b.index f).modify b.index g =
      w.bindings.modify b.index (g ∘ f) := by
    refine Array.ext_getElem? fun i => ?_
    simp only [Array.getElem?_modify]
    split
    · rw [Option.map_map]
    · rfl
  rw [modifyBinding, modifyBinding, modifyBinding, hmodify]

/-- It matters only what a change makes of the binding that is there. -/
theorem modifyBinding_congr (w : World κ ρ) (b : BindingId) {f g : Binding ρ → Binding ρ}
    (h : ∀ x, w.binding? b = some x → f x = g x) : w.modifyBinding b f = w.modifyBinding b g := by
  have hmodify : w.bindings.modify b.index f = w.bindings.modify b.index g := by
    refine Array.ext_getElem? fun i => ?_
    simp only [Array.getElem?_modify]
    split
    · next hi =>
        subst hi
        cases hx : w.bindings[b.index]? with
        | none => rfl
        | some x => rw [Option.map_some, Option.map_some, h x hx]
    · rfl
  rw [modifyBinding, modifyBinding, hmodify]

@[simp] theorem binding?_record (w : World κ ρ) (entry : Entry) (b : BindingId) :
    (w.record entry).binding? b = w.binding? b := rfl

/-! ## Watchers -/

theorem watcher?_modifyWatcher (w : World κ ρ) (x y : WatcherId)
    (f : WatcherCell κ ρ → WatcherCell κ ρ) :
    (w.modifyWatcher x f).watcher? y = if x = y then (w.watcher? y).map f else w.watcher? y := by
  obtain ⟨i⟩ := x
  obtain ⟨j⟩ := y
  show (w.watchers.modify i f)[j]? = _
  rw [Array.getElem?_modify]
  simp only [WatcherId.mk.injEq]
  rfl

theorem copy?_modifyCopy (w : World κ ρ) (x y : WatcherId) (f : Mirror ρ → Mirror ρ) :
    (w.modifyCopy x f).copy? y = if x = y then (w.copy? y).map f else w.copy? y := by
  rw [copy?, modifyCopy, watcher?_modifyWatcher]
  split
  · rw [copy?, Option.bind_map, Option.map_bind]
    refine congrArg _ (funext fun cell => ?_)
    show (cell.watcher.modifyCopy f).copy? = cell.watcher.copy?.map f
    cases cell.watcher <;> rfl
  · rfl

/-! ## Elements -/

theorem element?_modifyElement (w : World κ ρ) (e d : ElementId) (f : Element κ → Element κ) :
    (w.modifyElement e f).element? d = if e = d then (w.element? d).map f else w.element? d := by
  obtain ⟨i⟩ := e
  obtain ⟨j⟩ := d
  show (w.elements.modify i f)[j]? = _
  rw [Array.getElem?_modify]
  simp only [ElementId.mk.injEq]
  rfl

/-- Two changes of an element in a row. -/
theorem modifyElement_modifyElement (w : World κ ρ) (e : ElementId) (f g : Element κ → Element κ) :
    (w.modifyElement e f).modifyElement e g = w.modifyElement e (g ∘ f) := by
  have hmodify : (w.elements.modify e.index f).modify e.index g =
      w.elements.modify e.index (g ∘ f) := by
    refine Array.ext_getElem? fun i => ?_
    simp only [Array.getElem?_modify]
    split
    · rw [Option.map_map]
    · rfl
  rw [modifyElement, modifyElement, modifyElement, hmodify]

/-- A change that leaves the element what it is. -/
theorem modifyElement_of_eq {w : World κ ρ} {e : ElementId} {element : Element κ}
    {f : Element κ → Element κ} (found : w.element? e = some element) (same : f element = element) :
    w.modifyElement e f = w := by
  have hmodify : w.elements.modify e.index f = w.elements := by
    refine Array.ext_getElem? fun i => ?_
    rw [Array.getElem?_modify]
    split
    · next hi =>
        subst hi
        rw [show w.elements[e.index]? = some element from found, Option.map_some, same]
    · rfl
  rw [modifyElement, hmodify]

/-! ## Windows -/

theorem window?_modifyWindow (w : World κ ρ) (y x : WindowId) (f : Window κ → Window κ) :
    (w.modifyWindow y f).window? x = if y = x then (w.window? x).map f else w.window? x := by
  obtain ⟨i⟩ := y
  obtain ⟨j⟩ := x
  show (w.windows.modify i f)[j]? = _
  rw [Array.getElem?_modify]
  simp only [WindowId.mk.injEq]
  rfl

theorem window?_modifyWindow_self (w : World κ ρ) (x : WindowId) (f : Window κ → Window κ) :
    (w.modifyWindow x f).window? x = (w.window? x).map f := by
  rw [window?_modifyWindow, if_pos rfl]

/-! ## History -/

@[simp] theorem history_record (w : World κ ρ) (entry : Entry) :
    (w.record entry).history = w.history ++ [entry] := by
  simp [record, history]

@[simp] theorem history_modifyBinding (w : World κ ρ) (b : BindingId)
    (f : Binding ρ → Binding ρ) : (w.modifyBinding b f).history = w.history := rfl

end Trellis.World
