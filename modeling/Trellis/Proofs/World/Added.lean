import Trellis.Proofs.World.Ownership

/-!
# What is added without being held

Elements and watchers are put next to those that are there, and bindings get more watchers. As long
as nothing that was there takes hold of any of them, nobody can tell.

* `World.Grounded` — nothing refers to what is not there yet.
* `World.Added` — elements, and watchers that they own, have been added.
* `Added.elementAlive`, `Added.watcherAlive`, `Added.listeners` — the same are alive as before.
-/

namespace Trellis

variable {κ ρ : Type}

/-- A window but for the frames that it was asked for. -/
def Window.lasting (window : Window κ) : Window κ :=
  { window with invalidations := 0, requested := false }

namespace World

/-- Roots, children, followers and awaited watchers are there. -/
structure Grounded (w : World κ ρ) : Prop extends Closed w where
  awaited : ∀ x ∈ w.awaiting, x.index < w.watchers.size
  followers : ∀ e el x, w.element? e = some el → el.follower = some x →
    x.index < w.watchers.size

/-- Elements have been added next to those that were there, and watchers that they own. Bindings may
have got such watchers, and windows may have been asked for frames. -/
structure Added (w w' : World κ ρ) : Prop where
  elements : w.elements.size ≤ w'.elements.size
  element : ∀ e : ElementId, e.index < w.elements.size → w'.element? e = w.element? e
  watchers : w.watchers.size ≤ w'.watchers.size
  watcher : ∀ x : WatcherId, x.index < w.watchers.size → w'.watcher? x = w.watcher? x
  owned : ∀ x cell, w'.watcher? x = some cell →
    x.index < w.watchers.size ∨ ∃ e, cell.owner = some e ∧ w.elements.size ≤ e.index
  binding : ∀ b, ∃ added,
    w'.binding? b = ((w.binding? b).map fun c => { c with watchers := c.watchers ++ added }) ∧
    ∀ x ∈ added, w.watchers.size ≤ x.index
  window : ∀ x, (w'.window? x).map Window.lasting = (w.window? x).map Window.lasting
  roots : w'.roots = w.roots
  awaiting : w'.awaiting = w.awaiting
  session : w'.session = w.session
  definition : w'.definition = w.definition
  scope : w'.scope = w.scope
  trail : w'.trail = w.trail

namespace Added

variable {w v : World κ ρ}

theorem refl (w : World κ ρ) : Added w w where
  elements := Nat.le_refl _
  element _ _ := rfl
  watchers := Nat.le_refl _
  watcher _ _ := rfl
  owned x cell hx := .inl (Array.getElem?_eq_some_iff.mp hx).1
  binding b := ⟨[], by cases w.binding? b <;> simp, by simp⟩
  window _ := rfl
  roots := rfl
  awaiting := rfl
  session := rfl
  definition := rfl
  scope := rfl
  trail := rfl

/-! ## Steps -/

/-- An element is added. -/
theorem push (h : Added w v) (madeUp : Nat) (el : Element κ) :
    Added w { v with madeUp, elements := v.elements.push el } :=
  { h with
    elements := by
      have hsize : (v.elements.push el).size = v.elements.size + 1 := Array.size_push _
      have := h.elements
      show _ ≤ (v.elements.push el).size
      omega
    element := by
      intro e he
      have hlt := Nat.lt_of_lt_of_le he h.elements
      show (v.elements.push el)[e.index]? = _
      rw [Array.getElem?_push_lt hlt, ← Array.getElem?_eq_getElem hlt]
      exact h.element e he }

/-- A watcher is added that belongs to an element that was added. -/
theorem adopt (h : Added w v) {e : ElementId} (new : w.elements.size ≤ e.index)
    (watcher : Watcher κ ρ) : Added w (v.addWatcher { watcher, owner := some e }).2 :=
  { h with
    watchers := by
      have hsize : (v.watchers.push { watcher, owner := some e }).size = v.watchers.size + 1 :=
        Array.size_push _
      have := h.watchers
      show _ ≤ (v.watchers.push { watcher, owner := some e }).size
      omega
    watcher := by
      intro x hx
      have hlt := Nat.lt_of_lt_of_le hx h.watchers
      show (v.watchers.push _)[x.index]? = _
      rw [Array.getElem?_push_lt hlt, ← Array.getElem?_eq_getElem hlt]
      exact h.watcher x hx
    owned := by
      intro x cell hcell
      have hpush : (v.watchers.push { watcher, owner := some e })[x.index]? = some cell := hcell
      rw [Array.getElem?_push] at hpush
      split at hpush
      · cases hpush
        exact .inr ⟨e, rfl, new⟩
      · exact h.owned x cell hpush }

/-- An element that was added is changed. -/
theorem modifyElement (h : Added w v) {e : ElementId} (new : w.elements.size ≤ e.index)
    (f : Element κ → Element κ) : Added w (v.modifyElement e f) :=
  { h with
    elements := by
      show _ ≤ (v.elements.modify e.index f).size
      rw [Array.size_modify]
      exact h.elements
    element := by
      intro d hd
      have hne : e ≠ d := by
        rintro rfl
        omega
      rw [element?_modifyElement, if_neg hne]
      exact h.element d hd }

/-- The copy of a mirror that was added is changed. -/
theorem modifyCopy (h : Added w v) {x : WatcherId} (new : w.watchers.size ≤ x.index)
    (f : Mirror ρ → Mirror ρ) : Added w (v.modifyCopy x f) :=
  { h with
    watchers := by
      show _ ≤ (v.watchers.modify x.index _).size
      rw [Array.size_modify]
      exact h.watchers
    watcher := by
      intro y hy
      have hne : x ≠ y := by
        rintro rfl
        omega
      rw [World.modifyCopy, watcher?_modifyWatcher, if_neg hne]
      exact h.watcher y hy
    owned := by
      intro y cell hcell
      rw [World.modifyCopy, watcher?_modifyWatcher] at hcell
      split at hcell
      · obtain ⟨before, hbefore, rfl⟩ := Option.map_eq_some_iff.mp hcell
        exact h.owned y before hbefore
      · exact h.owned y cell hcell }

/-- A watcher that was added is registered with a binding. -/
theorem watch (h : Added w v) {x : WatcherId} (new : w.watchers.size ≤ x.index) (b : BindingId) :
    Added w (v.modifyBinding b (·.watch x)) :=
  { h with
    binding := by
      intro c
      obtain ⟨added, hc, hadded⟩ := h.binding c
      rw [binding?_modifyBinding, hc]
      split
      · rw [Option.map_map]
        cases w.binding? c with
        | none => exact ⟨[], rfl, by simp⟩
        | some binding =>
            by_cases hmem : x ∈ binding.watchers ++ added
            · exact ⟨added, congrArg some (if_pos hmem), hadded⟩
            · refine ⟨added ++ [x], ?_, ?_⟩
              · refine congrArg some ((if_neg hmem).trans ?_)
                rw [List.append_assoc]
              · intro y hy
                rcases List.mem_append.mp hy with hy | hy
                · exact hadded y hy
                · rw [List.mem_singleton.mp hy]
                  exact new
      · exact ⟨added, rfl, hadded⟩ }

/-- A window is asked for a frame. -/
theorem modifyWindow (h : Added w v) (x : WindowId) {f : Window κ → Window κ}
    (lasting : ∀ window, (f window).lasting = window.lasting) : Added w (v.modifyWindow x f) :=
  { h with
    window := by
      intro y
      rw [← h.window y]
      show ((v.windows.modify x.index f)[y.index]?).map _ = (v.windows[y.index]?).map _
      rw [Array.getElem?_modify]
      split
      · rw [Option.map_map]
        exact congrArg (Option.map · _) (funext lasting)
      · rfl
    roots := by
      have htasks (window : Window κ) : (f window).tasks = window.tasks := by
        have hlasting := congrArg Window.tasks (lasting window)
        exact hlasting
      rw [roots_modifyWindow v x fun window => by rw [htasks]]
      exact h.roots }

/-! ## Who is alive -/

theorem childrenOf (h : Added w v) {e : ElementId} (old : e.index < w.elements.size) :
    v.childrenOf e = w.childrenOf e := by
  rw [World.childrenOf, World.childrenOf, h.element e old]

/-- What was there owns what it owned. -/
theorem owns_iff (h : Added w v) (closed : w.Closed) {e c : ElementId}
    (old : e.index < w.elements.size) : v.Owns e c ↔ w.Owns e c := by
  have hkept (f : ElementId) (hf : f.index < w.elements.size) : v.childrenOf f = w.childrenOf f :=
    h.childrenOf hf
  constructor
  · intro howns
    induction howns with
    | refl => exact .refl
    | @tail p c howns hparent ih =>
        have hp := closed.lt_of_owns hkept howns old
        refine ih.tail ⟨?_, hparent.2⟩
        rw [← hkept p hp]
        exact hparent.1
  · intro howns
    induction howns with
    | refl => exact .refl
    | @tail p c howns hparent ih =>
        have hp := closed.lt_of_owns (fun _ _ => rfl) howns old
        refine ih.tail ⟨?_, hparent.2⟩
        rw [hkept p hp]
        exact hparent.1

/-- The same elements are alive. Those that were added are not, as no root owns them. -/
theorem elementAlive (h : Added w v) (closed : w.Closed) (e : ElementId) :
    v.elementAlive e = w.elementAlive e := by
  rw [Bool.eq_iff_iff, elementAlive_iff, elementAlive_iff, h.roots]
  refine exists_congr fun r => and_congr_right fun hr => ?_
  exact h.owns_iff closed (closed.roots r hr)

theorem not_elementAlive (h : Added w v) (closed : w.Closed) {e : ElementId}
    (new : w.elements.size ≤ e.index) : v.elementAlive e = false := by
  rw [h.elementAlive closed, Bool.eq_false_iff]
  intro halive
  obtain ⟨r, hr, howns⟩ := (elementAlive_iff e).mp halive
  have hlt := closed.lt_of_owns (fun _ _ => rfl) howns (closed.roots r hr)
  omega

/-- Watchers that were added are not alive. -/
theorem not_watcherAlive (h : Added w v) (grounded : w.Grounded) {x : WatcherId}
    (new : w.watchers.size ≤ x.index) : v.watcherAlive x = false := by
  have hawaiting : v.awaiting.contains x = false := by
    rw [h.awaiting, Bool.eq_false_iff]
    intro hx
    have := grounded.awaited x (List.contains_iff_mem.mp hx)
    omega
  rw [World.watcherAlive, hawaiting, Bool.false_or, watcherHeld]
  cases hcell : v.watcher? x with
  | none => rfl
  | some cell =>
      rcases h.owned x cell hcell with hold | ⟨e, howner, hnew⟩
      · omega
      · simp only [howner]
        exact h.not_elementAlive grounded.toClosed hnew

/-- The same watchers are alive. -/
theorem watcherAlive (h : Added w v) (grounded : w.Grounded) (x : WatcherId) :
    v.watcherAlive x = w.watcherAlive x := by
  by_cases hold : x.index < w.watchers.size
  · rw [World.watcherAlive, World.watcherAlive, h.awaiting, watcherHeld, watcherHeld,
      h.watcher x hold]
    cases w.watcher? x with
    | none => rfl
    | some cell =>
        cases howner : cell.owner with
        | none => simp only [howner]
        | some e => simp only [howner, h.elementAlive grounded.toClosed]
  · have hnew : w.watchers.size ≤ x.index := Nat.le_of_not_lt hold
    rw [h.not_watcherAlive grounded hnew, (refl w).not_watcherAlive grounded hnew]

/-- Each binding has the same live watchers, in the same order. -/
theorem listeners (h : Added w v) (grounded : w.Grounded) (b : BindingId) :
    v.listeners b = w.listeners b := by
  obtain ⟨added, hb, hadded⟩ := h.binding b
  have hdead : added.filter w.watcherAlive = [] := by
    refine List.filter_eq_nil_iff.mpr fun x hx => ?_
    rw [(refl w).not_watcherAlive grounded (hadded x hx)]
    exact Bool.false_ne_true
  have halive : v.watcherAlive = w.watcherAlive := funext (h.watcherAlive grounded)
  rw [World.listeners, World.listeners, hb, halive]
  cases w.binding? b with
  | none => rfl
  | some binding =>
      show (binding.watchers ++ added).filter _ = binding.watchers.filter _
      rw [List.filter_append, hdead, List.append_nil]

/-- What a list of ids finds is what it found. -/
theorem find? (h : Added w v) (closed : w.Closed) (index : List (String × ElementId))
    (id : String) : v.find? index id = w.find? index id := by
  have halive : v.elementAlive = w.elementAlive := funext (h.elementAlive closed)
  rw [World.find?, World.find?, halive]

end Added

end World

end Trellis
