import Mathlib.Order.Defs.Unbundled
import Trellis.Proofs.World.Update

/-!
# Changes that leave everybody held

Who is held depends on the roots, on the children of elements and on who owns the watchers. A change
of anything else leaves everybody alive who was.

* `World.elementAlive_congr` — the same roots and children hold the same elements.
* `World.SameHolders` — the same elements and watchers are held.
-/

namespace Trellis.World

variable {κ ρ : Type} {w w' : World κ ρ}

/-- The same roots and children hold the same elements. The induction is on the age of the element,
as parents are older than their children. -/
theorem heldAt_congr (roots : w'.roots = w.roots) (children : ∀ e, w'.childrenOf e = w.childrenOf e)
    (n : Nat) : w'.heldAt n = w.heldAt n := by
  induction n using Nat.strongRecOn with
  | _ n ih =>
      rw [heldAt, heldAt, roots]
      refine congrArg (w.roots.contains ⟨n⟩ || ·) ?_
      refine congrArg (List.any (List.finRange n)) (funext fun p => ?_)
      rw [children, ih p p.isLt]

theorem elementAlive_congr (roots : w'.roots = w.roots)
    (children : ∀ e, w'.childrenOf e = w.childrenOf e) (e : ElementId) :
    w'.elementAlive e = w.elementAlive e :=
  heldAt_congr roots children e.index

/-- The same elements and watchers are held. -/
structure SameHolders (w w' : World κ ρ) : Prop where
  element : ∀ e, w'.elementAlive e = w.elementAlive e
  watcher : ∀ x, w'.watcherHeld x = w.watcherHeld x

/-- What is held is told by the elements, the roots, and whose the watchers are. -/
theorem SameHolders.of_eq (elements : w'.elements = w.elements) (roots : w'.roots = w.roots)
    (owners : ∀ x, (w'.watcher? x).map (fun cell => (cell.owner, cell.dropped)) =
      (w.watcher? x).map fun cell => (cell.owner, cell.dropped)) : SameHolders w w' := by
  have hchildren (e : ElementId) : w'.childrenOf e = w.childrenOf e := by
    rw [childrenOf, childrenOf, element?, element?, elements]
  have helement := elementAlive_congr roots hchildren
  refine ⟨helement, fun x => ?_⟩
  have hx := owners x
  rw [watcherHeld, watcherHeld]
  cases hw : w.watcher? x with
  | none =>
      rw [hw, Option.map_none, Option.map_eq_none_iff] at hx
      rw [hx]
  | some cell =>
      rw [hw, Option.map_some, Option.map_eq_some_iff] at hx
      obtain ⟨cell', hcell', heq⟩ := hx
      obtain ⟨howner, hdropped⟩ := Prod.mk.inj heq
      simp only [hcell', howner, hdropped]
      cases cell.owner with
      | none => rfl
      | some e => exact helement e

instance : IsPreorder (World κ ρ) SameHolders where
  refl _ := ⟨fun _ => rfl, fun _ => rfl⟩
  trans _ _ _ h h' :=
    ⟨fun e => (h'.element e).trans (h.element e), fun x => (h'.watcher x).trans (h.watcher x)⟩

/-- A window whose tasks hold what they held. -/
theorem roots_modifyWindow (w : World κ ρ) (x : WindowId) {f : Window κ → Window κ}
    (holds : ∀ window, (f window).tasks.flatMap Task.holds = window.tasks.flatMap Task.holds) :
    (w.modifyWindow x f).roots = w.roots := by
  have hlist (l : List (Window κ)) (n : Nat) :
      (l.modify n f).flatMap (fun window => window.tasks.flatMap Task.holds) =
        l.flatMap fun window => window.tasks.flatMap Task.holds := by
    induction l generalizing n with
    | nil => simp
    | cons window rest ih =>
        cases n with
        | zero => simp [holds]
        | succ n => simp [ih n]
  show _ ++ (w.windows.modify x.index f).toList.flatMap _ = _
  rw [Array.toList_modify, hlist]
  rfl

/-- A mirror may show another value without being held by anybody else. -/
theorem SameHolders.modifyWatcher (w : World κ ρ) (x : WatcherId)
    {f : WatcherCell κ ρ → WatcherCell κ ρ}
    (owner : ∀ cell, (f cell).owner = cell.owner ∧ (f cell).dropped = cell.dropped) :
    SameHolders w (w.modifyWatcher x f) := by
  refine .of_eq rfl rfl fun y => ?_
  rw [watcher?_modifyWatcher]
  split
  · rw [Option.map_map]
    refine congrArg (Option.map · _) (funext fun cell => ?_)
    rw [Function.comp_apply, (owner cell).1, (owner cell).2]
  · rfl

end Trellis.World
