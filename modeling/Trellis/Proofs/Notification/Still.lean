import Mathlib.Order.Defs.Unbundled
import Trellis.Machine.Run
import Trellis.Proofs.Machine.Respects
import Trellis.Proofs.World.Update

/-!
# Steps that tell nobody

Most of what a callback does neither sets a binding nor calls a watcher. Such a step may register
watchers and write lines, but it leaves the content of every binding alone, and so whatever is known
about rounds under way.

* `World.Still` — what such a step keeps.
* `Machine.perform_still` and its like — the steps that are of this sort.
-/

namespace Trellis

variable {κ ρ : Type}

/-- The binding that an entry is about. -/
def Entry.binding? : Entry → Option BindingId
  | .note _ | .edited _ => none
  | .changed b | .round b _ | .called _ b | .returned _ b | .settled b => some b

/-- The same binding, but for who watches it. Still nobody is listed twice. -/
structure Binding.Rewatched (x y : Binding ρ) : Prop where
  content : y.content = x.content
  notifying : y.notifying = x.notifying
  pending : y.pending = x.pending
  nodup : x.watchers.Nodup → y.watchers.Nodup

/-- Nothing was set and nobody was told of anything. -/
structure World.Still (w w' : World κ ρ) : Prop where
  bindings : ∀ b, Option.Rel Binding.Rewatched (w.binding? b) (w'.binding? b)
  history : ∃ news, w'.history = w.history ++ news ∧ ∀ entry ∈ news, entry.binding? = none
  awaiting : w'.awaiting = w.awaiting

namespace Binding.Rewatched

theorem rfl' (x : Binding ρ) : x.Rewatched x := ⟨rfl, rfl, rfl, id⟩

theorem trans {x y z : Binding ρ} (h : x.Rewatched y) (h' : y.Rewatched z) : x.Rewatched z where
  content := h'.content.trans h.content
  notifying := h'.notifying.trans h.notifying
  pending := h'.pending.trans h.pending
  nodup := h'.nodup ∘ h.nodup

end Binding.Rewatched

namespace World.Still

/-- A change of anything but the bindings, the history and who is awaited. -/
theorem of_eq {w w' : World κ ρ} (hbindings : w'.bindings = w.bindings) (htrail : w'.trail = w.trail)
    (hawaiting : w'.awaiting = w.awaiting) : w.Still w' where
  bindings b := by
    have hb : w'.binding? b = w.binding? b := by simp only [World.binding?, hbindings]
    rw [hb]
    cases w.binding? b with
    | none => exact .none
    | some x => exact .some (.rfl' x)
  history := ⟨[], by simp [World.history, htrail], by simp⟩
  awaiting := hawaiting

/-- An entry that is about no binding. -/
theorem record (w : World κ ρ) {entry : Entry} (h : entry.binding? = none) :
    w.Still (w.record entry) where
  bindings := (of_eq rfl rfl rfl : w.Still w).bindings
  history := ⟨[entry], by simp, by simpa using h⟩
  awaiting := rfl

/-- Other watchers for a binding. -/
theorem rewatch (w : World κ ρ) (b : BindingId) {f : Binding ρ → Binding ρ}
    (h : ∀ x : Binding ρ, x.Rewatched (f x)) : w.Still (w.modifyBinding b f) where
  bindings c := by
    rw [World.binding?_modifyBinding]
    split
    · cases w.binding? c with
      | none => exact .none
      | some x => exact .some (h x)
    · exact (of_eq rfl rfl rfl : w.Still w).bindings c
  history := ⟨[], by simp, by simp⟩
  awaiting := rfl

instance : IsPreorder (World κ ρ) World.Still where
  refl w := of_eq rfl rfl rfl
  trans u v w h h' :=
    { bindings := fun b => by
        have hb := h.bindings b
        have hb' := h'.bindings b
        cases hu : u.binding? b with
        | none =>
            rw [hu] at hb
            cases hv : v.binding? b with
            | some y => rw [hv] at hb; cases hb
            | none =>
                rw [hv] at hb'
                exact hb'
        | some x =>
            rw [hu] at hb
            cases hv : v.binding? b with
            | none => rw [hv] at hb; cases hb
            | some y =>
                rw [hv] at hb hb'
                cases hw : w.binding? b with
                | none => rw [hw] at hb'; cases hb'
                | some z =>
                    rw [hw] at hb'
                    cases hb
                    cases hb'
                    rename_i hxy hyz
                    exact .some (hxy.trans hyz)
      history := by
        obtain ⟨news, hnews, hnone⟩ := h.history
        obtain ⟨news', hnews', hnone'⟩ := h'.history
        refine ⟨news ++ news', by rw [hnews', hnews, List.append_assoc], ?_⟩
        intro entry hentry
        rcases List.mem_append.mp hentry with hmem | hmem
        · exact hnone entry hmem
        · exact hnone' entry hmem
      awaiting := h'.awaiting.trans h.awaiting }

end World.Still

namespace Machine

open World (Still)

theorem note_still (line : String) : Respects Still (note line : Machine κ ρ Unit) :=
  .modify fun w => .record w rfl

theorem invalidate_still (window : Option WindowId) :
    Respects Still (invalidate window : Machine κ ρ Unit) :=
  .forM_option window fun _ => .modify fun _ => .of_eq rfl rfl rfl

theorem watch_still (x : WatcherId) (b : BindingId) :
    Respects Still (watch x b : Machine κ ρ Unit) := by
  refine .modify fun w => ?_
  split
  · refine .rewatch w b fun y => ⟨?_, ?_, ?_, fun h => Binding.nodup_watch h x⟩ <;>
      (unfold Binding.watch; split <;> rfl)
  · exact refl_of Still w

theorem unwatch_still (x : WatcherId) (b : BindingId) :
    Respects Still (unwatch x b : Machine κ ρ Unit) :=
  .modify fun w => .rewatch w b fun _ => ⟨rfl, rfl, rfl, fun h => Binding.nodup_unwatch h x⟩

theorem drop_still (x : WatcherId) : Respects Still (drop x : Machine κ ρ Unit) :=
  .modify fun _ => .of_eq rfl rfl rfl

theorem mirror?_still (x : WatcherId) :
    Respects Still (mirror? x : Machine κ ρ (Option (Mirror ρ))) :=
  .get_bind fun _ => .pure _

theorem modifyMirror_still (x : WatcherId) (f : Mirror ρ → Mirror ρ) :
    Respects Still (modifyMirror x f : Machine κ ρ Unit) :=
  .modify fun _ => .of_eq rfl rfl rfl

theorem takeOver_still (x : WatcherId) (b : BindingId) :
    Respects Still (takeOver x b : Machine κ ρ Unit) := by
  refine .get_bind fun w => ?_
  split
  · exact modifyMirror_still x _
  · exact .pure _

theorem editMirror_still (x : WatcherId) (value : Scalar ρ) :
    Respects Still (editMirror x value : Machine κ ρ Unit) :=
  .bind (modifyMirror_still x _) fun _ => .modify fun w => .record w rfl

theorem takeEdit_still (x : WatcherId) :
    Respects Still (takeEdit x : Machine κ ρ (Option (Scalar ρ))) := by
  refine .bind (mirror?_still x) fun copy => ?_
  split
  · split
    · exact .bind (modifyMirror_still x _) fun _ => .pure _
    · exact .pure _
  · exact .pure _

theorem attach_still (x : WatcherId) (b : BindingId) :
    Respects Still (attach x b : Machine κ ρ Unit) :=
  .bind (watch_still x b) fun _ => takeOver_still x b

theorem modifyElement_still (e : ElementId) (f : Element κ → Element κ) :
    Respects Still (modify (·.modifyElement e f) : Machine κ ρ Unit) :=
  .modify fun _ => .of_eq rfl rfl rfl

theorem unfollow_still (e : ElementId) (x : WatcherId) (b : BindingId) :
    Respects Still (unfollow e x b : Machine κ ρ Unit) :=
  .bind (modifyElement_still e _) fun _ => unwatch_still x b

theorem follow_still (e : ElementId) (element : Element κ) (x : WatcherId) (b : BindingId) :
    Respects Still (follow e element x b : Machine κ ρ Unit) := by
  refine .bind (attach_still x b) fun _ => .bind (modifyElement_still e _) fun _ => ?_
  split
  · exact invalidate_still _
  · exact .pure _

theorem bind_still (e : ElementId) (target : Option BindingId) :
    Respects Still (bind e target : Machine κ ρ Unit) := by
  refine .get_bind fun w => ?_
  split
  · split
    · exact .bind (.forM_option _ fun old => unfollow_still e _ old) fun _ =>
        .forM_option _ fun b => follow_still e _ _ b
    · exact .pure _
  · exact .pure _

theorem setValue_still (e : ElementId) (value : Scalar ρ) :
    Respects Still (setValue e value : Machine κ ρ Unit) := by
  have hask : Respects Still (invalidateElement e : Machine κ ρ Unit) :=
    .get_bind fun w => invalidate_still _
  refine .get_bind fun w => ?_
  split
  · exact .bind (editMirror_still _ value) fun _ => hask
  · exact hask

theorem lock_still (e : ElementId) : Respects Still (lock e : Machine κ ρ Unit) := by
  refine .get_bind fun w => ?_
  split
  · split
    · exact .stop _
    · exact modifyElement_still e _
  · exact .pure _

theorem unlock_still (e : ElementId) : Respects Still (unlock e : Machine κ ρ Unit) :=
  modifyElement_still e _

theorem handle?_still (e : ElementId) (kind : Kind) :
    Respects Still (handle? e kind : Machine κ ρ (Option Handle)) := by
  refine .get_bind fun w => ?_
  split
  · exact .pure _
  · split
    · exact .pure _
    · split <;> exact .pure _

theorem canLock_still (h : Handle) : Respects Still (canLock h : Machine κ ρ Bool) := by
  refine .get_bind fun w => ?_
  split <;> exact .pure _

theorem enqueue_still (x : WindowId) (task : Task κ) :
    Respects Still (enqueue x task : Machine κ ρ (List (Task κ))) := by
  refine .get_bind fun w => ?_
  split
  · exact .pure _
  · split
    · refine .bind (.modify fun _ => .of_eq rfl rfl rfl) fun _ => ?_
      split
      · exact .bind (invalidate_still _) fun _ => .pure _
      · exact .pure _
    · exact .pure _

theorem handIn_still (h : Handle) (call : Call κ BindingId) (reply : κ) :
    Respects Still (handIn h call reply : Machine κ ρ (List (Task κ))) := by
  refine .get_bind fun w => ?_
  split
  · exact .pure _
  · split
    · split
      · exact enqueue_still _ _
      · exact .pure _
    · exact .pure _

theorem send_still (event : Event) : Respects Still (send event : Machine κ ρ Unit) :=
  .modify fun _ => .of_eq rfl rfl rfl

theorem setId_still (e : ElementId) (id : String) :
    Respects Still (modify (·.setId e id) : Machine κ ρ Unit) := by
  refine .modify fun w => ?_
  by_cases hid : id.isEmpty = true
  · simp only [World.setId, hid, if_true]
    exact .of_eq rfl rfl rfl
  · simp only [World.setId, hid, if_false, Bool.false_eq_true]
    exact .of_eq rfl rfl rfl

theorem performChange_still (app : App κ ρ) (e : ElementId) (element : Element κ)
    (change : Change) :
    Respects Still (performChange app e element change : Machine κ ρ (Program κ ρ Answer)) := by
  unfold performChange
  split
  · exact .bind (setId_still e _) fun _ => .pure _
  · split <;> exact .pure _
  · split
    · exact .bind (setValue_still e _) fun _ => .pure _
    · split
      · exact .bind (modifyElement_still e _) fun _ => .bind (invalidate_still _) fun _ => .pure _
      · split
        · exact .bind (modifyElement_still e _) fun _ => .pure _
        · exact .pure _

theorem perform_still (app : App κ ρ) (e : ElementId) (call : Call κ BindingId) :
    Respects Still (perform app e call : Machine κ ρ (Program κ ρ Answer)) := by
  refine .get_bind fun w => ?_
  split
  · split
    · exact performChange_still app e _ _
    · split
      · exact .bind (bind_still e _) fun _ => .pure _
      · exact .pure _
    · exact .bind (modifyElement_still e _) fun _ => .pure _
    · exact .bind (modifyElement_still e _) fun _ => .pure _
    · exact .pure _
  · exact .pure _

theorem edit_still (app : App κ ρ) (e : ElementId) (kind : Kind) (call : Call κ BindingId)
    (reply : κ) :
    Respects Still (edit app e kind call reply : Machine κ ρ (Program κ ρ Unit)) := by
  refine .get_bind fun w => ?_
  split
  · exact .bind (perform_still app e call) fun _ => .pure _
  · exact .pure _

end Machine

end Trellis
