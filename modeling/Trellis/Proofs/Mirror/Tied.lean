import Trellis.Proofs.Machine.Permissive
import Trellis.Proofs.Mirror.Widget

/-!
# Steps that keep a widget tied to its mirror

Only binding the widget ties it to another binding, and besides that only a call of its mirror or a
report of its value touches the copy, unless to edit it.

* `Machine.perform_tied` and its like — what the single steps keep.
-/

namespace Trellis

variable {κ ρ : Type} {e : ElementId} {x : WatcherId} {touched bound : Prop} {w w' : World κ ρ}

namespace Machine

open World (Tied)

theorem note_tied (line : String) :
    Respects (Tied e x touched bound) (note line : Machine κ ρ Unit) :=
  .modify fun _ => .of_eq rfl rfl rfl

theorem invalidate_tied (window : Option WindowId) :
    Respects (Tied e x touched bound) (invalidate window : Machine κ ρ Unit) :=
  .forM_option window fun _ => .modify fun _ => .of_eq rfl rfl rfl

theorem send_tied (event : Event) :
    Respects (Tied e x touched bound) (send event : Machine κ ρ Unit) :=
  .modify fun _ => .of_eq rfl rfl rfl

theorem release_tied (y : WatcherId) (b : BindingId) :
    Respects (Tied e x touched bound) (release y b : Machine κ ρ Unit) :=
  .modify fun _ => .of_eq rfl rfl rfl

theorem handle?_tied (d : ElementId) (kind : Kind) :
    Respects (Tied e x touched bound) (handle? d kind : Machine κ ρ (Option Handle)) := by
  refine .get_bind fun w => ?_
  split
  · exact .pure _
  · split
    · exact .pure _
    · split <;> exact .pure _

theorem canLock_tied (h : Handle) :
    Respects (Tied e x touched bound) (canLock h : Machine κ ρ Bool) := by
  refine .get_bind fun w => ?_
  split <;> exact .pure _

theorem enqueue_tied (y : WindowId) (task : Task κ) :
    Respects (Tied e x touched bound) (enqueue y task : Machine κ ρ (List (Task κ))) := by
  refine .get_bind fun w => ?_
  split
  · exact .pure _
  · split
    · refine .bind (.modify fun _ => .of_eq rfl rfl rfl) fun _ => ?_
      split
      · exact .bind (invalidate_tied _) fun _ => .pure _
      · exact .pure _
    · exact .pure _

theorem handIn_tied (h : Handle) (call : Call κ BindingId) (reply : κ) :
    Respects (Tied e x touched bound) (handIn h call reply : Machine κ ρ (List (Task κ))) := by
  refine .get_bind fun w => ?_
  split
  · exact .pure _
  · split
    · split
      · exact enqueue_tied _ _
      · exact .pure _
    · exact .pure _

/-! ## Bindings -/

theorem watch_tied {y : WatcherId} (hy : y = x → bound) (b : BindingId) :
    Respects (Tied e x touched bound) (watch y b : Machine κ ρ Unit) := by
  refine .modify fun w => ?_
  split
  · refine .modifyBinding w fun binding _ => ?_
    unfold Binding.watch
    split
    · exact ⟨rfl, fun _ => Iff.rfl⟩
    · refine ⟨rfl, fun hb => ?_⟩
      have hx : x ≠ y := fun heq => hb (hy heq.symm)
      simp [hx]
  · exact refl_of _ w

theorem unwatch_tied {y : WatcherId} (hy : y = x → bound) (b : BindingId) :
    Respects (Tied e x touched bound) (unwatch y b : Machine κ ρ Unit) := by
  refine .modify fun w => .modifyBinding w fun binding _ => ⟨rfl, fun hb => ?_⟩
  have hx : x ≠ y := fun heq => hb (hy heq.symm)
  simp [Binding.unwatch, hx]

theorem announce_tied (b : BindingId) :
    Respects (Tied e x touched bound) (announce b : Machine κ ρ Bool) := by
  have hflags {f : Binding ρ → Binding ρ} (h : ∀ binding, (f binding).content = binding.content ∧
      (f binding).watchers = binding.watchers) :
      Respects (Tied e x touched bound) (modify (·.modifyBinding b f) : Machine κ ρ Unit) := by
    refine .modify fun w => .modifyBinding w fun binding _ => ⟨?_, fun _ => ?_⟩
    · rw [(h binding).1]
    · rw [(h binding).2]
  refine .bind (hflags fun _ => ⟨rfl, rfl⟩) fun _ => .get_bind fun w => ?_
  split
  · exact .pure _
  · exact .bind (hflags fun _ => ⟨rfl, rfl⟩) fun _ => .pure _

theorem settle_tied (b : BindingId) :
    Respects (Tied e x touched bound) (settle b : Machine κ ρ Unit) := by
  refine .modify fun w => ?_
  have hquiet : w.Tied e x touched bound (w.modifyBinding b ({ · with notifying := false })) :=
    .modifyBinding w fun _ _ => ⟨rfl, fun _ => Iff.rfl⟩
  refine trans_of (Tied e x touched bound) hquiet ?_
  exact .of_eq rfl rfl rfl

/-- When a round begins those who are gone are no longer registered, but the mirror is held. -/
theorem beginRound_tied {b : BindingId} {watchers : List WatcherId}
    (held : w.watcherHeld x = true) (run : beginRound b w = .ok (watchers, w')) :
    w.Tied e x touched bound w' := by
  obtain ⟨-, rfl⟩ := beginRound_eq_ok run
  have halive : w.watcherAlive x = true := by rw [World.watcherAlive, held, Bool.or_true]
  have hpruned : w.Tied e x touched bound (w.modifyBinding b fun binding =>
      { binding.prune w.watcherAlive with pending := false }) :=
    .modifyBinding w fun binding _ => ⟨rfl, fun _ => by simp [Binding.prune, halive]⟩
  refine trans_of (Tied e x touched bound) hpruned ?_
  exact .of_eq rfl rfl rfl

/-! ## Mirrors -/

theorem drop_tied {y : WatcherId} (hy : y ≠ x) :
    Respects (Tied e x touched bound) (drop y : Machine κ ρ Unit) :=
  .modify fun w => .modifyWatcher w hy _

theorem editMirror_tied (y : WatcherId) (value : Scalar ρ) :
    Respects (Tied e x touched bound) (editMirror y value : Machine κ ρ Unit) := by
  refine .bind (.modify fun w => .modifyCopy w (fun copy => ?_) fun _ _ copy => ?_) fun _ =>
    .modify fun _ => .of_eq rfl rfl rfl
  · unfold Mirror.edit
    split
    · next hkind => exact hkind
    · rfl
  · -- A value of another kind is refused, and the copy is as it was.
    unfold Mirror.edit
    split
    · exact fun hedited => nomatch hedited
    · exact fun _ => rfl

theorem takeOver_tied {y : WatcherId} (hy : y = x → touched) (b : BindingId) :
    Respects (Tied e x touched bound) (takeOver y b : Machine κ ρ Unit) := by
  refine .get_bind fun w => ?_
  split
  · next binding _ =>
      refine .modify fun w => .modifyCopy w (fun copy => ?_) fun heq hx => absurd (hy heq) hx
      unfold Mirror.takeOver
      split
      · split
        · next hkind => exact hkind
        · rfl
      · rfl
  · exact .pure _

theorem attach_tied {y : WatcherId} (hy : y = x → touched ∧ bound) (b : BindingId) :
    Respects (Tied e x touched bound) (attach y b : Machine κ ρ Unit) :=
  .bind (watch_tied (fun heq => (hy heq).2) b) fun _ => takeOver_tied (fun heq => (hy heq).1) b

theorem takeEdit_tied {y : WatcherId} (hy : y = x → touched) :
    Respects (Tied e x touched bound) (takeEdit y : Machine κ ρ (Option (Scalar ρ))) := by
  refine .bind (.get_bind fun _ => .pure _) fun copy => ?_
  split
  · split
    · refine .bind (.modify fun w => ?_) fun _ => .pure _
      exact .modifyCopy w (fun _ => rfl) fun heq hx => absurd (hy heq) hx
    · exact .pure _
  · exact .pure _

theorem call_tied (app : App κ ρ) {y : WatcherId} (hy : y = x → touched) (b : BindingId) :
    Respects (Tied e x touched bound) (call app y b : Machine κ ρ (Program κ ρ Unit)) := by
  refine .bind (.modify fun _ => .of_eq rfl rfl rfl) fun _ => .get_bind fun w => ?_
  split
  · exact .pure _
  · split
    · split
      · exact .bind (takeOver_tied hy b) fun _ => .bind (invalidate_tied _) fun _ => .pure _
      · exact .pure _
    · exact .bind (invalidate_tied _) fun _ => .pure _
    · exact .pure _

/-! ## Elements -/

theorem lock_tied (d : ElementId) :
    Respects (Tied e x touched bound) (lock d : Machine κ ρ Unit) := by
  refine .get_bind fun w => ?_
  split
  · split
    · exact .stop _
    · exact .modify fun w => .modifyElement w fun _ _ => ⟨rfl, rfl, fun _ _ => rfl⟩
  · exact .pure _

theorem unlock_tied (d : ElementId) :
    Respects (Tied e x touched bound) (unlock d : Machine κ ρ Unit) :=
  .modify fun w => .modifyElement w fun _ _ => ⟨rfl, rfl, fun _ _ => rfl⟩

theorem setValue_tied (d : ElementId) (value : Scalar ρ) :
    Respects (Tied e x touched bound) (setValue d value : Machine κ ρ Unit) := by
  have hask : Respects (Tied e x touched bound) (invalidateElement d : Machine κ ρ Unit) :=
    .get_bind fun w => invalidate_tied _
  refine .get_bind fun w => ?_
  split
  · exact .bind (editMirror_tied _ value) fun _ => hask
  · exact hask

theorem setId_tied (d : ElementId) (id : String) :
    Respects (Tied e x touched bound) (modify (·.setId d id) : Machine κ ρ Unit) := by
  refine .modify fun w => ?_
  have hnamed (v : World κ ρ) (id : String) :
      v.Tied e x touched bound (v.modifyElement d fun element => { element with id := id }) :=
    .modifyElement v fun _ _ => ⟨rfl, rfl, fun _ _ => rfl⟩
  by_cases hid : id.isEmpty = true
  · simp only [World.setId, hid, if_true]
    have hmade : w.Tied e x touched bound w.freshId.2 := .of_eq rfl rfl rfl
    exact trans_of (Tied e x touched bound) hmade (hnamed _ _)
  · simp only [World.setId, hid, if_false, Bool.false_eq_true]
    exact hnamed w id

/-- Another body of the same type. -/
theorem rebody_tied {d : ElementId} {element : Element κ} {body : Body κ}
    (found : w.element? d = some element) (kind : body.kind = element.body.kind) :
    w.Tied e x touched bound (w.modifyElement d ({ · with body := body })) := by
  refine .modifyElement w fun old hold => ⟨rfl, ?_, fun _ _ => rfl⟩
  rw [found, Option.some.injEq] at hold
  rw [← hold]
  exact kind

theorem performChange_tied (app : App κ ρ) {d : ElementId} {element : Element κ} {change : Change}
    {answer : Program κ ρ Answer} (found : w.element? d = some element)
    (run : performChange app d element change w = .ok (answer, w')) :
    w.Tied e x touched bound w' := by
  unfold performChange at run
  split at run
  · exact (Respects.bind (setId_tied d _) fun _ => .pure _) run
  · -- Nothing happens to the state, whatever the type of the element.
    refine (?_ : Respects (Tied e x touched bound) _) run
    split <;> exact .pure _
  · cases hvalue : (element.body.edit? change : Option (Scalar ρ)) with
    | some value =>
        simp only [hvalue] at run
        exact (Respects.bind (setValue_tied d value) fun _ => .pure _) run
    | none =>
        cases hstyled : element.body.restyle? change with
        | some body =>
            simp only [hvalue, hstyled] at run
            obtain ⟨_, v, hmodify, run⟩ := bind_eq_ok.mp run
            have hbodied : w.Tied e x touched bound v :=
              modify_eq_ok.mp hmodify ▸ rebody_tied found (Body.kind_of_restyle? hstyled)
            exact trans_of (Tied e x touched bound) hbodied
              ((Respects.bind (invalidate_tied _) fun _ => .pure _) run)
        | none =>
            cases hset : element.body.configure? change with
            | some body =>
                simp only [hvalue, hstyled, hset] at run
                obtain ⟨_, v, hmodify, run⟩ := bind_eq_ok.mp run
                obtain ⟨-, rfl⟩ := pure_eq_ok.mp run
                exact modify_eq_ok.mp hmodify ▸ rebody_tied found (Body.kind_of_configure? hset)
            | none =>
                simp only [hvalue, hstyled, hset] at run
                exact (Respects.pure _) run

/-! ## Calls on elements -/

theorem unfollow_tied {d : ElementId} (hd : d = e → bound) {y : WatcherId} (hy : y = x → bound)
    (b : BindingId) : Respects (Tied e x touched bound) (unfollow d y b : Machine κ ρ Unit) := by
  refine .bind (.modify fun w => ?_) fun _ => unwatch_tied hy b
  exact .modifyElement w fun _ _ => ⟨rfl, rfl, fun heq hb => absurd (hd heq) hb⟩

theorem follow_tied {d : ElementId} (hd : d = e → bound) (element : Element κ) {y : WatcherId}
    (hy : y = x → touched ∧ bound) (b : BindingId) :
    Respects (Tied e x touched bound) (follow d element y b : Machine κ ρ Unit) := by
  refine .bind (attach_tied hy b) fun _ => .bind (.modify fun w => ?_) fun _ => ?_
  · exact .modifyElement w fun _ _ => ⟨rfl, rfl, fun heq hb => absurd (hd heq) hb⟩
  · split
    · exact invalidate_tied _
    · exact .pure _

/-- An element follows another binding, through a watcher of its own. -/
theorem bind_tied {d : ElementId} {target : Option BindingId} (own : w.follower? d = some x → d = e)
    (hd : d = e → touched ∧ bound) (run : bind d target w = .ok ((), w')) :
    w.Tied e x touched bound w' := by
  replace run := get_bind_eq_ok.mp run
  cases helement : w.element? d with
  | none =>
      simp only [helement] at run
      exact (Respects.pure _) run
  | some element =>
      rw [World.follower?, helement] at own
      cases hfollower : element.follower with
      | none =>
          simp only [helement, hfollower] at run
          exact (Respects.pure _) run
      | some y =>
          have hbound (heq : d = e) : bound := (hd heq).2
          have hy (heq : y = x) : touched ∧ bound := hd (own (heq ▸ hfollower))
          simp only [helement, hfollower] at run
          refine (?_ : Respects (Tied e x touched bound) _) run
          refine .bind (.forM_option _ fun old => ?_) fun _ => .forM_option _ fun b => ?_
          · exact unfollow_tied hbound (fun heq => (hy heq).2) old
          · exact follow_tied hbound element hy b

/-- A call on an element, which is bound only if the call says so. -/
theorem perform_tied (app : App κ ρ) {d : ElementId} {call : Call κ BindingId}
    {answer : Program κ ρ Answer} (own : w.follower? d = some x → d = e)
    (binds : ∀ target, call = .bind target → d = e → touched ∧ bound)
    (run : perform app d call w = .ok (answer, w')) : w.Tied e x touched bound w' := by
  replace run := get_bind_eq_ok.mp run
  cases helement : w.element? d with
  | none =>
      simp only [helement] at run
      exact (Respects.pure _) run
  | some element =>
      simp only [helement] at run
      have hlist {s t : ItemList κ} {v : World κ ρ} (hbody : element.body = .list s)
          (h : (modify (·.modifyElement d ({ · with body := .list t })) : Machine κ ρ Unit) w =
            .ok ((), v)) : w.Tied e x touched bound v :=
        modify_eq_ok.mp h ▸ rebody_tied helement (by rw [hbody]; rfl)
      cases call with
      | change change => exact performChange_tied app helement run
      | bind target =>
          by_cases hbindable : element.body.bindable = true
          · simp only [hbindable, if_true] at run
            obtain ⟨_, v, hbind, run⟩ := bind_eq_ok.mp run
            obtain ⟨-, rfl⟩ := pure_eq_ok.mp run
            exact bind_tied own (binds target rfl) hbind
          · simp only [hbindable, if_false, Bool.false_eq_true] at run
            exact (Respects.pure _) run
      | renderer code | handler code =>
          cases hbody : element.body with
          | list s =>
              simp only [hbody] at run
              obtain ⟨_, v, hmodify, run⟩ := bind_eq_ok.mp run
              obtain ⟨-, rfl⟩ := pure_eq_ok.mp run
              exact hlist hbody hmodify
          | _ =>
              simp only [hbody] at run
              exact (Respects.pure _) run

theorem edit_tied (app : App κ ρ) {d : ElementId} {kind : Kind} {call : Call κ BindingId}
    {reply : κ} {program : Program κ ρ Unit} (own : w.follower? d = some x → d = e)
    (binds : ∀ target, call = .bind target → d = e → touched ∧ bound)
    (run : edit app d kind call reply w = .ok (program, w')) : w.Tied e x touched bound w' := by
  replace run := get_bind_eq_ok.mp run
  split at run
  · obtain ⟨answer, v, hperform, run⟩ := bind_eq_ok.mp run
    obtain ⟨-, rfl⟩ := pure_eq_ok.mp run
    exact perform_tied app own binds hperform
  · exact (Respects.pure _) run

/-! ## Setting bindings -/

variable [Ordered ρ]

/-- A binding takes on contents of its shape only. -/
theorem store_tied (b : BindingId) (content : Content ρ) :
    Respects (Tied e x touched bound) (store b content : Machine κ ρ Bool) := by
  intro w changed w' run
  replace run := get_bind_eq_ok.mp run
  cases hbinding : w.binding? b with
  | none =>
      simp only [hbinding] at run
      exact (Respects.pure _) run
  | some binding =>
      simp only [hbinding] at run
      split at run
      · next hdiffers =>
          obtain ⟨_, v, hmodify, run⟩ := bind_eq_ok.mp run
          obtain ⟨-, rfl⟩ := pure_eq_ok.mp run
          have hstored :
              w.Tied e x touched bound (w.modifyBinding b ({ · with content := content })) := by
            refine .modifyBinding w fun old hold => ⟨?_, fun _ => Iff.rfl⟩
            rw [hbinding, Option.some.injEq] at hold
            rw [← hold]
            exact hdiffers.1.symm
          rw [← modify_eq_ok.mp hmodify]
          refine trans_of (Tied e x touched bound) hstored ?_
          exact .of_eq rfl rfl rfl
      · exact (Respects.pure _) run

theorem assign_tied (b : BindingId) (content : Content ρ) :
    Respects (Tied e x touched bound)
      (assign b content : Machine κ ρ (Bool × List (Duty κ ρ))) := by
  refine .bind (store_tied b content) fun changed => ?_
  split
  · refine .bind (announce_tied b) fun begins => ?_
    split <;> exact .pure _
  · exact .pure _

theorem assignEdit_tied {y : WatcherId} (hy : y = x → touched) (b : BindingId) :
    Respects (Tied e x touched bound)
      (assignEdit y b : Machine κ ρ (Bool × List (Duty κ ρ))) := by
  refine .bind (takeEdit_tied hy) fun taken => ?_
  split
  · exact assign_tied b _
  · exact .pure _

end Machine

end Trellis
