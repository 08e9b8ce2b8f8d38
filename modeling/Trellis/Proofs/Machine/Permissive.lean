import Trellis.Machine.Run
import Trellis.Proofs.Machine.Respects

/-!
# Relations that allow callbacks anything

Callbacks change bindings, watchers, elements and what is known of them, and they may ask windows for
frames, hand tasks to windows and send events to the host. Whatever else the state holds is out of
their reach. A relation that allows each of these changes is respected by every callback. Most single
steps hand no tasks to windows, touch no element, or touch the copy of no mirror unless to edit it.

* `World.Moderate` — a relation that allows the changes that most steps make, and `World.Discreet` —
  one that may not allow those of bindings; `World.Amends`, `World.Recopies`, `World.Refits` and
  `World.Hands` — one that allows the others.
* `World.Lenient` — one that allows all edits besides what most steps do.
* `World.Liberal` — a relation that allows all of them; `World.Tolerant` — one that may not allow
  tasks; `World.Permissive` — one that allows elements to be made.
* `Program.run_respects` — callbacks respect it, if what they start does.
* `Reentry.ofFuel_respects` — what callbacks start does.
-/

namespace Trellis

variable {κ ρ : Type}

/-- A preorder that allows every change that single steps of callbacks make, unless they touch a
binding, an element or the copy of a mirror, have watchers awaited, or hand a task to a window. -/
class World.Discreet (R : World κ ρ → World κ ρ → Prop) : Prop
    extends IsPreorder (World κ ρ) R where
  madeUp : ∀ (w : World κ ρ) madeUp, R w { w with madeUp := madeUp }
  recorded : ∀ (w : World κ ρ) entry, R w (w.record entry)
  /-- The application lets go of a watcher. -/
  dropped : ∀ (w : World κ ρ) x, R w (w.modifyWatcher x fun cell => { cell with dropped := true })
  /-- An event is sent to the host. -/
  event : ∀ (w : World κ ρ) event, R w
    { w with session := w.session.map fun s => { s with events := s.events ++ [event] } }
  /-- A window is asked for a frame. -/
  asked : ∀ (w : World κ ρ) x, R w (w.modifyWindow x fun window =>
    { window with invalidations := window.invalidations + 1, requested := true })

/-- A preorder that allows every change that single steps of callbacks make, unless they touch an
element or the copy of a mirror, or hand a task to a window. -/
class World.Moderate (R : World κ ρ → World κ ρ → Prop) : Prop extends World.Discreet R where
  bindings : ∀ (w : World κ ρ) bindings, R w { w with bindings := bindings }
  awaiting : ∀ (w : World κ ρ) awaiting, R w { w with awaiting := awaiting }

/-- A preorder that allows every change that single steps of callbacks make, unless they touch an
element, touch the copy of a mirror other than to edit it, or hand a task to a window. -/
class World.Lenient (R : World κ ρ → World κ ρ → Prop) : Prop extends World.Moderate R where
  /-- The copy of a mirror is edited. -/
  edited : ∀ (w : World κ ρ) x value, R w ((w.modifyCopy x (·.edit value)).record (.edited x))

/-- A relation that allows the copy of a mirror to be edited to a value. -/
class World.Amends (R : World κ ρ → World κ ρ → Prop) (x : WatcherId) (value : Scalar ρ) : Prop where
  amended : ∀ w : World κ ρ, R w ((w.modifyCopy x (·.edit value)).record (.edited x))

/-- A relation that allows any change of the copy of a mirror. -/
class World.Recopies (R : World κ ρ → World κ ρ → Prop) (x : WatcherId) : Prop where
  copied : ∀ (w : World κ ρ) f, R w (w.modifyCopy x f)

/-- The pointer state of an element that can be pressed. -/
def Element.pointer? (element : Element κ) : Option PointerState :=
  element.body.pressable?.map (·.2)

/-- A relation that allows any change of an element that keeps its follower, its window, its pointer
state and its type. -/
class World.Refits (R : World κ ρ → World κ ρ → Prop) (e : ElementId) : Prop where
  refitted : ∀ (w : World κ ρ) (f : Element κ → Element κ),
    (∀ el, w.element? e = some el → (f el).follower = el.follower ∧ (f el).window = el.window ∧
      (f el).pointer? = el.pointer? ∧ (f el).body.kind = el.body.kind) → R w (w.modifyElement e f)

/-- A relation that allows windows to be handed tasks. -/
class World.Hands (R : World κ ρ → World κ ρ → Prop) : Prop where
  handed : ∀ (w : World κ ρ) x task, R w (w.modifyWindow x fun window =>
    { window with tasks := window.tasks ++ [task] })

/-- A preorder that allows every change that single steps of callbacks make, unless they hand a task to
a window. No element changes its follower or its window. -/
class World.Tolerant (R : World κ ρ → World κ ρ → Prop) : Prop extends World.Lenient R where
  watchers : ∀ (w : World κ ρ) watchers, R w { w with watchers := watchers }
  scope : ∀ (w : World κ ρ) scope, R w { w with scope := scope }
  trail : ∀ (w : World κ ρ) trail, R w { w with trail := trail }
  refitted : ∀ (w : World κ ρ) e (f : Element κ → Element κ),
    (∀ el, w.element? e = some el → (f el).follower = el.follower ∧ (f el).window = el.window) →
      R w (w.modifyElement e f)
  recorded w _ := trail w _
  dropped w _ := watchers w _
  edited w _ _ := trans _ _ _ (watchers w _) (trail _ _)

/-- A preorder that allows every change within the reach of callbacks. -/
class World.Liberal (R : World κ ρ → World κ ρ → Prop) : Prop extends World.Tolerant R where
  /-- A window is handed a task. -/
  handed : ∀ (w : World κ ρ) x task, R w (w.modifyWindow x fun window =>
    { window with tasks := window.tasks ++ [task] })

/-- A preorder that allows elements to be made, too. -/
class World.Permissive (R : World κ ρ → World κ ρ → Prop) : Prop extends World.Liberal R where
  elements : ∀ (w : World κ ρ) elements, R w { w with elements := elements }
  refitted w _ _ _ := elements w _

open World (Discreet Moderate Lenient Amends Recopies Refits Hands Tolerant Liberal Permissive)

instance (R : World κ ρ → World κ ρ → Prop) [Lenient R] (x : WatcherId) (value : Scalar ρ) :
    Amends R x value where
  amended w := Lenient.edited w x value

instance (R : World κ ρ → World κ ρ → Prop) [Tolerant R] (x : WatcherId) : Recopies R x where
  copied w _ := Tolerant.watchers w _

instance (R : World κ ρ → World κ ρ → Prop) [Tolerant R] (e : ElementId) : Refits R e where
  refitted w f h := Tolerant.refitted w e f fun el found =>
    ⟨(h el found).1, (h el found).2.1⟩

instance (R : World κ ρ → World κ ρ → Prop) [Liberal R] : Hands R where
  handed := Liberal.handed

/-! ## Changes of settings -/

/-- A change of the settings keeps the type. -/
theorem Body.kind_of_configure? {body body' : Body κ} {change : Change}
    (h : body.configure? change = some body') : body'.kind = body.kind := by
  unfold configure? at h
  split at h <;> cases h <;> rfl

theorem Body.kind_of_restyle? {body body' : Body κ} {change : Change}
    (h : body.restyle? change = some body') : body'.kind = body.kind := by
  unfold restyle? at h
  split at h <;> cases h <;> rfl

/-- A change of the settings keeps the pointer state. -/
theorem Body.pointer_configure? {body body' : Body κ} {change : Change}
    (h : body.configure? change = some body') :
    body'.pressable?.map (·.2) = body.pressable?.map (·.2) := by
  unfold configure? at h
  split at h <;> cases h <;> rfl

theorem Body.pointer_restyle? {body body' : Body κ} {change : Change}
    (h : body.restyle? change = some body') :
    body'.pressable?.map (·.2) = body.pressable?.map (·.2) := by
  unfold restyle? at h
  split at h <;> cases h <;> rfl

variable {R : World κ ρ → World κ ρ → Prop}

namespace Machine

section Preorder

variable [IsPreorder (World κ ρ) R]

theorem mirror?_respects (x : WatcherId) :
    Respects R (mirror? x : Machine κ ρ (Option (Mirror ρ))) :=
  .get_bind fun _ => .pure _

theorem valueOf_respects (e : ElementId) :
    Respects R (valueOf e : Machine κ ρ (Option (Scalar ρ))) := by
  refine .get_bind fun w => ?_
  split
  · exact .bind (mirror?_respects _) fun _ => .pure _
  · exact .pure _

end Preorder

section Discreet

variable [Discreet R]

/-! ## Steps that call nobody -/

theorem note_respects (line : String) : Respects R (note line : Machine κ ρ Unit) :=
  .modify fun w => Discreet.recorded w _

theorem invalidate_respects (window : Option WindowId) :
    Respects R (invalidate window : Machine κ ρ Unit) :=
  .forM_option window fun x => .modify fun w => Discreet.asked w x

theorem invalidateElement_respects (e : ElementId) :
    Respects R (invalidateElement e : Machine κ ρ Unit) :=
  .get_bind fun _ => invalidate_respects _

omit [Discreet R] in
theorem refit_respects (e : ElementId) [Refits R e] {f : Element κ → Element κ}
    (h : ∀ el, (f el).follower = el.follower ∧ (f el).window = el.window ∧
      (f el).pointer? = el.pointer? ∧ (f el).body.kind = el.body.kind) :
    Respects R (modify (·.modifyElement e f) : Machine κ ρ Unit) :=
  .modify fun w => Refits.refitted w f fun el _ => h el

theorem drop_respects (x : WatcherId) : Respects R (drop x : Machine κ ρ Unit) :=
  .modify fun w => Discreet.dropped w x

omit [Discreet R] in
theorem modifyMirror_respects (x : WatcherId) [Recopies R x] (f : Mirror ρ → Mirror ρ) :
    Respects R (modifyMirror x f : Machine κ ρ Unit) :=
  .modify fun w => Recopies.copied w f

theorem takeOver_respects (x : WatcherId) [Recopies R x] (b : BindingId) :
    Respects R (takeOver x b : Machine κ ρ Unit) := by
  refine .get_bind fun w => ?_
  split
  · exact modifyMirror_respects x _
  · exact .pure _

omit [Discreet R] in
theorem editMirror_respects (x : WatcherId) (value : Scalar ρ) [Amends R x value] :
    Respects R (editMirror x value : Machine κ ρ Unit) := by
  intro w _ w' run
  obtain ⟨_, u, hmodify, hrecord⟩ := bind_eq_ok.mp run
  rw [modifyMirror, modify_eq_ok] at hmodify
  rw [modify_eq_ok] at hrecord
  subst hmodify hrecord
  exact Amends.amended w

theorem takeEdit_respects (x : WatcherId) [Recopies R x] :
    Respects R (takeEdit x : Machine κ ρ (Option (Scalar ρ))) := by
  refine .bind (mirror?_respects x) fun copy => ?_
  split
  · split
    · exact .bind (modifyMirror_respects x _) fun _ => .pure _
    · exact .pure _
  · exact .pure _

/-- An element is given a value. Its follower alone is edited. -/
theorem setValue_permitted {e : ElementId} {value : Scalar ρ} {w w' : World κ ρ}
    (amends : ∀ y, (w.element? e).bind (·.follower) = some y → Amends R y value)
    (run : setValue e value w = .ok ((), w')) : R w w' := by
  replace run := get_bind_eq_ok.mp run
  cases hfollower : (w.element? e).bind (·.follower) with
  | none =>
      simp only [hfollower] at run
      exact invalidateElement_respects e run
  | some y =>
      have := amends y hfollower
      simp only [hfollower] at run
      refine (?_ : Respects R _) run
      exact .bind (editMirror_respects y value) fun _ => invalidateElement_respects e

theorem lock_respects (e : ElementId) [Refits R e] : Respects R (lock e : Machine κ ρ Unit) := by
  refine .get_bind fun w => ?_
  split
  · split
    · exact .stop _
    · exact refit_respects e fun _ => ⟨rfl, rfl, rfl, rfl⟩
  · exact .pure _

theorem locking_respects {α : Type} (e : ElementId) [Refits R e] {part : Machine κ ρ α}
    (h : Respects R part) : Respects R (locking e part) :=
  .bind (lock_respects e) fun _ => .bind h fun _ =>
    .bind (refit_respects e fun _ => ⟨rfl, rfl, rfl, rfl⟩) fun _ => .pure _

theorem handle?_respects (e : ElementId) (kind : Kind) :
    Respects R (handle? e kind : Machine κ ρ (Option Handle)) := by
  refine .get_bind fun w => ?_
  split
  · exact .pure _
  · split
    · exact .pure _
    · split <;> exact .pure _

theorem canLock_respects (h : Handle) : Respects R (canLock h : Machine κ ρ Bool) := by
  refine .get_bind fun w => ?_
  split <;> exact .pure _

theorem send_respects (event : Event) : Respects R (send event : Machine κ ρ Unit) :=
  .modify fun w => Discreet.event w event

theorem setId_permitted (w : World κ ρ) (e : ElementId) [Refits R e] (id : String) :
    R w (w.setId e id) := by
  have hset (v : World κ ρ) (id : String) : R v (v.modifyElement e fun el => { el with id := id }) :=
    Refits.refitted v (fun el => { el with id := id }) fun _ _ => ⟨rfl, rfl, rfl, rfl⟩
  by_cases hid : id.isEmpty = true
  · simp only [World.setId, hid, if_true]
    exact trans_of R (Discreet.madeUp w _) (hset _ _)
  · simp only [World.setId, hid, if_false, Bool.false_eq_true]
    exact hset w id

omit [Discreet R] in
/-- An element gets another body, which keeps its pointer state and its type. -/
theorem rebody_permitted {w : World κ ρ} {e : ElementId} [Refits R e] {element : Element κ}
    {body : Body κ} (found : w.element? e = some element)
    (kept : body.pressable?.map (·.2) = element.pointer?)
    (kind : body.kind = element.body.kind) :
    R w (w.modifyElement e ({ · with body := body })) := by
  refine Refits.refitted w _ fun el hel => ⟨rfl, rfl, ?_⟩
  obtain rfl : element = el := Option.some.inj (found.symm.trans hel)
  exact ⟨kept, kind⟩

/-- A change of an element. Its settings may change, but not its pointer state, and the follower alone
is edited. -/
theorem performChange_permitted (app : App κ ρ) {e : ElementId} [Refits R e] {element : Element κ}
    {change : Change} {w w' : World κ ρ} {answer : Program κ ρ Answer}
    (found : w.element? e = some element)
    (amends : ∀ y value, element.follower = some y → element.body.edit? change = some value →
      Amends R y value)
    (run : performChange app e element change w = .ok (answer, w')) : R w w' := by
  unfold performChange at run
  split at run
  · refine (?_ : Respects R _) run
    exact .bind (.modify fun w => setId_permitted w e _) fun _ => .pure _
  · refine (?_ : Respects R _) run
    split <;> exact .pure _
  · cases hedit : (element.body.edit? change : Option (Scalar ρ)) with
    | some value =>
        simp only [hedit] at run
        obtain ⟨_, v, hset, run⟩ := bind_eq_ok.mp run
        obtain ⟨-, rfl⟩ := pure_eq_ok.mp run
        refine setValue_permitted (fun y hy => ?_) hset
        rw [found] at hy
        exact amends y value hy hedit
    | none =>
        simp only [hedit] at run
        cases hrestyle : element.body.restyle? change with
        | some body =>
            simp only [hrestyle] at run
            obtain ⟨_, v, hmodify, run⟩ := bind_eq_ok.mp run
            rw [modify_eq_ok] at hmodify
            subst hmodify
            refine trans_of R (rebody_permitted found (Body.pointer_restyle? hrestyle)
              (Body.kind_of_restyle? hrestyle)) ?_
            refine (?_ : Respects R _) run
            exact .bind (invalidate_respects _) fun _ => .pure _
        | none =>
            simp only [hrestyle] at run
            cases hconfigure : element.body.configure? change with
            | some body =>
                simp only [hconfigure] at run
                obtain ⟨_, v, hmodify, run⟩ := bind_eq_ok.mp run
                rw [modify_eq_ok] at hmodify
                obtain ⟨-, rfl⟩ := pure_eq_ok.mp run
                subst hmodify
                exact rebody_permitted found (Body.pointer_configure? hconfigure)
                  (Body.kind_of_configure? hconfigure)
            | none =>
                simp only [hconfigure] at run
                exact (Respects.pure _) run

/-- A call on an element that does not bind it. -/
theorem perform_of_ne_permitted (app : App κ ρ) {e : ElementId} [Refits R e]
    {call : Call κ BindingId} {w w' : World κ ρ} {answer : Program κ ρ Answer}
    (unbound : ∀ target, call ≠ .bind target)
    (amends : ∀ change element y value, call = .change change → w.element? e = some element →
      element.follower = some y → element.body.edit? change = some value → Amends R y value)
    (run : perform app e call w = .ok (answer, w')) : R w w' := by
  replace run := get_bind_eq_ok.mp run
  cases helement : w.element? e with
  | none =>
      simp only [helement] at run
      exact (Respects.pure _) run
  | some element =>
      simp only [helement] at run
      cases call with
      | change change =>
          exact performChange_permitted app helement
            (fun y value => amends change element y value rfl helement) run
      | bind target => exact absurd rfl (unbound target)
      | renderer code | handler code =>
          cases hbody : element.body with
          | list s =>
              simp only [hbody] at run
              obtain ⟨_, v, hmodify, run⟩ := bind_eq_ok.mp run
              rw [modify_eq_ok] at hmodify
              obtain ⟨-, rfl⟩ := pure_eq_ok.mp run
              subst hmodify
              refine rebody_permitted helement ?_ ?_
              · rw [Element.pointer?, hbody]
                rfl
              · rw [hbody]
                rfl
          | _ =>
              simp only [hbody] at run
              exact (Respects.pure _) run

omit [Discreet R] in
/-- A call on an element that may be of another type than expected. -/
theorem edit_permitted_of_perform [IsPreorder (World κ ρ) R] {app : App κ ρ} {e : ElementId}
    {kind : Kind} {call : Call κ BindingId} {reply : κ} {w w' : World κ ρ}
    {program : Program κ ρ Unit}
    (performs : ∀ {answer v}, perform app e call w = .ok (answer, v) → R w v)
    (run : edit app e kind call reply w = .ok (program, w')) : R w w' := by
  replace run := get_bind_eq_ok.mp run
  split at run
  · obtain ⟨_, v, hperform, run⟩ := bind_eq_ok.mp run
    obtain ⟨-, rfl⟩ := pure_eq_ok.mp run
    exact performs hperform
  · exact (Respects.pure _) run

theorem call_respects (app : App κ ρ) (x : WatcherId) [Recopies R x] (b : BindingId) :
    Respects R (call app x b : Machine κ ρ (Program κ ρ Unit)) := by
  refine .bind (.modify fun w => Discreet.recorded w _) fun _ => .get_bind fun w => ?_
  split
  · exact .pure _
  · split
    · split
      · exact .bind (takeOver_respects x b) fun _ => .bind (invalidate_respects _) fun _ => .pure _
      · exact .pure _
    · exact .bind (invalidate_respects _) fun _ => .pure _
    · exact .pure _

end Discreet

section Moderate

variable [Moderate R]

/-! ## Steps that touch bindings -/

theorem modifyBinding_respects (b : BindingId) (f : Binding ρ → Binding ρ) :
    Respects R (modify (·.modifyBinding b f) : Machine κ ρ Unit) :=
  .modify fun w => Moderate.bindings w _

theorem watch_respects (x : WatcherId) (b : BindingId) :
    Respects R (watch x b : Machine κ ρ Unit) := by
  refine .modify fun w => ?_
  split
  · exact Moderate.bindings w _
  · exact refl_of R w

theorem unwatch_respects (x : WatcherId) (b : BindingId) :
    Respects R (unwatch x b : Machine κ ρ Unit) :=
  modifyBinding_respects b _

theorem attach_respects (x : WatcherId) [Recopies R x] (b : BindingId) :
    Respects R (attach x b : Machine κ ρ Unit) :=
  .bind (watch_respects x b) fun _ => takeOver_respects x b

theorem unfollow_respects (e : ElementId) [Refits R e] (x : WatcherId) (b : BindingId) :
    Respects R (unfollow e x b : Machine κ ρ Unit) :=
  .bind (refit_respects e fun _ => ⟨rfl, rfl, rfl, rfl⟩) fun _ => unwatch_respects x b

theorem follow_respects (e : ElementId) [Refits R e] (element : Element κ) (x : WatcherId)
    [Recopies R x] (b : BindingId) :
    Respects R (follow e element x b : Machine κ ρ Unit) := by
  refine .bind (attach_respects x b) fun _ =>
    .bind (refit_respects e fun _ => ⟨rfl, rfl, rfl, rfl⟩) fun _ => ?_
  split
  · exact invalidate_respects _
  · exact .pure _

theorem unfollow_eq_ok {e : ElementId} {x : WatcherId} {b : BindingId} {w w' : World κ ρ}
    (run : unfollow e x b w = .ok ((), w')) :
    w' = (w.modifyElement e ({ · with binding := none })).modifyBinding b (·.unwatch x) := by
  obtain ⟨_, u, hleave, hunwatch⟩ := bind_eq_ok.mp run
  obtain rfl := modify_eq_ok.mp hleave
  exact (modify_eq_ok.mp hunwatch).symm

/-- An element that has a follower leaves what it follows, and follows the target from then on. -/
theorem bind_follower_eq_ok {e : ElementId} {element : Element κ} {y : WatcherId}
    {target : Option BindingId} {w w' : World κ ρ} (found : w.element? e = some element)
    (follower : element.follower = some y) (run : bind e target w = .ok ((), w')) :
    ∃ u, element.binding.forM (unfollow e y) w = .ok ((), u) ∧
      target.forM (follow e element y) u = .ok ((), w') := by
  replace run := get_bind_eq_ok.mp run
  simp only [found, follower] at run
  obtain ⟨⟨⟩, u, hleave, hfollow⟩ := bind_eq_ok.mp run
  exact ⟨u, hleave, hfollow⟩

/-- An element is bound. Its follower alone takes over another value. -/
theorem bind_permitted {e : ElementId} [Refits R e] {target : Option BindingId} {w w' : World κ ρ}
    (copies : ∀ y, (w.element? e).bind (·.follower) = some y → Recopies R y)
    (run : bind e target w = .ok ((), w')) : R w w' := by
  replace run := get_bind_eq_ok.mp run
  cases helement : w.element? e with
  | none =>
      simp only [helement] at run
      exact (Respects.pure _) run
  | some element =>
      cases hfollower : element.follower with
      | none =>
          simp only [helement, hfollower] at run
          exact (Respects.pure _) run
      | some y =>
          have := copies y (by rw [helement]; exact hfollower)
          simp only [helement, hfollower] at run
          refine (?_ : Respects R _) run
          exact .bind (.forM_option _ fun old => unfollow_respects e _ old) fun _ =>
            .forM_option _ fun b => follow_respects e _ _ b

theorem store_respects [Ordered ρ] (b : BindingId) (content : Content ρ) :
    Respects R (store b content : Machine κ ρ Bool) := by
  refine .get_bind fun w => ?_
  split
  · exact .pure _
  · split
    · refine .bind (.modify fun w => ?_) fun _ => .pure _
      exact trans_of R (Moderate.bindings w _) (Discreet.recorded _ _)
    · exact .pure _

/-- A call on an element, by which it may be bound. -/
theorem perform_permitted (app : App κ ρ) {e : ElementId} [Refits R e] {call : Call κ BindingId}
    {w w' : World κ ρ} {answer : Program κ ρ Answer}
    (copies : ∀ target y, call = .bind target → (w.element? e).bind (·.follower) = some y →
      Recopies R y)
    (amends : ∀ change element y value, call = .change change → w.element? e = some element →
      element.follower = some y → element.body.edit? change = some value → Amends R y value)
    (run : perform app e call w = .ok (answer, w')) : R w w' := by
  cases call with
  | change _ | renderer _ | handler _ => exact perform_of_ne_permitted app (by simp) amends run
  | bind target =>
      replace run := get_bind_eq_ok.mp run
      cases helement : w.element? e with
      | none =>
          simp only [helement] at run
          exact (Respects.pure _) run
      | some element =>
          simp only [helement] at run
          split at run
          · obtain ⟨_, v, hbind, run⟩ := bind_eq_ok.mp run
            obtain ⟨-, rfl⟩ := pure_eq_ok.mp run
            exact bind_permitted (fun y => copies target y rfl) hbind
          · exact (Respects.pure _) run

theorem edit_permitted (app : App κ ρ) {e : ElementId} [Refits R e] {kind : Kind}
    {call : Call κ BindingId} {reply : κ} {w w' : World κ ρ} {program : Program κ ρ Unit}
    (copies : ∀ target y, call = .bind target → (w.element? e).bind (·.follower) = some y →
      Recopies R y)
    (amends : ∀ change element y value, call = .change change → w.element? e = some element →
      element.follower = some y → element.body.edit? change = some value → Amends R y value)
    (run : edit app e kind call reply w = .ok (program, w')) : R w w' :=
  edit_permitted_of_perform (perform_permitted app copies amends) run

/-- A call that is to bind an element binds it if it is of the expected type and can be bound. A binding
of another shape than the element can follow counts as none. -/
theorem edit_bind_eq_ok {app : App κ ρ} {e : ElementId} {element : Element κ} {kind : Kind}
    {target : Option BindingId} {reply : κ} {w w' : World κ ρ} {program : Program κ ρ Unit}
    (found : w.element? e = some element)
    (run : edit app e kind (.bind target) reply w = .ok (program, w')) :
    if element.body.kind = kind ∧ element.body.bindable = true then
      bind e (target.filter fun b =>
        ((w.binding? b).map (element.body.follows ·.content.shape)).getD false) w = .ok ((), w')
    else w' = w := by
  replace run := get_bind_eq_ok.mp run
  simp only [found, Option.map_some, Option.some.injEq] at run
  by_cases hkind : element.body.kind = kind
  · rw [if_pos hkind] at run
    obtain ⟨_, v, hperform, run⟩ := bind_eq_ok.mp run
    obtain ⟨-, rfl⟩ := pure_eq_ok.mp run
    replace hperform := get_bind_eq_ok.mp hperform
    simp only [found] at hperform
    by_cases hbindable : element.body.bindable = true
    · rw [if_pos hbindable] at hperform
      obtain ⟨⟨⟩, u, hbind, hperform⟩ := bind_eq_ok.mp hperform
      obtain ⟨-, rfl⟩ := pure_eq_ok.mp hperform
      rw [if_pos ⟨hkind, hbindable⟩]
      exact hbind
    · rw [if_neg hbindable] at hperform
      rw [if_neg fun h => hbindable h.2]
      exact (pure_eq_ok.mp hperform).2.symm
  · rw [if_neg hkind] at run
    rw [if_neg fun h => hkind h.1]
    exact (pure_eq_ok.mp run).2.symm

/-- So such a call does nothing, or it binds the element. -/
theorem edit_bind_outcome {app : App κ ρ} {e : ElementId} {kind : Kind} {target : Option BindingId}
    {reply : κ} {w w' : World κ ρ} {program : Program κ ρ Unit}
    (run : edit app e kind (.bind target) reply w = .ok (program, w')) :
    w' = w ∨ ∃ element, w.element? e = some element ∧
      bind e (target.filter fun b =>
        ((w.binding? b).map (element.body.follows ·.content.shape)).getD false) w =
          .ok ((), w') := by
  cases helement : w.element? e with
  | none =>
      replace run := get_bind_eq_ok.mp run
      simp only [helement, Option.map_none, reduceCtorEq, if_false] at run
      exact .inl (pure_eq_ok.mp run).2.symm
  | some element =>
      have hbinds := edit_bind_eq_ok helement run
      split at hbinds
      · exact .inr ⟨element, rfl, hbinds⟩
      · exact .inl hbinds

theorem release_respects (x : WatcherId) (b : BindingId) :
    Respects R (release x b : Machine κ ρ Unit) :=
  .modify fun w => trans_of R (Discreet.recorded w _) (Moderate.awaiting _ _)

theorem beginRound_respects (b : BindingId) :
    Respects R (beginRound b : Machine κ ρ (List WatcherId)) := by
  refine .get_bind fun w => .bind (.modify fun w => Moderate.bindings w _) fun _ => ?_
  refine .bind (.modify fun w => ?_) fun _ => .pure _
  exact trans_of R (Discreet.recorded w _) (Moderate.awaiting _ _)

theorem announce_respects (b : BindingId) : Respects R (announce b : Machine κ ρ Bool) := by
  refine .bind (modifyBinding_respects b _) fun _ => .get_bind fun w => ?_
  split
  · exact .pure _
  · exact .bind (modifyBinding_respects b _) fun _ => .pure _

theorem settle_respects (b : BindingId) : Respects R (settle b : Machine κ ρ Unit) :=
  .modify fun w => trans_of R (Moderate.bindings w _) (Discreet.recorded _ _)

end Moderate

theorem setValue_respects [Lenient R] (e : ElementId) (value : Scalar ρ) :
    Respects R (setValue e value : Machine κ ρ Unit) :=
  fun _ _ _ run => setValue_permitted (fun _ _ => inferInstance) run

/-! ## Handing over tasks -/

section Hands

variable [Discreet R] [Hands R]

theorem enqueue_respects (x : WindowId) (task : Task κ) :
    Respects R (enqueue x task : Machine κ ρ (List (Task κ))) := by
  refine .get_bind fun w => ?_
  split
  · exact .pure _
  · split
    · refine .bind (.modify fun w => Hands.handed w x task) fun _ => ?_
      split
      · exact .bind (invalidate_respects _) fun _ => .pure _
      · exact .pure _
    · exact .pure _

theorem handIn_respects (h : Handle) (call : Call κ BindingId) (reply : κ) :
    Respects R (handIn h call reply : Machine κ ρ (List (Task κ))) := by
  refine .get_bind fun w => ?_
  split
  · exact .pure _
  · split
    · split
      · exact enqueue_respects _ _
      · exact .pure _
    · exact .pure _

end Hands

/-! ## Any call on an element -/

section Tolerant

variable [Tolerant R]

theorem bind_respects (e : ElementId) (target : Option BindingId) :
    Respects R (bind e target : Machine κ ρ Unit) :=
  fun _ _ _ run => bind_permitted (fun _ _ => inferInstance) run

theorem edit_respects (app : App κ ρ) (e : ElementId) (kind : Kind) (call : Call κ BindingId)
    (reply : κ) :
    Respects R (edit app e kind call reply : Machine κ ρ (Program κ ρ Unit)) :=
  fun _ _ _ run =>
    edit_permitted app (fun _ _ _ _ => inferInstance) (fun _ _ _ _ _ _ _ _ => inferInstance) run

end Tolerant

/-! ## Making elements -/

variable [Permissive R]

theorem create_respects (window : Option WindowId) (plan : Blueprint κ ρ) :
    Respects R (create window plan : Machine κ ρ ElementId) := by
  intro w e w' run
  have hmade (v : World κ ρ) (element : Element κ) :
      R v { v with madeUp := v.madeUp + 1, elements := v.elements.push element } :=
    trans_of R (Discreet.madeUp v (v.madeUp + 1)) (Permissive.elements _ _)
  have hadopted (v : World κ ρ) (cell : WatcherCell κ ρ) (e : ElementId)
      (f : Element κ → Element κ) : R v ((v.addWatcher cell).2.modifyElement e f) :=
    trans_of R (Tolerant.watchers v (v.watchers.push cell)) (Permissive.elements _ _)
  have hfirst (e : ElementId) : Respects R (do
      if plan.binding.isSome then Machine.bind e plan.binding
      pure e : Machine κ ρ ElementId) := by
    split
    · exact .bind (bind_respects e _) fun _ => .pure _
    · exact .pure _
  cases hfollower : plan.follower with
  | none =>
      rw [create, hfollower] at run
      exact trans_of R (hmade w _) (hfirst _ run)
  | some follower =>
      rw [create, hfollower] at run
      cases follower <;> exact trans_of R (trans_of R (hmade w _) (hadopted _ _ _ _)) (hfirst _ run)

end Machine

/-! ## Callbacks -/

variable [Liberal R]

/-- What callbacks start respects the relation. -/
structure Reentry.Respectful (R : World κ ρ → World κ ρ → Prop) (r : Reentry κ ρ) : Prop where
  notify : ∀ b, Machine.Respects R (r.notify b)
  task : ∀ task, Machine.Respects R (r.task task)

section Callbacks

variable [Ordered ρ] {r : Reentry κ ρ} (hr : r.Respectful R)

include hr

namespace Machine

theorem setContent_respects (b : BindingId) (content : Content ρ) :
    Respects R (setContent r b content) := by
  refine .bind (store_respects b content) fun changed => ?_
  split
  · exact .bind (hr.notify b) fun _ => .pure _
  · exact .pure _

theorem writeBack_respects (x : WatcherId) (b : BindingId) : Respects R (writeBack r x b) := by
  refine .bind (takeEdit_respects x) fun edit => ?_
  split
  · exact setContent_respects hr b _
  · exact .pure _

theorem report_respects (e : ElementId) : Respects R (report r e) := by
  refine .get_bind fun w => ?_
  split
  · split
    · exact .bind (writeBack_respects hr _ _) fun _ => .pure _
    · exact .pure _
  · exact .pure _

omit [Ordered ρ] in
theorem defer_respects (x : WindowId) (task : Task κ) : Respects R (defer r x task) :=
  .bind (enqueue_respects x task) fun tasks => .forM_list tasks hr.task

omit [Ordered ρ] in
theorem update_respects (h : Handle) (call : Call κ BindingId) (reply : κ) :
    Respects R (update r h call reply) :=
  .bind (handIn_respects h call reply) fun tasks => .forM_list tasks hr.task

end Machine

open Machine in
/-- A callback respects the relation. The induction is on its program. -/
theorem Program.run_respects {α : Type} (program : Program κ ρ α) :
    Respects R (program.run r) := by
  induction program with
  | done answer => exact .pure _
  | note line next ih => exact .bind (note_respects line) fun _ => ih
  | read b next ih => exact .get_bind fun w => ih _
  | set b content next ih => exact .bind (setContent_respects hr b content) fun _ => ih _
  | watch x b next ih => exact .bind (watch_respects x b) fun _ => ih
  | unwatch x b next ih => exact .bind (unwatch_respects x b) fun _ => ih
  | drop x next ih => exact .bind (drop_respects x) fun _ => ih
  | keeps x next ih => exact .get_bind fun w => ih _
  | attach x b next ih => exact .bind (attach_respects x b) fun _ => ih
  | edit x value next ih => exact .bind (editMirror_respects x value) fun _ => ih
  | writeBack x b next ih => exact .bind (writeBack_respects hr x b) fun _ => ih _
  | invalidate window next ih => exact .bind (invalidate_respects _) fun _ => ih
  | title window next ih => exact .get_bind fun w => ih _
  | defer window code next ih => exact .bind (defer_respects hr window _) fun _ => ih
  | send event next ih => exact .bind (send_respects event) fun _ => ih
  | find id next ih => exact .get_bind fun w => ih _
  | handle element kind next ih => exact .bind (handle?_respects element kind) fun _ => ih _
  | tryLock h next ih => exact .bind (canLock_respects h) fun _ => ih _
  | update h call reply next ih => exact .bind (update_respects hr h call reply) fun _ => ih

namespace Machine

theorem callEach_respects (app : App κ ρ) (b : BindingId) (watchers : List WatcherId) :
    Respects R (callEach app r b watchers) := by
  induction watchers with
  | nil => exact .pure _
  | cons x rest ih =>
      exact .bind (call_respects app x b) fun program => .bind (program.run_respects hr) fun _ =>
        .bind (release_respects x b) fun _ => ih

theorem drain_respects (app : App κ ρ) (rounds : Nat) (b : BindingId) :
    Respects R (drain app r rounds b) := by
  induction rounds with
  | zero =>
      refine .get_bind fun w => ?_
      split
      · exact .stop _
      · exact .pure _
  | succ rounds ih =>
      refine .get_bind fun w => ?_
      split
      · exact .bind (.bind (beginRound_respects b) fun _ => callEach_respects hr app b _) fun _ => ih
      · exact .pure _

theorem notify_respects (app : App κ ρ) (rounds : Nat) (b : BindingId) :
    Respects R (notify app r rounds b) := by
  refine .bind (announce_respects b) fun first => ?_
  split
  · exact .bind (drain_respects hr app rounds b) fun _ => settle_respects b
  · exact .pure _

theorem runTask_respects (app : App κ ρ) (task : Task κ) : Respects R (runTask app r task) := by
  cases task with
  | run code => exact (app.task code).run_respects hr
  | edit e kind call reply =>
      exact locking_respects e (.bind (edit_respects app e kind call reply) fun program =>
        program.run_respects hr)

end Machine

end Callbacks

/-- Whatever callbacks start respects the relation. The induction is on the depth. -/
theorem Reentry.ofFuel_respects [Ordered ρ] (app : App κ ρ) (fuel : Nat) :
    (Reentry.ofFuel app fuel).Respectful R := by
  induction fuel with
  | zero => exact ⟨fun _ => .stop _, fun _ => .stop _⟩
  | succ fuel ih => exact ⟨Machine.notify_respects ih app _, Machine.runTask_respects ih app⟩

end Trellis
