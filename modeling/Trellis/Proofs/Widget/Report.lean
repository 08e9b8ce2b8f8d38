import Trellis.Proofs.Widget.Aside

/-!
# Reports

A widget whose value was edited reports it to the binding that it follows, and all who watch the
binding are told before the widget goes on.

* `World.Outlasts` — a relation that holds of whatever callbacks do; reports respect it, too.
* `World.Edits` — a change that sets the value of a widget.
* `Machine.report_of_holds`, `Machine.report_of_edit` — what a report comes to.
* `Machine.runHandlers_spares` — callbacks that do not set the value leave it.
-/

namespace Trellis

open Machine

variable {κ ρ : Type} {e : ElementId} {x : WatcherId} {b : BindingId} {target : Option BindingId}
  {w w' : World κ ρ}

/-- An element is locked, and its follower is that of no other one. -/
structure World.Guarded (w : World κ ρ) (e : ElementId) (x : WatcherId) : Prop where
  locked : (w.element? e).map (·.locked) = some true
  own : ∀ d, w.follower? d = some x → d = e

/-- A change of the value that a mirror shows. -/
structure World.Edits (x : WatcherId) (value : Scalar ρ) (w w' : World κ ρ) : Prop where
  copy : w'.copy? x = (w.copy? x).map (·.edit value)
  history : w'.history = w.history ++ [.edited x]
  content : ∀ b, w'.content? b = w.content? b
  element : ∀ d, w'.element? d = w.element? d

namespace Machine

/-- Asking a window for a frame changes windows only. -/
theorem invalidate_eq_ok {window : Option WindowId} (run : invalidate window w = .ok ((), w')) :
    ∃ windows, w' = { w with windows := windows } := by
  cases window with
  | none => exact ⟨w.windows, (pure_eq_ok.mp run).2.symm⟩
  | some y => exact ⟨_, (modify_eq_ok.mp run).symm⟩

theorem setValue_edits {value : Scalar ρ} (follower : w.follower? e = some x)
    (run : setValue e value w = .ok ((), w')) : w.Edits x value w' := by
  replace run := get_bind_eq_ok.mp run
  rw [show (w.element? e).bind (·.follower) = some x from follower] at run
  obtain ⟨_, u, hedit, hask⟩ := bind_eq_ok.mp run
  replace hask := get_bind_eq_ok.mp hask
  obtain ⟨windows, rfl⟩ := invalidate_eq_ok hask
  obtain rfl := editMirror_eq_ok hedit
  refine ⟨?_, World.history_record _ _, fun _ => rfl, fun _ => rfl⟩
  show (w.modifyCopy x (·.edit value)).copy? x = _
  rw [World.copy?_modifyCopy, if_pos rfl]

end Machine

variable [Ordered ρ] {app : App κ ρ} {fuel : Nat}

/-! ## What callbacks and reports respect -/

/-- A preorder that holds of whatever a number of callbacks do. -/
class World.Outlasts (app : App κ ρ) (R : World κ ρ → World κ ρ → Prop) : Prop
    extends IsPreorder (World κ ρ) R where
  runs : ∀ {programs : List (Program κ ρ Unit)} {w w' : World κ ρ},
    Reaches app ⟨programs.map .run, w⟩ ⟨[], w'⟩ → R w w'

instance : World.Outlasts app (World.Concludes (κ := κ) (ρ := ρ)) where
  runs run := by
    refine run.concludes fun d hd => ?_
    obtain ⟨program, -, rfl⟩ := List.mem_map.mp hd
    rfl

instance : World.Outlasts app (World.Stays (κ := κ) (ρ := ρ) e) where
  runs run := by
    refine run.stays fun hmem => ?_
    obtain ⟨program, -, hunlock⟩ := List.mem_map.mp hmem
    cases hunlock

instance : World.Outlasts app (World.Fitted (κ := κ) (ρ := ρ)) where
  runs run := run.respects

namespace Machine

section Outlasts

variable {R : World κ ρ → World κ ρ → Prop} [World.Outlasts app R]

theorem run_outlasts (program : Program κ ρ Unit) : Respects R (program.run (.ofFuel app fuel)) := by
  intro w _ w' run
  have hreach : Reaches app ⟨[program].map .run, w⟩ ⟨[], w'⟩ :=
    (Reentry.ofFuel_faithful app fuel).run run []
  exact World.Outlasts.runs hreach

theorem runHandlers_outlasts (ctx : EventContext) (id : String) (codes : List κ) :
    Respects R (runHandlers app (.ofFuel app fuel) ctx id codes) :=
  .forM_list codes fun _ => run_outlasts _

theorem writeBack_outlasts (x : WatcherId) (b : BindingId) :
    Respects R (writeBack (.ofFuel app fuel) x b) := by
  intro w changed w' run
  have hrun : (Program.writeBack x b fun _ => .done ()).run (.ofFuel app fuel) w = .ok ((), w') :=
    bind_eq_ok.mpr ⟨changed, w', run, rfl⟩
  exact run_outlasts _ hrun

theorem report_outlasts (e : ElementId) : Respects R (report (.ofFuel app fuel) e) := by
  refine .get_bind fun w => ?_
  split
  · split
    · exact .bind (writeBack_outlasts _ _) fun _ => .pure _
    · exact .pure _
  · exact .pure _

theorem enterText_outlasts (ctx : EventContext) (e : ElementId) (id : String) (input : Input κ)
    (edited : String) : Respects R (enterText app (.ofFuel app fuel) ctx e id input edited) :=
  fun _ _ _ run => run_outlasts _ (Program.run_entering run)

/-- What an input does with one of its events leaves it to be who it is. -/
theorem takeEvent_outlasts {ctx : EventContext} {e : ElementId} {id : String} {input : Input κ}
    (event : EventKind) : Respects R (takeEvent app (.ofFuel app fuel) ctx e id input event) := by
  cases event with
  | text edited =>
      rw [takeEvent]
      split
      · exact .pure _
      · exact enterText_outlasts ctx e id input edited
  | _ => exact .pure _

end Outlasts

end Machine

/-- Whatever is left to do does not know the follower, and unlocks nothing that it has not locked. -/
theorem World.Guarded.spares (h : w.Guarded e x) (happ : app.Avoids x) {agenda : List (Duty κ ρ)}
    (kept : .unlock e ∉ agenda) (avoids : ∀ d ∈ agenda, d.Avoids x)
    (run : Reaches app ⟨agenda, w⟩ ⟨[], w'⟩) : w.Spares x target w' :=
  (Reaches.guarded happ ⟨⟨h.locked, kept⟩, h.own, avoids⟩ run).2

omit [Ordered ρ] in
/-- A change that locks an element guards it, as no other one has its follower. -/
theorem World.Guarded.modifyElement {element : Element κ} {f : Element κ → Element κ}
    (found : w.element? e = some element) (locks : (f element).locked = true)
    (own : ∀ d, w.follower? d = some x → d = e) : (w.modifyElement e f).Guarded e x := by
  have hchanged (d : ElementId) := World.element?_modifyElement w e d f
  constructor
  · rw [hchanged, if_pos rfl, found]
    exact congrArg some locks
  · intro d hd
    rw [World.follower?, hchanged] at hd
    split at hd
    · next h => exact h.symm
    · exact own d hd

omit [Ordered ρ] in
theorem World.Guarded.outlast (h : w.Guarded e x) (stays : w.Stays e w') (fitted : w.Fitted w') :
    w'.Guarded e x where
  locked := by
    rw [stays h.locked]
    exact h.locked
  own d hd := h.own d ((fitted.follower d).symm.trans hd)

omit [Ordered ρ] in
/-- A binding that is set to what an unedited mirror shows. -/
theorem World.holds_assigned {binding : Binding ρ} {copy : Mirror ρ} {value : Scalar ρ}
    (found : w.binding? b = some binding) (shown : w.copy? x = some copy)
    (shows : copy.value = value) (unedited : copy.edited = false) :
    (w.assigned b (.one value)).Holds x (some b) value where
  shown := ⟨copy, shown, shows, fun _ _ => unedited⟩
  content c hc := by
    obtain rfl := Option.some.inj hc
    rw [World.content?, World.assigned, World.binding?_record, World.binding?_modifyBinding_self,
      found]
    rfl

namespace Machine

/-! ## What a report comes to -/

variable {element : Element κ} {value : Scalar ρ}

omit [Ordered ρ] in
/-- An edit is taken, and counts as none from then on. -/
theorem takeEdit_of_edited {copy : Mirror ρ} {taken : Option (Scalar ρ)}
    (shown : w.copy? x = some copy) (edited : copy.edited = true)
    (run : takeEdit x w = .ok (taken, w')) :
    taken = some copy.value ∧ w' = w.modifyCopy x ({ · with edited := false }) := by
  obtain ⟨found, u, hget, run⟩ := bind_eq_ok.mp run
  obtain ⟨rfl, rfl⟩ : w.copy? x = found ∧ w = u := pure_eq_ok.mp hget
  simp only [shown] at run
  rw [if_pos edited] at run
  obtain ⟨_, v, hmodify, run⟩ := bind_eq_ok.mp run
  obtain ⟨rfl, rfl⟩ := pure_eq_ok.mp run
  exact ⟨rfl, (modify_eq_ok.mp hmodify).symm⟩

theorem report_eq_ok {r : Reentry κ ρ} (found : w.element? e = some element)
    (follower : element.follower = some x) (run : report r e w = .ok ((), w')) :
    (element.binding = none ∧ w' = w) ∨
      ∃ b changed, element.binding = some b ∧ writeBack r x b w = .ok (changed, w') := by
  replace run := get_bind_eq_ok.mp run
  cases hbinding : element.binding with
  | none =>
      simp only [found, follower, hbinding] at run
      exact .inl ⟨rfl, (pure_eq_ok.mp run).2.symm⟩
  | some b =>
      simp only [found, follower, hbinding] at run
      obtain ⟨changed, v, hwrite, run⟩ := bind_eq_ok.mp run
      obtain ⟨-, rfl⟩ := pure_eq_ok.mp run
      exact .inr ⟨b, changed, rfl, hwrite⟩

/-- What was not edited is not reported. -/
theorem report_of_holds {r : Reentry κ ρ} (found : w.element? e = some element)
    (follower : element.follower = some x) (holds : w.Holds x element.binding value)
    (run : report r e w = .ok ((), w')) : w' = w := by
  rcases report_eq_ok found follower run with ⟨-, rfl⟩ | ⟨b, changed, hbinding, hwrite⟩
  · rfl
  · obtain ⟨taken, u, htake, hset⟩ := bind_eq_ok.mp hwrite
    obtain ⟨copy, hcopy, -, hunedited⟩ := holds.shown
    rcases takeEdit_eq_ok htake with ⟨rfl, rfl⟩ | ⟨copy', hcopy', hedited, -, -⟩
    · exact (pure_eq_ok.mp hset).2.symm
    · rw [hcopy, Option.some.injEq] at hcopy'
      rw [← hcopy', hunedited b hbinding] at hedited
      cases hedited

/-- A value that differs from that of the binding is reported, and all who watch the binding are told.
Afterwards the mirror and the binding have that value, as long as nobody else sets it. -/
theorem report_of_edit (happ : app.Avoids x) (guarded : w.Guarded e x)
    (found : w.element? e = some element) (follower : element.follower = some x)
    (bound : element.binding = some b) {copy : Mirror ρ} (shown : w.copy? x = some copy)
    (edited : copy.edited = true) {old : Scalar ρ} (content : w.content? b = some (.one old))
    (kind : old.kind = copy.value.kind) (run : report (.ofFuel app fuel) e w = .ok ((), w')) :
    (old.differs copy.value = false ∧ w' = w.modifyCopy x ({ · with edited := false })) ∨
      old.differs copy.value = true ∧ ∃ news, w'.history = w.history ++ .changed b :: news ∧
        (Entry.Aside x (some b) news → w'.Holds x (some b) copy.value) := by
  rcases report_eq_ok found follower run with ⟨hnone, -⟩ | ⟨c, changed, hbinding, hwrite⟩
  · rw [bound] at hnone
    cases hnone
  · obtain rfl : b = c := Option.some.inj (bound.symm.trans hbinding)
    obtain ⟨taken, u, htake, hset⟩ := bind_eq_ok.mp hwrite
    obtain ⟨rfl, rfl⟩ := takeEdit_of_edited shown edited htake
    obtain ⟨binding, hfound, hcontent⟩ := Option.map_eq_some_iff.mp content
    obtain ⟨rounds, v, hassign, hreach⟩ := (Reentry.ofFuel_faithful app fuel).setContent hset
    rcases assign_eq_ok hassign with ⟨-, rfl, rfl, hsame⟩ | ⟨binding', hfound', hdiffers, -, rfl, rfl⟩
    · -- The binding is left alone, so the copy does not differ from it.
      have hno := hsame binding hfound
      rw [hcontent, not_and, Bool.not_eq_true] at hno
      exact .inl ⟨hno (congrArg Shape.one kind), Reaches.eq_of_nil (hreach [])⟩
    · obtain rfl : binding = binding' := Option.some.inj (hfound.symm.trans hfound')
      rw [hcontent] at hdiffers
      let u := w.modifyCopy x ({ · with edited := false })
      have hshown : u.copy? x = some { copy with edited := false } := by
        rw [World.copy?_modifyCopy, if_pos rfl, shown]
        rfl
      have hassigned : (u.assigned b (.one copy.value)).Guarded e x :=
        ⟨guarded.locked, guarded.own⟩
      obtain ⟨news, hnews, hholds⟩ : (u.assigned b (.one copy.value)).Spares x (some b) w' := by
        refine hassigned.spares happ ?_ ?_ (hreach [])
        · split <;> simp
        · split <;> simp [Duty.Avoids]
      refine .inr ⟨hdiffers, news, ?_, fun haside => ?_⟩
      · rw [hnews, World.history_assigned, List.append_assoc]
        rfl
      · exact hholds haside copy.value (World.holds_assigned hfound hshown rfl rfl)

end Machine

/-- What a mirror shows is new to the binding that it follows. -/
structure World.News (w : World κ ρ) (target : Option BindingId) (copy : Mirror ρ) : Prop where
  edited : ∀ b, target = some b → copy.edited = true
  /-- The binding has a value of the same kind, and one that does not differ is the same. -/
  content : ∀ b, target = some b → ∃ old, w.content? b = some (.one old) ∧
    old.kind = copy.value.kind ∧ (old.differs copy.value = false → old = copy.value)

/-- The change of a binding that is set to a value, if there is one. -/
def World.change (w : World κ ρ) (target : Option BindingId) (value : Scalar ρ) : List Entry :=
  (target.filter fun b => (w.content? b).any (·.differs (.one value))).toList.map .changed

namespace Machine

/-- An edited value is reported, if a binding is followed. Afterwards the mirror and the binding have
that value, as long as nobody else sets it. -/
theorem report_sets (happ : app.Avoids x) (guarded : w.Guarded e x)
    (found : w.element? e = some element) (follower : element.follower = some x)
    {copy : Mirror ρ} (shown : w.copy? x = some copy) (fresh : w.News element.binding copy)
    (run : report (.ofFuel app fuel) e w = .ok ((), w')) :
    ∃ news, w'.history = w.history ++ (w.change element.binding copy.value ++ news) ∧
      (Entry.Aside x element.binding news → w'.Holds x element.binding copy.value) := by
  cases hbinding : element.binding with
  | none =>
      rcases report_eq_ok found follower run with ⟨-, rfl⟩ | ⟨b, _, hbound, -⟩
      · refine ⟨[], ?_, fun _ => ⟨⟨copy, shown, rfl, nofun⟩, nofun⟩⟩
        exact (List.append_nil _).symm
      · rw [hbinding] at hbound
        cases hbound
  | some b =>
      obtain ⟨old, hcontent, hkind, hsame⟩ := fresh.content b hbinding
      have hedited := fresh.edited b hbinding
      have hchange : w.change (some b) copy.value =
          if old.differs copy.value then [.changed b] else [] := by
        rw [World.change, Option.filter_some, hcontent]
        show (if old.differs copy.value = true then _ else _ : Option BindingId).toList.map _ = _
        split <;> rfl
      rw [hchange]
      rcases report_of_edit happ guarded found follower hbinding shown hedited hcontent hkind run with
        ⟨hdiffers, rfl⟩ | ⟨hdiffers, news, hnews, hholds⟩
      · refine ⟨[], ?_, fun _ => ⟨⟨{ copy with edited := false }, ?_, rfl, fun _ _ => rfl⟩, ?_⟩⟩
        · rw [hdiffers]
          exact (List.append_nil _).symm
        · rw [World.copy?_modifyCopy, if_pos rfl, shown]
          rfl
        · rintro c ⟨⟩
          rw [← hsame hdiffers]
          exact hcontent
      · refine ⟨news, ?_, hholds⟩
        rw [hdiffers]
        exact hnews

/-- Callbacks that do not set the value of a widget leave it. -/
theorem runHandlers_spares (happ : app.Avoids x) (guarded : w.Guarded e x) {ctx : EventContext}
    {id : String} {codes : List κ}
    (run : runHandlers app (.ofFuel app fuel) ctx id codes w = .ok ((), w')) :
    w.Spares x target w' := by
  have hreach : Reaches app ⟨codes.map (fun code => .run (app.handler code ctx id)) ++ [], w⟩
      ⟨[], w'⟩ := .each (fun _ _ _ run => (Reentry.ofFuel_faithful app fuel).run run) run []
  refine guarded.spares happ ?_ ?_ hreach
  · simp
  · simp [Duty.Avoids, happ.handler]

end Machine

end Trellis
