import Trellis.Proofs.Element.Handle
import Trellis.Proofs.Look.Filled
import Trellis.Proofs.Mirror.Acts
import Trellis.Proofs.Mirror.Created
import Trellis.Proofs.Widget.Aside
import Trellis.Proofs.Widget.Painted

/-!
# The value of a slider

A slider is meant to show a number between zero and one. What is no number gets past the bounds, and
a number that is taken over from a binding is not bounded at all. Any other number that a slider shows
lies between zero and one, and then the slider is filled within its track.

* `World.Slider` — a slider, the mirror that is its own, and the number it shows.
* `Act.Strays` — the acts that give a slider another number than one between zero and one.
* `World.SlidesTo` — all that any act does to a slider, with `Act.perform_slides`.
* `Frames.slides` — what a slider shows after any number of frames.
-/

namespace Trellis

open Machine

open World (Discreet Moderate Amends Recopies Refits Hands SameKind Fitted)

variable {κ ρ : Type} {e d : ElementId} {x y : WatcherId} {b : BindingId} {n : Float}
  {w w' : World κ ρ}

/-! ## Numbers that a slider is given -/

/-- An element is a slider, which shows a number through a mirror of its own. -/
structure World.Slider (w : World κ ρ) (e : ElementId) (x : WatcherId) (n : Float) : Prop where
  kind : (w.element? e).map (·.body.kind) = some .slider
  follower : ∀ d, w.follower? d = some x ↔ d = e
  shown : (w.copy? x).map (·.value) = some (.single n)

/-- The values that events give to an element, in order of arrival. -/
def EventContext.values (ctx : EventContext) (id : String) : List Float :=
  (ctx.addressedTo id).filterMap fun
    | .value v => some v
    | _ => none

/-- The acts that give a slider a number that does not lie between zero and one. -/
inductive Act.Strays (ctx : EventContext) (w : World κ ρ) (e : ElementId) (x : WatcherId) :
    Act κ ρ → Float → Prop
  /-- The last of the values that events give to it is no number. -/
  | dragged {element : Element κ} {v : Float} {depth : Nat} (found : w.element? e = some element)
      (last : (ctx.values element.id).getLast? = some v) (nan : v.isNaN = true) :
      Strays ctx w e x (.visit depth e) (Number.unit (Number.single v))
  /-- A call sets its value to what is no number. -/
  | set {kind : Kind} {v : Float} {reply : κ} (nan : v.isNaN = true) :
      Strays ctx w e x (.duty (.task (.edit e kind (.change (.setValue v)) reply)))
        (Number.unit (Number.single v))
  /-- A call binds it to a binding that holds such a number. -/
  | bound {kind : Kind} {b : BindingId} {reply : κ} {n : Float}
      (holds : w.content? b = some (.one (.single n))) (outside : ¬ Number.InUnit n) :
      Strays ctx w e x (.duty (.task (.edit e kind (.bind (some b)) reply))) n
  /-- Its mirror is told of a binding that holds such a number. -/
  | told {b : BindingId} {rest : List WatcherId} {n : Float}
      (holds : w.content? b = some (.one (.single n))) (outside : ¬ Number.InUnit n) :
      Strays ctx w e x (.duty (.rounds b (x :: rest))) n
  /-- A callback that knows the mirror attaches it to a binding that holds such a number. -/
  | attached {b : BindingId} {next : Program κ ρ Unit} {n : Float}
      (holds : w.content? b = some (.one (.single n))) (outside : ¬ Number.InUnit n) :
      Strays ctx w e x (.duty (.run (.attach x b next))) n
  /-- A callback that knows the mirror edits it. -/
  | edited {next : Program κ ρ Unit} {n : Float} (outside : ¬ Number.InUnit n) :
      Strays ctx w e x (.duty (.run (.edit x (.single n) next))) n

theorem Act.Strays.not_inUnit {ctx : EventContext} {act : Act κ ρ} (h : act.Strays ctx w e x n) :
    ¬ Number.InUnit n := by
  cases h with
  | dragged found last nan =>
      rw [Number.inUnit_unit_single_iff, nan]
      exact Bool.noConfusion
  | set nan =>
      rw [Number.inUnit_unit_single_iff, nan]
      exact Bool.noConfusion
  | bound holds outside | told holds outside | attached holds outside => exact outside
  | edited outside => exact outside

/-- Any number that a slider is set to is moved into the range, or is none. -/
theorem Body.exists_of_edit? {body : Body κ} {change : Change} {m : Float} (kind : body.kind = .slider)
    (edit : body.edit? change = some (.single m : Scalar ρ)) :
    ∃ v, change = .setValue v ∧ m = Number.unit (Number.single v) := by
  cases body with
  | slider axis color =>
      cases change with
      | setValue v =>
          cases edit
          exact ⟨v, rfl, rfl⟩
      | _ => cases edit
  | _ => cases kind

/-- A slider stays one, and shows the number that it showed or one that it may be given. -/
def World.SlidesTo (e : ElementId) (x : WatcherId) (G : Float → Prop) (w w' : World κ ρ) : Prop :=
  ∀ n, w.Slider e x n → ∃ n', w'.Slider e x n' ∧ (n' = n ∨ G n')

open World (SlidesTo)

variable {G : Float → Prop}

namespace Mirror

variable {copy : Mirror ρ}

/-- A mirror of a number that is edited shows a number. -/
theorem single_edit (h : copy.value = .single n) (value : Scalar ρ) :
    ∃ n', (copy.edit value).value = .single n' ∧ (n' = n ∨ value = .single n') := by
  by_cases hkind : value.kind = copy.value.kind
  · rw [edit, if_pos hkind]
    rw [h] at hkind
    cases value with
    | single n' => exact ⟨n', rfl, .inr rfl⟩
    | _ => cases hkind
  · rw [edit, if_neg hkind]
    exact ⟨n, h, .inl rfl⟩

/-- A mirror of a number that takes over a content shows a number. -/
theorem single_takeOver (h : copy.value = .single n) (content : Content ρ) :
    ∃ n', (copy.takeOver content).value = .single n' ∧
      (n' = n ∨ content = .one (.single n')) := by
  cases content with
  | many kind items => exact ⟨n, h, .inl rfl⟩
  | one value =>
      by_cases hkind : value.kind = copy.value.kind
      · rw [takeOver, if_pos hkind]
        rw [h] at hkind
        cases value with
        | single n' => exact ⟨n', rfl, .inr rfl⟩
        | _ => cases hkind
      · rw [takeOver, if_neg hkind]
        exact ⟨n, h, .inl rfl⟩

end Mirror

namespace World.SlidesTo

instance : IsPreorder (World κ ρ) (SlidesTo e x G) where
  refl _ n h := ⟨n, h, .inl rfl⟩
  trans _ _ _ h h' n hn := by
    obtain ⟨n', hn', hor⟩ := h n hn
    obtain ⟨n'', hn'', hor'⟩ := h' n' hn'
    refine ⟨n'', hn'', ?_⟩
    rcases hor' with rfl | hgiven
    · exact hor
    · exact .inr hgiven

/-- Only the copy of the mirror changes, to a number that the slider may be given. -/
theorem of_copy (kind : w.SameKind e w') (fitted : w.Fitted w')
    (copy : ∀ copy n, w.copy? x = some copy → copy.value = .single n →
      ∃ copy' n', w'.copy? x = some copy' ∧ copy'.value = .single n' ∧ (n' = n ∨ G n')) :
    SlidesTo e x G w w' := by
  intro n h
  obtain ⟨shown, hshown, hvalue⟩ := Option.map_eq_some_iff.mp h.shown
  obtain ⟨shown', n', hshown', hvalue', hor⟩ := copy shown n hshown hvalue
  refine ⟨n', ⟨?_, fun d => ?_, ?_⟩, hor⟩
  · exact Eq.trans kind h.kind
  · rw [follower?, fitted.follower d]
    exact h.follower d
  · rw [hshown', Option.map_some, hvalue']

/-- The mirror shows the value that it showed. -/
theorem of_same (kind : w.SameKind e w') (fitted : w.Fitted w')
    (same : (w'.copy? x).map (·.value) = (w.copy? x).map (·.value)) : SlidesTo e x G w w' := by
  refine of_copy kind fitted fun copy n hcopy hvalue => ?_
  rw [hcopy, Option.map_some, hvalue] at same
  obtain ⟨copy', hcopy', hvalue'⟩ := Option.map_eq_some_iff.mp same
  exact ⟨copy', n, hcopy', hvalue', .inl rfl⟩

instance : Moderate (SlidesTo (κ := κ) (ρ := ρ) e x G) where
  bindings w bindings := of_same (Moderate.bindings w bindings) (Moderate.bindings w bindings) rfl
  awaiting w awaiting := of_same (Moderate.awaiting w awaiting) (Moderate.awaiting w awaiting) rfl
  madeUp w madeUp := of_same (Discreet.madeUp w madeUp) (Discreet.madeUp w madeUp) rfl
  recorded w entry := of_same (Discreet.recorded w entry) (Discreet.recorded w entry) rfl
  dropped w y := by
    refine of_same (Discreet.dropped w y) (Discreet.dropped w y) ?_
    rw [copy?, copy?, watcher?_modifyWatcher]
    split
    · rw [Option.bind_map]
      rfl
    · rfl
  event w event := of_same (Discreet.event w event) (Discreet.event w event) rfl
  asked w window := of_same (Discreet.asked w window) (Discreet.asked w window) rfl

instance : Hands (SlidesTo (κ := κ) (ρ := ρ) e x G) where
  handed w window task := of_same (Hands.handed w window task) (Hands.handed w window task) rfl

instance (d : ElementId) : Refits (SlidesTo (κ := κ) (ρ := ρ) e x G) d where
  refitted w f h := of_same (Refits.refitted w f h) (Refits.refitted w f h) rfl

instance : World.Handled (SlidesTo (κ := κ) (ρ := ρ) e x G) where
  asked := invalidate_respects
  rebodied w d f kind := by
    refine of_same ?_ (World.Handled.rebodied w d f kind) rfl
    rw [SameKind, element?_modifyElement]
    split
    · next hd =>
        subst hd
        cases helement : w.element? d with
        | none => rfl
        | some element => exact congrArg some (kind element helement)
    · rfl

theorem recopies (hy : y ≠ x) : Recopies (SlidesTo (κ := κ) (ρ := ρ) e x G) y where
  copied w f := by
    refine of_same (Recopies.copied (x := y) w f) (Recopies.copied (x := y) w f) ?_
    rw [copy?_modifyCopy, if_neg hy]

/-- The mirror may be edited to a number that the slider may be given. -/
theorem amends {value : Scalar ρ} (h : y = x → ∀ n, value = .single n → G n) :
    Amends (SlidesTo (κ := κ) (ρ := ρ) e x G) y value where
  amended w := by
    let v := (w.modifyCopy y (·.edit value)).record (.edited y)
    have hkind : w.SameKind e v := rfl
    have hfitted : w.Fitted v := fun _ => rfl
    refine of_copy hkind hfitted fun copy n hcopy hvalue => ?_
    have hchanged : v.copy? x =
        if y = x then some (copy.edit value) else some copy := by
      show (w.modifyCopy y (·.edit value)).copy? x = _
      rw [copy?_modifyCopy, hcopy]
      rfl
    by_cases hy : y = x
    · obtain ⟨n', hn', hor⟩ := Mirror.single_edit hvalue value
      refine ⟨copy.edit value, n', ?_, hn', ?_⟩
      · rw [hchanged, if_pos hy]
      · rcases hor with rfl | hgiven
        · exact .inl rfl
        · exact .inr (h hy n' hgiven)
    · refine ⟨copy, n, ?_, hvalue, .inl rfl⟩
      rw [hchanged, if_neg hy]

/-- The mirror takes over a content. -/
theorem of_takeOver (content : Content ρ) (kind : w.SameKind e w') (fitted : w.Fitted w')
    (taken : w'.copy? x = (w.copy? x).map (·.takeOver content))
    (given : ∀ n, content = .one (.single n) → G n) : SlidesTo e x G w w' := by
  refine of_copy kind fitted fun copy n hcopy hvalue => ?_
  obtain ⟨n', hn', hor⟩ := Mirror.single_takeOver hvalue content
  refine ⟨copy.takeOver content, n', ?_, hn', ?_⟩
  · rw [taken, hcopy]
    rfl
  · rcases hor with rfl | hcontent
    · exact .inl rfl
    · exact .inr (given n' hcontent)

end World.SlidesTo

/-- A slider is no follower of another element. -/
theorem World.Slider.follower_ne {other : ElementId} (h : w.Slider e x n) (hd : other ≠ e)
    (hy : w.follower? other = some y) : y ≠ x := by
  rintro rfl
  exact hd ((h.follower other).mp hy)

theorem World.Slider.lock {other : ElementId} (h : w.Slider e x n)
    (run : lock other w = .ok ((), w')) : w'.Slider e x n := by
  obtain ⟨n', h', hsame⟩ := lock_respects (R := SlidesTo e x fun _ => False) other run n h
  rcases hsame with rfl | hfalse
  · exact h'
  · exact hfalse.elim

namespace Machine

/-! ## Single steps -/

theorem takeOver_slides (given : ∀ n, w.content? b = some (.one (.single n)) → G n)
    (run : takeOver x b w = .ok ((), w')) : SlidesTo e x G w w' := by
  have hkind : w.SameKind e w' := takeOver_respects x b run
  have hfitted : w.Fitted w' := takeOver_respects x b run
  cases hcontent : w.content? b with
  | none =>
      have hbinding : w.binding? b = none := Option.map_eq_none_iff.mp hcontent
      replace run := get_bind_eq_ok.mp run
      simp only [hbinding] at run
      obtain ⟨-, rfl⟩ := pure_eq_ok.mp run
      exact refl_of _ w
  | some content =>
      obtain rfl := takeOver_eq_ok hcontent run
      refine .of_takeOver content hkind hfitted ?_ fun n hn => ?_
      · rw [World.copy?_modifyCopy, if_pos rfl]
      · exact given n (by rw [hcontent, hn])

theorem attach_slides (given : ∀ n, w.content? b = some (.one (.single n)) → G n)
    (run : attach x b w = .ok ((), w')) : SlidesTo e x G w w' := by
  obtain ⟨_, u, hwatch, htake⟩ := bind_eq_ok.mp run
  have hcontent : u.content? b = w.content? b := (watch_still x b hwatch).content b
  have hwatched : SlidesTo e x G w u := watch_respects x b hwatch
  refine trans_of _ hwatched (takeOver_slides (fun n hn => ?_) htake)
  exact given n (hcontent.symm.trans hn)

theorem bind_slides {target : Option BindingId} (slider : w.Slider e x n)
    (given : ∀ b n, target = some b → w.content? b = some (.one (.single n)) → G n)
    (run : bind e target w = .ok ((), w')) : SlidesTo e x G w w' := by
  have hfollower : (w.element? e).bind (·.follower) = some x := (slider.follower e).mpr rfl
  obtain ⟨element, helement, hx⟩ := Option.bind_eq_some_iff.mp hfollower
  obtain ⟨u, hleave, hfollow⟩ := bind_follower_eq_ok helement hx run
  have hleft : SlidesTo e x G w u :=
    (Respects.forM_option element.binding fun old => unfollow_respects e x old) hleave
  refine trans_of _ hleft ?_
  cases target with
  | none =>
      obtain ⟨-, rfl⟩ := pure_eq_ok.mp hfollow
      exact refl_of _ u
  | some b =>
      have hcontent : u.content? b = w.content? b := (leave_eq_ok helement rfl hleave).1.content b
      obtain ⟨_, v, hattach, hrest⟩ := bind_eq_ok.mp hfollow
      have hattached : SlidesTo e x G u v :=
        attach_slides (fun n hn => given b n rfl (hcontent.symm.trans hn)) hattach
      refine trans_of _ hattached ?_
      refine (?_ : Respects (SlidesTo e x G) _) hrest
      refine .bind (refit_respects e fun _ => ⟨rfl, rfl, rfl, rfl⟩) fun _ => ?_
      split
      · exact invalidate_respects _
      · exact .pure _

theorem call_slides {app : App κ ρ} {program : Program κ ρ Unit}
    (given : ∀ n, w.content? b = some (.one (.single n)) → G n)
    (run : call app x b w = .ok (program, w')) : SlidesTo e x G w w' := by
  have hkind : w.SameKind e w' := call_respects app x b run
  have hfitted : w.Fitted w' := call_respects app x b run
  rcases copy?_call run with hsame | ⟨copy, value, hcopy, hcontent, htaken⟩
  · exact .of_same hkind hfitted (by rw [hsame])
  · refine .of_takeOver (.one value) hkind hfitted ?_ fun n hn => ?_
    · rw [htaken, hcopy]
      rfl
    · exact given n (by rw [hcontent, hn])

/-- An element that is given a value. If it is the slider, the slider may be given it. -/
theorem setValue_slides {value : Scalar ρ} (given : d = e → ∀ n, value = .single n → G n) :
    Respects (SlidesTo e x G) (setValue d value : Machine κ ρ Unit) := by
  intro w _ w' run n h
  refine (setValue_permitted (R := SlidesTo e x G) (fun y hy => ?_) run) n h
  refine World.SlidesTo.amends fun hx => given ?_
  rw [hx] at hy
  exact (h.follower d).mp hy

/-- Reports leave the number, whatever mirror is written back. -/
theorem assignEdit_slides [Ordered ρ] (y : WatcherId) (b : BindingId) :
    Respects (SlidesTo e x G) (assignEdit y b : Machine κ ρ (Bool × List (Duty κ ρ))) := by
  refine .bind (fun w taken w' run => ?_) fun taken => ?_
  · have hkind : w.SameKind e w' := takeEdit_respects y run
    have hfitted : w.Fitted w' := takeEdit_respects y run
    refine .of_same hkind hfitted ?_
    rcases takeEdit_eq_ok run with ⟨-, rfl⟩ | ⟨copy, -, -, -, rfl⟩
    · rfl
    · rw [World.copy?_modifyCopy]
      split
      · rw [Option.map_map]
        rfl
      · rfl
  · cases taken with
    | none => exact .pure _
    | some value => exact fun _ _ _ run => (assign_answers b (.one value) run).1

end Machine

variable [Ordered ρ] {app : App κ ρ} {ctx : EventContext} {window : WindowId}

/-! ## Acts -/

/-- The numbers that an act may give to a slider. -/
def Act.Gives (ctx : EventContext) (w : World κ ρ) (e : ElementId) (x : WatcherId) (act : Act κ ρ)
    (n : Float) : Prop :=
  Number.InUnit n ∨ act.Strays ctx w e x n

namespace Duty

variable {duty : Duty κ ρ} {left : List (Duty κ ρ)}

omit [Ordered ρ] in
/-- What a duty edits a slider to. -/
theorem gives_of_amends {value : Scalar ρ} (slider : w.Slider e x n)
    (amends : duty.amends? w = some (x, value)) (m : Float) (single : value = .single m) :
    (Act.duty duty).Gives ctx w e x m := by
  subst single
  by_cases hunit : Number.InUnit m
  · exact .inl hunit
  · refine .inr ?_
    cases duty with
    | run program =>
        cases program with
        | edit y edited next =>
            cases amends
            exact .edited hunit
        | _ => cases amends
    | task task =>
        cases task with
        | run code => cases amends
        | edit d kind call reply =>
            cases call with
            | change change =>
                obtain ⟨element, helement, amends⟩ := Option.bind_eq_some_iff.mp amends
                obtain ⟨y, hy, amends⟩ := Option.bind_eq_some_iff.mp amends
                obtain ⟨edited, hedit, heq⟩ := Option.map_eq_some_iff.mp amends
                cases heq
                have hd : d = e := by
                  apply (slider.follower d).mp
                  rw [World.follower?, helement]
                  exact hy
                subst hd
                have hkind := slider.kind
                rw [helement, Option.map_some, Option.some.injEq] at hkind
                obtain ⟨v, rfl, rfl⟩ := Body.exists_of_edit? hkind hedit
                rw [Number.inUnit_unit_single_iff, Bool.not_eq_false] at hunit
                exact .set hunit
            | _ => cases amends
    | _ => cases amends

/-- A duty that takes nothing over from a binding for the slider. -/
theorem discharge_slides_aside (slider : w.Slider e x n) (copies : duty.copies? ≠ some x)
    (binds : ∀ kind target reply, duty ≠ .task (.edit e kind (.bind target) reply))
    (run : duty.discharge app w = .ok (left, w')) :
    SlidesTo e x ((Act.duty duty).Gives ctx w e x) w w' := by
  refine (discharge_answers (fun y hy => ?_) (fun y value hy => ?_) (fun _ _ => inferInstance)
    (fun d kind target reply y hduty hy => ?_) run).1
  · apply World.SlidesTo.recopies
    rintro rfl
    exact copies hy
  · apply World.SlidesTo.amends
    rintro rfl m hm
    exact gives_of_amends slider hy m hm
  · apply World.SlidesTo.recopies
    have hd : d ≠ e := by
      rintro rfl
      exact binds kind target reply hduty
    exact slider.follower_ne hd hy

omit [Ordered ρ] in
/-- What a slider takes over when it is bound by an update. -/
theorem edit_slides {kind : Kind} {target : Option BindingId} {reply : κ}
    {program : Program κ ρ Unit} (slider : w.Slider e x n)
    (given : ∀ b n, target = some b → w.content? b = some (.one (.single n)) → G n)
    (run : edit app e kind (.bind target) reply w = .ok (program, w')) : SlidesTo e x G w w' := by
  rcases edit_bind_outcome run with rfl | ⟨element, -, hbind⟩
  · exact refl_of _ w'
  · refine bind_slides slider (fun b n hb => given b n ?_) hbind
    exact (Option.filter_eq_some_iff.mp hb).1

theorem discharge_slides (slider : w.Slider e x n) (run : duty.discharge app w = .ok (left, w')) :
    SlidesTo e x ((Act.duty duty).Gives ctx w e x) w w' := by
  have hgives {b : BindingId} {P : Float → Prop}
      (strays : ∀ n, w.content? b = some (.one (.single n)) → ¬ Number.InUnit n → P n) (n : Float)
      (hn : w.content? b = some (.one (.single n))) : Number.InUnit n ∨ P n := by
    by_cases hunit : Number.InUnit n
    · exact .inl hunit
    · exact .inr (strays n hn hunit)
  by_cases hcopies : duty.copies? = some x
  · cases duty with
    | run program =>
        cases program with
        | attach y b next =>
            obtain rfl : y = x := Option.some.inj hcopies
            obtain ⟨_, v, hattach, run⟩ := bind_eq_ok.mp run
            obtain ⟨-, rfl⟩ := pure_eq_ok.mp run
            exact attach_slides (hgives fun n hn => .attached hn) hattach
        | writeBack y b next =>
            obtain ⟨_, v, hassign, run⟩ := bind_eq_ok.mp run
            obtain ⟨-, rfl⟩ := pure_eq_ok.mp run
            exact assignEdit_slides y b hassign
        | _ => cases hcopies
    | rounds b watchers =>
        cases watchers with
        | nil => cases hcopies
        | cons y rest =>
            obtain rfl : y = x := Option.some.inj hcopies
            obtain ⟨_, v, hcall, run⟩ := bind_eq_ok.mp run
            obtain ⟨-, rfl⟩ := pure_eq_ok.mp run
            exact call_slides (hgives fun n hn => .told hn) hcall
    | _ => cases hcopies
  · by_cases hbinds : ∃ kind target reply, duty = .task (.edit e kind (.bind target) reply)
    · obtain ⟨kind, target, reply, rfl⟩ := hbinds
      obtain ⟨_, u, hlock, run⟩ := bind_eq_ok.mp run
      obtain ⟨_, v, hedit, run⟩ := bind_eq_ok.mp run
      obtain ⟨-, rfl⟩ := pure_eq_ok.mp run
      have hlocked := lock_respects (R := SlidesTo e x
        ((Act.duty (.task (.edit e kind (.bind target) reply))).Gives ctx w e x)) e hlock
      refine trans_of _ hlocked (edit_slides (slider.lock hlock) (fun b n hb hn => ?_) hedit)
      subst hb
      have hcontent : u.content? b = w.content? b := (lock_still e hlock).content b
      exact hgives (fun n hn => .bound hn) n (hcontent.symm.trans hn)
    · refine discharge_slides_aside slider hcopies (fun kind target reply heq => hbinds ?_) run
      exact ⟨kind, target, reply, heq⟩

end Duty

namespace Act

omit [Ordered ρ] in
/-- Elements other than the slider handle events. -/
theorem elementActs_slides_aside (hd : d ≠ e) (depth : Nat) :
    Respects (SlidesTo e x G) (elementActs app ctx depth d) := by
  have hshows : World.Shows (SlidesTo (κ := κ) (ρ := ρ) e x G) d :=
    ⟨fun _ => setValue_slides fun heq => absurd heq hd⟩
  have hoffered : Act.Offered (ρ := ρ) app ctx fun _ => True :=
    ⟨fun _ _ => trivial, fun _ _ _ _ => trivial, fun _ => trivial, fun _ _ => trivial,
      fun _ _ _ => trivial⟩
  exact fun _ _ _ run => (elementActs_answers hoffered depth d run).1

omit [Ordered ρ] in
/-- The slider handles events: it is given the last of the values, moved into the range. -/
theorem elementActs_slides {element : Element κ} {depth : Nat} {left : List (Act κ ρ)}
    (slider : w.Slider e x n) (found : w.element? e = some element)
    (given : ∀ v, (ctx.values element.id).getLast? = some v →
      G (Number.unit (Number.single v)))
    (run : elementActs app ctx depth e w = .ok (left, w')) : SlidesTo e x G w w' := by
  have hkind := slider.kind
  rw [found, Option.map_some, Option.some.injEq] at hkind
  replace run := get_bind_eq_ok.mp run
  cases hbody : element.body with
  | slider axis color =>
      simp only [found, hbody] at run
      rw [leafActs, hbody] at run
      dsimp only [sliderActs] at run
      generalize hlast : List.getLast? _ = last at run
      cases last with
      | none => exact (Respects.pure _) run
      | some v =>
          obtain ⟨_, u, hset, run⟩ := bind_eq_ok.mp run
          obtain ⟨-, rfl⟩ := pure_eq_ok.mp run
          refine setValue_slides (fun _ m hm => ?_) hset
          cases hm
          exact given v hlast
  | _ => rw [hbody] at hkind; cases hkind

omit [Ordered ρ] in
/-- A task that is taken from the updates is none of the slider yet. -/
theorem nextTask_slides :
    Respects (SlidesTo e x G) (nextTask window : Machine κ ρ (Option (Task κ))) := by
  refine .bind (.get_bind fun _ => .pure _) fun tasks => ?_
  split
  · exact .pure _
  · refine .bind (.modify fun w => ?_) fun _ => .pure _
    exact .of_same rfl (fun _ => rfl) rfl

variable {act : Act κ ρ} {left : List (Act κ ρ)}

/-- An element is visited. If it is the slider, it gets past the bounds only by what is no number. -/
theorem visit_slides {depth : Nat} (slider : w.Slider e x n)
    (run : (Act.visit depth d).perform app ctx window w = .ok (left, w')) :
    SlidesTo e x ((Act.visit depth d : Act κ ρ).Gives ctx w e x) w w' := by
  cases depth with
  | zero => exact (Respects.stop _) run
  | succ depth =>
      obtain ⟨_, u, hlock, run⟩ := bind_eq_ok.mp run
      obtain ⟨acts, v, hacts, run⟩ := bind_eq_ok.mp run
      obtain ⟨-, rfl⟩ := pure_eq_ok.mp run
      have hlocked : SlidesTo e x ((Act.visit (depth + 1) d : Act κ ρ).Gives ctx w e x) w u :=
        lock_respects d hlock
      refine trans_of _ hlocked ?_
      by_cases hd : d = e
      · subst hd
        have slider' := slider.lock hlock
        obtain ⟨element, helement, -⟩ := Option.map_eq_some_iff.mp slider'.kind
        obtain ⟨before, hbefore, rfl⟩ := exists_of_lock hlock helement
        refine elementActs_slides slider' helement (fun v hv => ?_) hacts
        cases hnan : v.isNaN with
        | true => exact .inr (.dragged hbefore hv hnan)
        | false => exact .inl (Number.inUnit_unit_single_iff.mpr hnan)
      · exact elementActs_slides_aside hd depth hacts

/-- All that an act does to a slider: it shows the number that it showed, one between zero and one, or
one that has got past the bounds. -/
theorem perform_slides (slider : w.Slider e x n)
    (run : act.perform app ctx window w = .ok (left, w')) :
    SlidesTo e x (act.Gives ctx w e x) w w' := by
  cases act with
  | duty duty =>
      obtain ⟨duties, v, hdischarge, run⟩ := bind_eq_ok.mp run
      obtain ⟨rfl, rfl⟩ := pure_eq_ok.mp run
      exact Duty.discharge_slides slider hdischarge
  | tree d => exact (Respects.get_bind fun _ => .pure _) run
  | visit depth d => exact visit_slides slider run
  | enter d id input edited => exact (Respects.get_bind fun _ => .pure _) run
  | report d =>
      rcases report_outcome run with ⟨-, rfl⟩ | ⟨y, b, changed, rounds, -, -, -, hassign⟩
      · exact refl_of _ w'
      · exact assignEdit_slides y b hassign
  | work limit =>
      refine (?_ : Respects (SlidesTo e x _) _) run
      refine .bind nextTask_slides fun next => ?_
      split
      · exact .pure _
      · exact .stop _
      · exact .pure _

end Act

/-! ## Frames -/

/-- The next act of a frame gives a slider a number that does not lie between zero and one. -/
def Frame.Strays (frame : Frame κ ρ) (e : ElementId) (x : WatcherId) (n : Float) : Prop :=
  ∃ act rest, frame.scene.acts = act :: rest ∧ act.Strays frame.ctx frame.scene.world e x n

namespace World

/-- Wherever the smallest size that an element may have is a length, what is drawn of it is a slider
that is filled within its track. -/
def Filled (app : App κ ρ) (w : World κ ρ) (e : ElementId) : Prop :=
  ∃ element axis color, w.element? e = some element ∧ element.body = .slider axis color ∧
    ∀ canvas : Canvas Float (Request κ), 0 ≤ axis.main canvas.constraints.min →
      (axis.main canvas.constraints.min).isFinite = true →
      ∃ size ops, w.drawing? app e canvas = some (size, ops) ∧
        SliderLook.Filled axis canvas.ops ops

omit [Ordered ρ] in
/-- A slider is filled within its track if it shows a number between zero and one. -/
theorem Slider.filled (slider : w.Slider e x n) (unit : Number.InUnit n) : w.Filled app e := by
  obtain ⟨element, helement, hkind⟩ := Option.map_eq_some_iff.mp slider.kind
  cases hbody : element.body with
  | slider axis color =>
      refine ⟨element, axis, color, helement, hbody, fun canvas nonneg finite => ?_⟩
      have hfollower : element.follower = some x := by
        have h := (slider.follower e).mpr rfl
        rw [follower?, helement] at h
        exact h
      let look : SliderLook Float := { id := element.id, value := n, axis, color }
      have hseen : w.seen app element = .slider look := by
        rw [seen, hfollower, Option.bind_some, slider.shown, World.look, hbody]
      have hbindable : element.body.bindable = true := by rw [hbody]; rfl
      rw [drawing?_of_bindable helement hbindable, hseen]
      let bare : Canvas Float (Request κ) := { canvas with requests := [] }
      have hfills : SliderLook.Filled axis canvas.ops (look.draw bare).2.ops :=
        look.fills unit nonneg finite
      exact ⟨_, _, rfl, hfills⟩
  | _ => rw [hbody] at hkind; cases hkind

end World

/-- One step of a frame, or the beginning of one. -/
theorem Frame.Next.slides {f g : Frame κ ρ} (step : Next app f g)
    (slider : f.scene.world.Slider e x n) :
    ∃ n', g.scene.world.Slider e x n' ∧ (n' = n ∨ Number.InUnit n' ∨ f.Strays e x n') := by
  cases step with
  | begins done => exact ⟨n, slider, .inl rfl⟩
  | act step =>
      obtain ⟨run⟩ := step
      obtain ⟨n', slider', hgiven⟩ := Act.perform_slides slider run n slider
      refine ⟨n', slider', ?_⟩
      rcases hgiven with hsame | hunit | hstrays
      · exact .inl hsame
      · exact .inr (.inl hunit)
      · exact .inr (.inr ⟨_, _, rfl, hstrays⟩)

namespace Frames

variable {c f : Frame κ ρ}

/-- A slider that shows a number between zero and one at first shows one after any number of frames,
unless an act on the way has given it the number that it shows. The induction is on the steps. -/
theorem slides (run : Frames app c f) (slider : c.scene.world.Slider e x n)
    (unit : Number.InUnit n) :
    ∃ n', f.scene.world.Slider e x n' ∧
      (Number.InUnit n' ∨ ∃ u, Frames app c u ∧ Frames app u f ∧ u.Strays e x n') := by
  induction run with
  | refl => exact ⟨n, slider, .inl unit⟩
  | @tail f g run step ih =>
      obtain ⟨m, hslider, hm⟩ := ih
      obtain ⟨n', hslider', hn'⟩ := step.slides hslider
      refine ⟨n', hslider', ?_⟩
      rcases hn' with rfl | hunit | hstrays
      · rcases hm with hunit | ⟨u, hu, huf, hstrays⟩
        · exact .inl hunit
        · exact .inr ⟨u, hu, huf.tail step, hstrays⟩
      · exact .inl hunit
      · exact .inr ⟨f, run, .single step, hstrays⟩

/-- After any number of frames a slider shows a number between zero and one and is filled within its
track, unless an act on the way has given it another number: an event or a call by a value that is no
number, or a binding that holds such a number, from which it is taken over. -/
theorem slider_filled (run : Frames app c f) (slider : c.scene.world.Slider e x n)
    (unit : Number.InUnit n) :
    ∃ n', f.scene.world.Slider e x n' ∧
      (Number.InUnit n' ∧ f.scene.world.Filled app e ∨
        ¬ Number.InUnit n' ∧ ∃ u, Frames app c u ∧ Frames app u f ∧ u.Strays e x n') := by
  obtain ⟨n', hslider, hn'⟩ := run.slides slider unit
  refine ⟨n', hslider, ?_⟩
  rcases hn' with hunit | ⟨u, hu, huf, act, rest, hnext, hstrays⟩
  · exact .inl ⟨hunit, hslider.filled hunit⟩
  · exact .inr ⟨hstrays.not_inUnit, u, hu, huf, act, rest, hnext, hstrays⟩

end Frames

/-! ## Sliders that are created -/

omit [Ordered ρ] in
/-- A slider shows the number that it was made with, or that of the binding it follows from the
start. -/
theorem Machine.create_slider {view : Option WindowId} {plan : Blueprint κ ρ}
    (followers : ∀ d el y, w.element? d = some el → el.follower = some y →
      y.index < w.watchers.size)
    (kind : plan.body.kind = .slider) (follower : plan.follower = some (some (.single n)))
    (run : create view plan w = .ok (e, w')) :
    ∃ n', w'.Slider e ⟨w.watchers.size⟩ n' ∧
      (n' = n ∨ ∃ b, plan.binding = some b ∧ w.content? b = some (.one (.single n'))) := by
  have hslider : (w.created view plan.body (.single n)).Slider ⟨w.elements.size⟩
      ⟨w.watchers.size⟩ n := by
    refine ⟨?_, World.follower?_withWidget followers _ (.single n), ?_⟩
    · rw [World.created, World.element?_withWidget]
      exact congrArg some kind
    · rw [World.created, World.copy?, World.watcher?_withWidget]
      rfl
  obtain ⟨rfl, ⟨-, rfl⟩ | ⟨b, hbinding, hbind⟩⟩ := create_eq_ok follower run
  · exact ⟨n, hslider, .inl rfl⟩
  · exact bind_slides hslider (fun c m hc hm => ⟨c, hbinding.trans hc, hm⟩) hbind n hslider

/-! ## A slider that is bound to five -/

/-- A slider at zero, and a binding that holds five. -/
def World.atZero : World Unit Empty where
  bindings := #[{ name := "volume", content := .one (.single 5) }]
  watchers := #[{ watcher := .mirror { value := .single 0 }, owner := some ⟨0⟩ }]
  elements := #[{
    id := "slider", window := none, body := .slider .horizontal Palette.accent,
    follower := some ⟨0⟩ }]

/-- The slider is to be bound to the binding. -/
def Scene.binding : Scene Unit Empty where
  acts := [.duty (.task (.edit ⟨0⟩ .slider (.bind (some ⟨0⟩)) ()))]
  world := .atZero

theorem World.atZero_slider : atZero.Slider ⟨0⟩ ⟨0⟩ 0 where
  kind := rfl
  follower := by
    rintro ⟨i⟩
    cases i with
    | zero => exact iff_of_true rfl rfl
    | succ i => exact iff_of_false nofun nofun
  shown := rfl

/-- The slider shows five then, which an act has given it. -/
theorem Frames.slider_filled_bound :
    ∃ f, Frames App.idle ⟨{}, ⟨0⟩, .binding⟩ f ∧ f.scene.world.Slider ⟨0⟩ ⟨0⟩ 5 ∧
      ∃ u, Frames App.idle ⟨{}, ⟨0⟩, .binding⟩ u ∧ Frames App.idle u f ∧ u.Strays ⟨0⟩ ⟨0⟩ 5 := by
  have hcourse : Course App.idle {} ⟨0⟩ Scene.binding (Scene.binding.after App.idle {} ⟨0⟩ 1) :=
    .after 1 _
  have hrun := hcourse.frames
  obtain ⟨n, hslider, hn⟩ := hrun.slider_filled World.atZero_slider
    (Exact.inUnit_iff.mpr ⟨0, Exact.ofFloat_zero, le_rfl, zero_le_one⟩)
  have hshown : ((Scene.binding.after App.idle {} ⟨0⟩ 1).world.copy? ⟨0⟩).map (·.value) =
      some (.single 5) := rfl
  obtain rfl : n = 5 := by
    have heq := hslider.shown.symm.trans hshown
    injection heq with hvalue
    injection hvalue
  refine ⟨_, hrun, hslider, ?_⟩
  rcases hn with ⟨hunit, -⟩ | ⟨-, hstrays⟩
  · have hoff : ¬ (5 : Float) ≤ 1 := by decide +kernel
    exact absurd hunit.2 hoff
  · exact hstrays

end Trellis
