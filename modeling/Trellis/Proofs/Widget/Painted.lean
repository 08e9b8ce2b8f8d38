import Trellis.Machine.Picture
import Trellis.Proofs.Definition.Making
import Trellis.Proofs.Mirror.Rebinding

/-!
# Changes that are painted

A widget whose looks change asks its window for a new frame. Two calls fail to: a check box that is
bound takes over another value, and a list that is bound to nothing loses its items, but neither asks
for a frame.

* `World.drawing?` — what drawing an element comes to, with `World.drawing?_of_draw`.
* `Call.shows` — the calls that may change what an element shows.
* `World.Forgets` — the two calls that change it and ask for nothing.
* `Machine.perform_painted` — any other call that changes it asks for a frame.
-/

namespace Trellis

open Machine

variable {κ ρ : Type} {app : App κ ρ} {e : ElementId} {element element' : Element κ}
  {x : WindowId} {y : WatcherId} {window : Window κ} {target : Option BindingId} {w w' : World κ ρ}

/-! ## What is drawn of an element -/

namespace World

/-- The size and the display list that drawing an element comes to once it is free. -/
def drawing? (app : App κ ρ) (w : World κ ρ) (e : ElementId) (canvas : Canvas Float (Request κ)) :
    Option (Size Float × List (DrawOp Float)) :=
  match figure app e (w.modifyElement e ({ · with locked := false })) with
  | .ok (figure, _) =>
    let (size, after) := figure.draw { canvas with requests := [] }
    some (size, after.ops)
  | .error _ => none

/-- What shows of an element without children. -/
def seen (app : App κ ρ) (w : World κ ρ) (element : Element κ) : Look Float (Request κ) :=
  w.look app element ((element.follower.bind w.copy?).map (·.value))

/-- Drawing an element that is free comes to its drawing. -/
theorem drawing?_of_draw {r : Reentry κ ρ} {canvas after : Canvas Float (Request κ)}
    {size : Size Float} (found : w.element? e = some element) (free : element.locked = false)
    (run : draw app r e canvas w = .ok ((size, after), w')) :
    w.drawing? app e canvas = some (size, after.ops) := by
  have hsame : { element with locked := false } = element := by rw [← free]
  obtain ⟨figure, u, hfigure, run⟩ := bind_eq_ok.mp run
  obtain ⟨_, v, -, run⟩ := bind_eq_ok.mp run
  obtain ⟨heq, -⟩ := pure_eq_ok.mp run
  rw [drawing?, modifyElement_of_eq found hsame, hfigure]
  cases heq
  rfl

/-- An element that can be bound has no children. -/
theorem drawing?_of_bindable (found : w.element? e = some element)
    (bindable : element.body.bindable = true) (canvas : Canvas Float (Request κ)) :
    w.drawing? app e canvas =
      let (size, after) := (w.seen app element).draw { canvas with requests := [] }
      some (size, after.ops) := by
  have hfound : (w.modifyElement e ({ · with locked := false })).element? e =
      some { element with locked := false } := by
    rw [element?_modifyElement, if_pos rfl, found, Option.map_some]
  have hfigure : figure app e (w.modifyElement e ({ · with locked := false })) =
      .ok (.leaf (w.seen app element), w.modifyElement e ({ · with locked := false })) := by
    refine bind_eq_ok.mpr ⟨_, _, get_eq_ok.mpr ⟨rfl, rfl⟩, ?_⟩
    refine bind_eq_ok.mpr ⟨_, _, get_eq_ok.mpr ⟨rfl, rfl⟩, ?_⟩
    have hvalue : valueOf e (w.modifyElement e ({ · with locked := false })) =
        .ok ((element.follower.bind w.copy?).map (·.value),
          w.modifyElement e ({ · with locked := false })) := by
      refine bind_eq_ok.mpr ⟨_, _, get_eq_ok.mpr ⟨rfl, rfl⟩, ?_⟩
      rw [hfound, Option.bind_some]
      cases element.follower <;> rfl
    simp only [hfound]
    obtain ⟨id, window, body, follower, binding, locked⟩ := element
    cases body with
    | flex | inset | minSize | stack => cases bindable
    | _ => exact bind_eq_ok.mpr ⟨_, _, hvalue, rfl⟩
  rw [drawing?, hfigure]
  rfl

/-- The drawing goes by what shows. -/
theorem drawing?_congr (found : w.element? e = some element)
    (found' : w'.element? e = some element') (bindable : element.body.bindable = true)
    (body : element'.body = element.body) (seen : w'.seen app element' = w.seen app element)
    (canvas : Canvas Float (Request κ)) : w'.drawing? app e canvas = w.drawing? app e canvas := by
  rw [drawing?_of_bindable found bindable, drawing?_of_bindable found' (body ▸ bindable), seen]

/-- What shows of an element that is no list does not depend on what it follows. -/
theorem seen_congr (body : element.body.kind ≠ .list) (follower : element.follower = some y)
    (value : (w'.copy? y).map (·.value) = (w.copy? y).map (·.value)) :
    w'.seen app { element with binding := target } = w.seen app element := by
  rw [seen, seen, follower, Option.bind_some, Option.bind_some, value]
  unfold look
  cases hbody : element.body with
  | list s =>
      rw [hbody] at body
      exact absurd rfl body
  | _ => rfl

/-! ## Calls that change what shows -/

/-- The binding that an element comes to follow when it is bound. One of another shape counts as
none. -/
def fitting (w : World κ ρ) (body : Body κ) (target : Option BindingId) : Option BindingId :=
  target.filter fun b => ((w.binding? b).map (body.follows ·.content.shape)).getD false

/-- The calls that change what an element shows and ask for no frame: a check box is bound and takes
over another value, or a list that has items to draw is bound to nothing. -/
inductive Forgets (w : World κ ρ) (element : Element κ) : Call κ BindingId → Prop
  | checkbox {s : Checkbox κ} {target : Option BindingId} {b : BindingId} {value : Bool}
      (body : element.body = .checkbox s) (fits : w.fitting element.body target = some b)
      (content : w.content? b = some (.one (.flag value)))
      (shown : (element.follower.bind w.copy?).map (·.value) = some (.flag !value)) :
      Forgets w element (.bind target)
  | list {s : ItemList κ} {target : Option BindingId} {old : BindingId} {renderer : κ}
      {items : List (Scalar ρ)} (body : element.body = .list s)
      (unbinds : w.fitting element.body target = none) (follows : element.binding = some old)
      (content : (w.content? old).bind (·.items?) = some items)
      (draws : s.renderer = some renderer) : Forgets w element (.bind target)

end World

/-- The changes that may change what an element shows, and are made by calls. -/
def Change.shows : Change → Bool
  | .setText _ | .setFlag _ | .setValue _ | .setLabel _ | .setIcon _ => true
  | _ => false

/-- The calls that may change what an element shows. -/
def Call.shows {β : Type} : Call κ β → Bool
  | .change c => c.shows
  | .bind _ => true
  | _ => false

/-- A window that has been asked for a new frame once more. -/
def Window.asked (window : Window κ) : Window κ :=
  { window with invalidations := window.invalidations + 1, requested := true }

namespace World

/-- An element follows a target now. Nothing else that can be seen has changed, but for copies. -/
structure Refollows (e : ElementId) (target : Option BindingId) (w w' : World κ ρ) : Prop where
  windows : w'.windows = w.windows
  content : ∀ b, w'.content? b = w.content? b
  element : w'.element? e = (w.element? e).map ({ · with binding := target })

end World

namespace Machine

/-- An element that leaves the binding it follows keeps the value that it shows. -/
theorem leave_eq_ok {binding : Option BindingId} (found : w.element? e = some element)
    (follows : element.binding = binding) (run : binding.forM (unfollow e y) w = .ok ((), w')) :
    w.Refollows e none w' ∧ ∀ z, w'.copy? z = w.copy? z := by
  cases binding with
  | none =>
      obtain ⟨-, rfl⟩ := pure_eq_ok.mp run
      refine ⟨⟨rfl, fun _ => rfl, ?_⟩, fun _ => rfl⟩
      rw [found, Option.map_some, ← follows]
  | some old =>
      have hstill : w.Still w' := unfollow_still e y old run
      obtain rfl := unfollow_eq_ok run
      refine ⟨⟨rfl, hstill.content, ?_⟩, fun _ => rfl⟩
      show (w.modifyElement e ({ · with binding := none })).element? e = _
      rw [World.element?_modifyElement, if_pos rfl]

/-- An element that follows a binding takes over its value. Then it asks for a frame, or does not. -/
theorem follow_eq_ok {b : BindingId} {content : Content ρ} (found : w.content? b = some content)
    (run : follow e element y b w = .ok ((), w')) :
    ∃ v, w.Refollows e (some b) v ∧ v.copy? y = (w.copy? y).map (·.takeOver content) ∧
      (if element.body.asksOnBind then invalidate element.window else pure ()) v =
        .ok ((), w') := by
  obtain ⟨_, t, hattach, run⟩ := bind_eq_ok.mp run
  obtain ⟨_, v, hrebound, hask⟩ := bind_eq_ok.mp run
  have hstill : w.Still t := attach_still y b hattach
  obtain ⟨_, u, hwatch, htake⟩ := bind_eq_ok.mp hattach
  have hsame : u.windows = w.windows ∧ u.copy? y = w.copy? y ∧ u.element? e = w.element? e := by
    rw [← modify_eq_ok.mp hwatch]
    split <;> exact ⟨rfl, rfl, rfl⟩
  have hfound : u.content? b = some content := ((watch_still y b hwatch).content b).trans found
  obtain rfl := takeOver_eq_ok hfound htake
  obtain rfl := modify_eq_ok.mp hrebound
  refine ⟨_, ⟨?_, ?_, ?_⟩, ?_, hask⟩
  · exact hsame.1
  · exact hstill.content
  · rw [World.element?_modifyElement, if_pos rfl]
    exact congrArg (Option.map _) hsame.2.2
  · show (u.modifyCopy y (·.takeOver content)).copy? y = _
    rw [World.copy?_modifyCopy, if_pos rfl, hsame.2.1]

/-- A window that is asked for a frame. -/
theorem invalidate_asks (belongs : element.window = some x) (exists_window : w.window? x = some window)
    {u : World κ ρ} (windows : u.windows = w.windows)
    (run : invalidate element.window u = .ok ((), w')) : w'.window? x = some window.asked := by
  rw [belongs] at run
  obtain rfl := modify_eq_ok.mp run
  rw [World.window?_modifyWindow_self, World.window?, windows]
  exact congrArg (Option.map _) exists_window

/-- A list that leaves the binding it follows loses its items, if there were any to draw. -/
theorem leave_list {s : ItemList κ} (found : w.element? e = some element)
    (body : element.body = .list s) (unbinds : w.fitting element.body target = none)
    (left : w.Refollows e none w') (follows : element.binding = none → w' = w) :
    (∀ canvas, w'.drawing? app e canvas = w.drawing? app e canvas) ∨
      w.Forgets element (.bind target) := by
  cases hbinding : element.binding with
  | none =>
      refine .inl fun canvas => ?_
      rw [follows hbinding]
  | some old =>
      have hfound := left.element
      rw [found, Option.map_some] at hfound
      have hbindable : element.body.bindable = true := by rw [body]; rfl
      -- Without items or without a way to draw them nothing shows, before and after.
      have hbare (h : (w.content? old).bind (·.items?) = none ∨ s.renderer = none)
          (canvas : Canvas Float (Request κ)) :
          w'.drawing? app e canvas = w.drawing? app e canvas := by
        refine World.drawing?_congr found hfound hbindable rfl ?_ canvas
        unfold World.seen World.look
        simp only [body, hbinding]
        refine congrArg Look.list (congrArg _ ?_)
        rw [World.content?] at h
        cases hold : w.binding? old with
        | none => simp [hold]
        | some binding =>
            rw [hold] at h
            rcases h with h | h
            · have hnone : binding.content.items? = none := h
              simp [hold, hnone]
            · simp [h]
      cases hitems : (w.content? old).bind (·.items?) with
      | none => exact .inl (hbare (.inl hitems))
      | some items =>
          cases hrenderer : s.renderer with
          | none => exact .inl (hbare (.inr hrenderer))
          | some code => exact .inr (.list body unbinds hbinding hitems hrenderer)

/-- What a binding holds that an element comes to follow is of a shape that it can follow. -/
theorem World.exists_content_of_fitting {body : Body κ} {b : BindingId}
    (fits : w.fitting body target = some b) :
    ∃ content, w.content? b = some content ∧ body.follows content.shape = true := by
  have hshape := (Option.filter_eq_some_iff.mp fits).2
  cases hbinding : w.binding? b with
  | none =>
      rw [hbinding] at hshape
      cases hshape
  | some binding =>
      rw [hbinding] at hshape
      refine ⟨binding.content, ?_, hshape⟩
      rw [World.content?, hbinding, Option.map_some]

/-- A check box that takes over the value of a binding looks the same only if it had that value. -/
theorem follow_checkbox {s : Checkbox κ} {b : BindingId} {content : Content ρ}
    (found : w.element? e = some element) (body : element.body = .checkbox s)
    (follower : element.follower = some y) (fits : w.fitting element.body target = some b)
    (holds : w.content? b = some content) (shape : element.body.follows content.shape = true)
    (follows : w'.element? e = some { element with binding := some b })
    (taken : w'.copy? y = (w.copy? y).map (·.takeOver content)) :
    (∀ canvas, w'.drawing? app e canvas = w.drawing? app e canvas) ∨
      w.Forgets element (.bind target) := by
  have hsame (value : (w'.copy? y).map (·.value) = (w.copy? y).map (·.value))
      (canvas : Canvas Float (Request κ)) :
      w'.drawing? app e canvas = w.drawing? app e canvas := by
    refine World.drawing?_congr found follows ?_ rfl (World.seen_congr ?_ follower value) canvas
    · rw [body]
      rfl
    · rw [body]
      intro h
      cases h
  rw [body] at shape
  obtain ⟨value, rfl, hkind⟩ := Content.exists_of_shape (of_decide_eq_true shape)
  cases hcopy : w.copy? y with
  | none =>
      refine .inl (hsame ?_)
      rw [taken, hcopy]
      rfl
  | some copy =>
      rw [hcopy, Option.map_some, Mirror.takeOver] at taken
      cases hshown : copy.value with
      | flag shown =>
          cases value with
          | flag value =>
              by_cases heq : shown = value
              · refine .inl (hsame ?_)
                rw [taken, hcopy, if_pos (by rw [hshown]; rfl), Option.map_some, Option.map_some,
                  hshown, heq]
              · refine .inr (.checkbox body fits holds ?_)
                rw [follower, Option.bind_some, hcopy, Option.map_some, hshown]
                cases shown <;> cases value <;> first | rfl | exact absurd rfl heq
          | _ => cases hkind
      | _ =>
          -- A mirror of values of another kind refuses the value.
          have hother : ¬value.kind = copy.value.kind := by
            rw [hshown, hkind]
            intro h
            cases h
          refine .inl (hsame ?_)
          rw [taken, hcopy, if_neg hother]

/-- An element that is bound to nothing looks the same, or is a list that loses its items. -/
theorem leave_painted (found : w.element? e = some element)
    (bindable : element.body.bindable = true) (follower : element.follower = some y)
    (unbinds : w.fitting element.body target = none)
    (run : element.binding.forM (unfollow e y) w = .ok ((), w')) :
    (∀ canvas, w'.drawing? app e canvas = w.drawing? app e canvas) ∨
      w.Forgets element (.bind target) := by
  obtain ⟨hleft, hcopies⟩ := leave_eq_ok found rfl run
  by_cases hlist : element.body.kind = .list
  · cases hbody : element.body with
    | list s =>
        refine leave_list found hbody unbinds hleft fun hnone => ?_
        rw [hnone] at run
        exact (pure_eq_ok.mp run).2.symm
    | _ => rw [hbody] at hlist; cases hlist
  · -- The mirror has the value that it had.
    have hfound := hleft.element
    rw [found, Option.map_some] at hfound
    refine .inl (World.drawing?_congr found hfound bindable rfl ?_)
    exact World.seen_congr hlist follower (by rw [hcopies])

variable (belongs : element.window = some x) (opened : w.window? x = some window)

include belongs opened

/-- An element that has left a binding and follows another asks for a frame, or is a check box. -/
theorem follow_painted {b : BindingId} {u : World κ ρ} (found : w.element? e = some element)
    (follower : element.follower = some y) (fits : w.fitting element.body target = some b)
    (left : w.Refollows e none u) (copies : ∀ z, u.copy? z = w.copy? z)
    (run : follow e element y b u = .ok ((), w')) :
    w'.window? x = some window.asked ∨
      (∀ canvas, w'.drawing? app e canvas = w.drawing? app e canvas) ∨
      w.Forgets element (.bind target) ∧ w'.windows = w.windows := by
  obtain ⟨content, hcontent, hshape⟩ := World.exists_content_of_fitting fits
  obtain ⟨v, hjoined, htaken, hask⟩ := follow_eq_ok ((left.content b).trans hcontent) run
  have hwindows : v.windows = w.windows := hjoined.windows.trans left.windows
  cases hasks : element.body.asksOnBind with
  | true =>
      rw [hasks, if_pos rfl] at hask
      exact .inl (invalidate_asks belongs opened hwindows hask)
  | false =>
      rw [hasks, if_neg Bool.false_ne_true] at hask
      obtain ⟨-, rfl⟩ := pure_eq_ok.mp hask
      cases hbody : element.body with
      | checkbox s =>
          have hfollows := hjoined.element
          rw [left.element, found, Option.map_some, Option.map_some] at hfollows
          rw [copies] at htaken
          rcases follow_checkbox found hbody follower fits hcontent hshape hfollows htaken with
            hsame | hforgets
          · exact .inr (.inl hsame)
          · exact .inr (.inr ⟨hforgets, hwindows⟩)
      | _ => rw [hbody] at hasks; cases hasks

/-- To bind an element asks for a frame, or changes nothing that shows, or is forgotten. -/
theorem bind_painted (found : w.element? e = some element)
    (bindable : element.body.bindable = true)
    (run : bind e (w.fitting element.body target) w = .ok ((), w')) :
    w'.window? x = some window.asked ∨
      (∀ canvas, w'.drawing? app e canvas = w.drawing? app e canvas) ∨
      w.Forgets element (.bind target) ∧ w'.windows = w.windows := by
  cases hfollower : element.follower with
  | none =>
      replace run := get_bind_eq_ok.mp run
      simp only [found, hfollower] at run
      obtain ⟨-, rfl⟩ := pure_eq_ok.mp run
      exact .inr (.inl fun _ => rfl)
  | some y =>
      obtain ⟨u, hleave, hfollow⟩ := bind_follower_eq_ok found hfollower run
      obtain ⟨hleft, hcopies⟩ := leave_eq_ok found rfl hleave
      cases hfits : w.fitting element.body target with
      | none =>
          rw [hfits] at hfollow
          obtain ⟨-, rfl⟩ := pure_eq_ok.mp hfollow
          rcases leave_painted found bindable hfollower hfits hleave with hsame | hforgets
          · exact .inr (.inl hsame)
          · exact .inr (.inr ⟨hforgets, hleft.windows⟩)
      | some b =>
          rw [hfits] at hfollow
          exact follow_painted belongs opened found hfollower hfits hleft hcopies hfollow

/-- To set the value that an element shows asks for a frame. -/
theorem setValue_asks (found : w.element? e = some element) (value : Scalar ρ) :
    ∃ w', setValue e value w = .ok ((), w') ∧ w'.window? x = some window.asked := by
  have hask {u : World κ ρ} (windows : u.windows = w.windows)
      (same : u.element? e = w.element? e) :
      ∃ w', invalidateElement e u = .ok ((), w') ∧ w'.window? x = some window.asked := by
    obtain ⟨⟨⟩, w', hrun, -⟩ := invalidate_ensures element.window u
    refine ⟨w', bind_eq_ok.mpr ⟨u, u, rfl, ?_⟩, invalidate_asks belongs opened windows hrun⟩
    rw [same, found]
    exact hrun
  cases hfollower : element.follower with
  | none =>
      obtain ⟨w', hrun, hasked⟩ := hask rfl rfl
      refine ⟨w', bind_eq_ok.mpr ⟨w, w, rfl, ?_⟩, hasked⟩
      simp only [found, Option.bind_some, hfollower]
      exact hrun
  | some y =>
      obtain ⟨w', hrun, hasked⟩ :=
        hask (u := (w.modifyCopy y (·.edit value)).record (.edited y)) rfl rfl
      refine ⟨w', bind_eq_ok.mpr ⟨w, w, rfl, ?_⟩, hasked⟩
      simp only [found, Option.bind_some, hfollower]
      exact bind_eq_ok.mpr ⟨(), _, rfl, hrun⟩

/-- A change of what an element shows asks for a frame, unless the element does not know it. -/
theorem performChange_painted {change : Change} (found : w.element? e = some element)
    (shows : change.shows = true) :
    ∃ answer w', performChange app e element change w = .ok (.done answer, w') ∧
      (w'.window? x = some window.asked ∨ w' = w) := by
  have hconfigure : element.body.configure? change = none := by
    cases change with
    | setText _ | setFlag _ | setValue _ | setLabel _ | setIcon _ => cases element.body <;> rfl
    | _ => exact absurd shows Bool.false_ne_true
  cases change with
  | setText _ | setFlag _ | setValue _ | setLabel _ | setIcon _ =>
      -- None of these changes is one of the settings, or is treated apart.
      dsimp only [performChange]
      rw [hconfigure]
      cases element.body.edit? _ with
      | some value =>
          obtain ⟨w', hrun, hasked⟩ := setValue_asks belongs opened found value
          exact ⟨.done, w', bind_eq_ok.mpr ⟨(), w', hrun, rfl⟩, .inl hasked⟩
      | none =>
          cases element.body.restyle? _ with
          | some body =>
              have hwindows :
                  (w.modifyElement e ({ · with body := body })).windows = w.windows := rfl
              obtain ⟨⟨⟩, w', hrun, -⟩ := invalidate_ensures element.window
                (w.modifyElement e ({ · with body := body }))
              exact ⟨.done, w', bind_eq_ok.mpr ⟨(), _, rfl, bind_eq_ok.mpr ⟨(), w', hrun, rfl⟩⟩,
                .inl (invalidate_asks belongs opened hwindows hrun)⟩
          | none => exact ⟨.unsupported, w, rfl, .inr rfl⟩
  | _ => exact absurd shows Bool.false_ne_true

/-- A call that changes what an element draws asks the window of the element for a frame, unless it
is one of those that forget to. -/
theorem perform_painted (app : App κ ρ) (call : Call κ BindingId)
    (found : w.element? e = some element) (shows : call.shows = true) :
    ∃ answer w', perform app e call w = .ok (.done answer, w') ∧
      (w'.window? x = some window.asked ∨
        (∀ canvas, w'.drawing? app e canvas = w.drawing? app e canvas) ∨
        w.Forgets element call ∧ w'.windows = w.windows) := by
  cases call with
  | change change =>
      obtain ⟨answer, w', hrun, hpainted⟩ : ∃ answer w',
          performChange app e element change w = .ok (.done answer, w') ∧
            (w'.window? x = some window.asked ∨ w' = w) :=
        performChange_painted belongs opened found shows
      refine ⟨answer, w', bind_eq_ok.mpr ⟨w, w, rfl, ?_⟩, ?_⟩
      · simp only [found]
        exact hrun
      · rcases hpainted with hasked | rfl
        · exact .inl hasked
        · exact .inr (.inl fun _ => rfl)
  | bind target =>
      cases hbindable : element.body.bindable with
      | false =>
          refine ⟨.unsupported, w, bind_eq_ok.mpr ⟨w, w, rfl, ?_⟩, .inr (.inl fun _ => rfl)⟩
          simp only [found, hbindable]
          rfl
      | true =>
          obtain ⟨⟨⟩, w', hrun, -⟩ := bind_ensures e (w.fitting element.body target) w
          refine ⟨.done, w', bind_eq_ok.mpr ⟨w, w, rfl, ?_⟩,
            bind_painted belongs opened found hbindable hrun⟩
          simp only [found, hbindable]
          exact bind_eq_ok.mpr ⟨(), w', hrun, rfl⟩
  | renderer code | handler code => exact absurd shows Bool.false_ne_true

end Machine

/-! ## A check box that is bound -/

/-- A check box that is not ticked, and a binding by which it should be. -/
def World.unticked : World Unit Empty where
  bindings := #[{ name := "done", content := .one (.flag true) }]
  watchers := #[{
    watcher := .mirror { value := .flag false, window := some ⟨0⟩ }, owner := some ⟨0⟩ }]
  elements := #[{
    id := "box", window := some ⟨0⟩, body := .checkbox { label := "Done" }, follower := some ⟨0⟩ }]
  windows := #[{ title := "Window" }]

/-- The check box is ticked by the binding, and nobody asks for a frame to show that. -/
theorem Machine.perform_painted_unticked :
    ∃ answer w', perform App.idle ⟨0⟩ (.bind (some ⟨0⟩)) World.unticked = .ok (.done answer, w') ∧
      (w'.copy? ⟨0⟩).map (·.value) = some (.flag true) ∧
      (w'.window? ⟨0⟩).map (·.requested) = some false ∧
      ((∀ canvas, w'.drawing? App.idle ⟨0⟩ canvas =
          World.unticked.drawing? App.idle ⟨0⟩ canvas) ∨
        ∃ element, World.unticked.element? ⟨0⟩ = some element ∧
          World.unticked.Forgets element (.bind (some ⟨0⟩))) := by
  obtain ⟨answer, w', hrun, hpainted⟩ :=
    perform_painted (w := World.unticked) (e := ⟨0⟩) (x := ⟨0⟩) rfl rfl App.idle
      (.bind (some ⟨0⟩)) rfl rfl
  have hshown : (perform App.idle ⟨0⟩ (.bind (some ⟨0⟩)) World.unticked).toOption.map (fun p =>
      ((p.2.copy? ⟨0⟩).map (·.value), (p.2.window? ⟨0⟩).map (·.requested))) =
        some (some (.flag true), some false) := rfl
  rw [hrun] at hshown
  obtain ⟨hvalue, hquiet⟩ := Prod.mk.inj (Option.some.inj hshown)
  refine ⟨answer, w', hrun, hvalue, hquiet, ?_⟩
  rcases hpainted with hasked | hsame | ⟨hforgets, -⟩
  · rw [hasked] at hquiet
    cases hquiet
  · exact .inl hsame
  · exact .inr ⟨_, rfl, hforgets⟩

end Trellis
