import Trellis.Proofs.Definition.Flaws
import Trellis.Proofs.Machine.Respects
import Trellis.Proofs.World.Held

/-!
# Making one element

The steps of building: an element is made next to those that are there, and takes a child.

* `World.form?` — the id and the body of an element.
* `World.Rewired` — no form has changed; `Machine.bind_ensures` says so of following a binding.
* `World.Made` — a form has been added; `Machine.create_run` says so of creating.
* `Build.Yields` — a part of building ends with the first of some faults, or without them as stated;
  `Build.element_yields` and `Build.attachChild_yields` say so of the two steps.
-/

namespace Trellis

variable {κ ρ : Type}

namespace World

/-- The id and the body of an element. -/
def form? (w : World κ ρ) (e : ElementId) : Option (String × Body κ) :=
  (w.element? e).map fun el => (el.id, el.body)

/-- Elements may follow other bindings, and windows may have been asked for frames. -/
structure Rewired (w w' : World κ ρ) : Prop where
  size : w'.elements.size = w.elements.size
  form : ∀ e, w'.form? e = w.form? e
  roots : w'.roots = w.roots

/-- An element of the given form has been added. -/
structure Made (form : String × Body κ) (w w' : World κ ρ) : Prop where
  size : w'.elements.size = w.elements.size + 1
  new : w'.form? ⟨w.elements.size⟩ = some form
  others : ∀ e : ElementId, e.index ≠ w.elements.size → w'.form? e = w.form? e
  roots : w'.roots = w.roots

variable {w w' w'' : World κ ρ}

instance : IsPreorder (World κ ρ) Rewired where
  refl _ := ⟨rfl, fun _ => rfl, rfl⟩
  trans _ _ _ h h' :=
    ⟨h'.size.trans h.size, fun e => (h'.form e).trans (h.form e), h'.roots.trans h.roots⟩

theorem form?_modifyElement (w : World κ ρ) (e d : ElementId) (f : Element κ → Element κ) :
    (w.modifyElement e f).form? d =
      if e = d then (w.element? d).map fun el => ((f el).id, (f el).body) else w.form? d := by
  rw [form?, element?_modifyElement]
  split
  · rw [Option.map_map]
    rfl
  · rfl

/-- A change of an element that keeps its form. -/
theorem Rewired.modifyElement (w : World κ ρ) (e : ElementId) {f : Element κ → Element κ}
    (form : ∀ el, ((f el).id, (f el).body) = (el.id, el.body)) :
    Rewired w (w.modifyElement e f) where
  size := Array.size_modify
  form := by
    intro d
    rw [form?_modifyElement]
    split
    · simp only [form, form?]
    · rfl
  roots := rfl

/-- An element is added after those that are there. -/
theorem Made.push (w : World κ ρ) (el : Element κ) :
    Made (el.id, el.body) w
      { w with madeUp := w.madeUp + 1, elements := w.elements.push el } := by
  refine ⟨Array.size_push _, ?_, fun e he => ?_, rfl⟩
  · show ((w.elements.push el)[w.elements.size]?).map _ = _
    rw [Array.getElem?_push_size]
    rfl
  · show ((w.elements.push el)[e.index]?).map _ = _
    rw [Array.getElem?_push, if_neg he]
    rfl

theorem Made.rewired {form : String × Body κ} (h : Made form w w') (h' : Rewired w' w'') :
    Made form w w'' where
  size := h'.size.trans h.size
  new := (h'.form _).trans h.new
  others := fun e he => (h'.form e).trans (h.others e he)
  roots := h'.roots.trans h.roots

/-- A watcher is added for an element to follow bindings with. -/
theorem Made.adopt {form : String × Body κ} (h : Made form w w') (e : ElementId)
    (watcher : Watcher κ ρ) :
    let adopted := w'.addWatcher { watcher, owner := some e }
    Made form w (adopted.2.modifyElement e fun el => { el with follower := some adopted.1 }) := by
  intro adopted
  have hadd : w'.Rewired adopted.2 := ⟨rfl, fun _ => rfl, rfl⟩
  refine (h.rewired hadd).rewired ?_
  exact .modifyElement _ _ fun _ => rfl

theorem Made.setId {id own : String} {body : Body κ} (h : Made (id, body) w w')
    (nonempty : own.isEmpty = false) : Made (own, body) w (w'.setId ⟨w.elements.size⟩ own) := by
  have hset : w'.setId ⟨w.elements.size⟩ own =
      w'.modifyElement ⟨w.elements.size⟩ ({ · with id := own }) := by
    rw [World.setId, nonempty]
    rfl
  obtain ⟨el, hel, hform⟩ := Option.map_eq_some_iff.mp h.new
  cases hform
  rw [hset]
  refine ⟨Array.size_modify.trans h.size, ?_, fun e he => ?_, h.roots⟩
  · rw [form?_modifyElement, if_pos rfl, hel]
    rfl
  · have hne : (⟨w.elements.size⟩ : ElementId) ≠ e := by
      rintro rfl
      exact he rfl
    rw [form?_modifyElement, if_neg hne]
    exact h.others e he

end World

namespace Machine

/-! ## Following a binding -/

theorem invalidate_ensures (window : Option WindowId) :
    Ensures World.Rewired (invalidate window : Machine κ ρ Unit) := by
  refine .forM_option window fun x => .modify fun w => ⟨rfl, fun _ => rfl, ?_⟩
  exact World.roots_modifyWindow w x fun _ => rfl

theorem watch_ensures (x : WatcherId) (b : BindingId) :
    Ensures World.Rewired (watch x b : Machine κ ρ Unit) := by
  refine .modify fun w => ?_
  split
  · exact ⟨rfl, fun _ => rfl, rfl⟩
  · exact refl_of World.Rewired w

theorem unwatch_ensures (x : WatcherId) (b : BindingId) :
    Ensures World.Rewired (unwatch x b : Machine κ ρ Unit) :=
  .modify fun _ => ⟨rfl, fun _ => rfl, rfl⟩

theorem takeOver_ensures (x : WatcherId) (b : BindingId) :
    Ensures World.Rewired (takeOver x b : Machine κ ρ Unit) := by
  refine .bind .get fun w => ?_
  cases w.binding? b with
  | none => exact .pure ()
  | some binding => exact .modify fun v => ⟨rfl, fun _ => rfl, rfl⟩

theorem unfollow_ensures (e : ElementId) (x : WatcherId) (b : BindingId) :
    Ensures World.Rewired (unfollow e x b : Machine κ ρ Unit) :=
  .bind (.modify fun w => .modifyElement w e fun _ => rfl) fun _ => unwatch_ensures x b

theorem follow_ensures (e : ElementId) (element : Element κ) (x : WatcherId) (b : BindingId) :
    Ensures World.Rewired (follow e element x b : Machine κ ρ Unit) := by
  refine .bind (.bind (watch_ensures x b) fun _ => takeOver_ensures x b) fun _ => ?_
  refine .bind (.modify fun w => .modifyElement w e fun _ => rfl) fun _ => ?_
  cases element.body.asksOnBind with
  | true => exact invalidate_ensures element.window
  | false => exact .pure ()

/-- Following another binding ends, and keeps all forms. -/
theorem bind_ensures (e : ElementId) (target : Option BindingId) :
    Ensures World.Rewired (Machine.bind e target : Machine κ ρ Unit) := by
  refine Ensures.bind .get fun w => ?_
  split
  · split
    · refine .bind (.forM_option _ fun b => unfollow_ensures e _ b) fun _ => ?_
      exact .forM_option _ fun b => follow_ensures e _ _ b
    · exact Ensures.pure ()
  · exact Ensures.pure ()

/-! ## Creating an element -/

/-- The last part of creating, which follows the first binding. -/
theorem bind_first_run (e : ElementId) (target : Option BindingId) (w : World κ ρ) :
    ∃ w', (do
      if target.isSome then Machine.bind e target
      pure e : Machine κ ρ ElementId) w = .ok (e, w') ∧ w.Rewired w' := by
  cases target.isSome with
  | false => exact ⟨w, rfl, refl_of World.Rewired w⟩
  | true =>
      obtain ⟨u, w', hrun, hw'⟩ := bind_ensures e target w
      exact ⟨w', bind_eq_ok.mpr ⟨u, w', hrun, rfl⟩, hw'⟩

/-- Creating adds an element of the plan's body. -/
theorem create_run (window : Option WindowId) (plan : Blueprint κ ρ) (w : World κ ρ) :
    ∃ id w', create window plan w = .ok (⟨w.elements.size⟩, w') ∧
      w.Made (id, plan.body) w' := by
  have hpush := World.Made.push w { id := World.idText w.madeUp, window, body := plan.body }
  cases hfollower : plan.follower with
  | none =>
      obtain ⟨w', hrun, hw'⟩ := bind_first_run ⟨w.elements.size⟩ plan.binding _
      refine ⟨_, w', ?_, hpush.rewired hw'⟩
      rw [← hrun, create, hfollower]
      rfl
  | some follower =>
      -- the follower is split here for the code to compute its watcher
      cases follower with
      | none =>
          obtain ⟨w', hrun, hw'⟩ := bind_first_run ⟨w.elements.size⟩ plan.binding _
          refine ⟨_, w', ?_, (hpush.adopt ⟨w.elements.size⟩ (.invalidator window)).rewired hw'⟩
          rw [← hrun, create, hfollower]
          rfl
      | some value =>
          obtain ⟨w', hrun, hw'⟩ := bind_first_run ⟨w.elements.size⟩ plan.binding _
          refine ⟨_, w', ?_, (hpush.adopt ⟨w.elements.size⟩ (.mirror { value, window })).rewired hw'⟩
          rw [← hrun, create, hfollower]
          rfl

end Machine

namespace Build

variable {ctx : BuildContext κ ρ} {path : Path} {n : Node} {α β : Type}

/-! ## Runs of building -/

/-- A part of building ends from a state. The first of the faults is what it ends with; where there
are none, its answer and the state it leaves are as stated. -/
def Yields (m : Build κ ρ α) (w : World κ ρ) (post : α → World κ ρ → Prop) :
    List BuildError → Prop
  | e :: _ => ∃ w', m w = .ok (.error e, w')
  | [] => ∃ a w', m w = .ok (.ok a, w') ∧ post a w'

theorem bind_of_ok {m : Build κ ρ α} {f : α → Build κ ρ β} {w v : World κ ρ} {a : α}
    (h : m w = .ok (.ok a, v)) : (m >>= f) w = f a v := by
  show Except.bind (m w) _ = _
  rw [h]
  rfl

theorem bind_of_error {m : Build κ ρ α} {f : α → Build κ ρ β} {w v : World κ ρ} {e : BuildError}
    (h : m w = .ok (.error e, v)) : (m >>= f) w = .ok (.error e, v) := by
  show Except.bind (m w) _ = _
  rw [h]
  rfl

/-- The faults of the second part come after those of the first. -/
theorem Yields.bind {m : Build κ ρ α} {f : α → Build κ ρ β} {w : World κ ρ}
    {post : α → World κ ρ → Prop} {post' : β → World κ ρ → Prop} {faults later : List BuildError}
    (h : m.Yields w post faults) (h' : ∀ a v, post a v → (f a).Yields v post' later) :
    (m >>= f).Yields w post' (faults ++ later) := by
  cases faults with
  | cons e rest =>
      obtain ⟨w', hrun⟩ := h
      exact ⟨w', bind_of_error hrun⟩
  | nil =>
      obtain ⟨a, v, hrun, hpost⟩ := h
      have hrest := h' a v hpost
      rw [List.nil_append]
      cases later with
      | cons e rest =>
          obtain ⟨w', hrun'⟩ := hrest
          exact ⟨w', (bind_of_ok hrun).trans hrun'⟩
      | nil =>
          obtain ⟨b, w', hrun', hpost'⟩ := hrest
          exact ⟨b, w', (bind_of_ok hrun).trans hrun', hpost'⟩

theorem Yields.mono {m : Build κ ρ α} {w : World κ ρ} {post post' : α → World κ ρ → Prop}
    {faults : List BuildError} (h : m.Yields w post faults) (sub : ∀ a v, post a v → post' a v) :
    m.Yields w post' faults := by
  cases faults with
  | cons e rest => exact h
  | nil =>
      obtain ⟨a, w', hrun, hpost⟩ := h
      exact ⟨a, w', hrun, sub a w' hpost⟩

/-! ## The two steps -/

/-- What is made of a node is told by its plan. -/
theorem element_eq : element ctx path n =
    (match planOf ctx path n with
    | .error e => throw e
    | .ok (type, plan) => do
      let e ← Machine.create ctx.window plan
      if let some id := idOf n then
        modifyThe (World κ ρ) (·.setId e id)
      pure (type, e)) := by
  unfold element instantiate planOf
  cases n.text? "type" with
  | none => rfl
  | some type =>
      dsimp only
      cases ctx.registry.find? type with
      | none => rfl
      | some make =>
          dsimp only
          cases make ctx.lookup n <;> rfl

/-- The element of a node has the id of that, if it has one. -/
theorem element_of_ok {type : String} {plan : Blueprint κ ρ}
    (h : planOf ctx path n = .ok (type, plan)) (w : World κ ρ) :
    ∃ id w', element ctx path n w = .ok (.ok (type, ⟨w.elements.size⟩), w') ∧
      w.Made (id, plan.body) w' ∧ ∀ own, idOf n = some own → id = own := by
  obtain ⟨id, w', hcreate, hmade⟩ := Machine.create_run ctx.window plan w
  have hlift : (Machine.create ctx.window plan : Build κ ρ ElementId) w =
      .ok (.ok ⟨w.elements.size⟩, w') := by
    show Except.bind (Machine.create ctx.window plan w) _ = _
    rw [hcreate]
    rfl
  rw [element_eq, h]
  cases hid : idOf n with
  | none => exact ⟨id, w', bind_of_ok hlift, hmade, fun own hown => by cases hown⟩
  | some own =>
      have hnonempty : own.isEmpty = false := by
        simpa using (Option.filter_eq_some_iff.mp hid).2
      refine ⟨own, _, ?_, hmade.setId hnonempty, fun other hother => Option.some.inj hother⟩
      exact bind_of_ok hlift

/-- An element is made of a node unless that is unfit. It comes after those that are there. -/
theorem element_yields (w : World κ ρ) :
    (element ctx path n).Yields w (fun made w' => ∃ plan id,
      planOf ctx path n = .ok (made.1, plan) ∧ made.2 = ⟨w.elements.size⟩ ∧
      w.Made (id, plan.body) w' ∧ ∀ own, idOf n = some own → id = own)
      (unfit? ctx path n).toList := by
  unfold unfit?
  cases hplan : planOf ctx path n with
  | error e => exact ⟨w, by rw [element_eq, hplan]; rfl⟩
  | ok made =>
      obtain ⟨type, plan⟩ := made
      obtain ⟨id, w', hrun, hmade, hid⟩ := element_of_ok hplan w
      exact ⟨(type, ⟨w.elements.size⟩), w', hrun, plan, id, rfl, rfl, hmade, hid⟩

theorem attachChild_run {type id : String} {parent child : ElementId} {weight : Option Float}
    {w : World κ ρ} {body : Body κ} (h : w.form? parent = some (id, body)) :
    attachChild type path parent child weight w =
      match body.addChild child (w.offer child weight) with
      | .ok body' => .ok (.ok (), w.modifyElement parent ({ · with body := body' }))
      | .error refusal => .ok (.error (.childRejected type path refusal.message), w) := by
  obtain ⟨el, hel, hform⟩ := Option.map_eq_some_iff.mp h
  cases hform
  have hget : (getThe (World κ ρ) : Build κ ρ (World κ ρ)) w = .ok (.ok w, w) := rfl
  rw [attachChild, bind_of_ok hget, hel]
  show (match el.body.addChild child (w.offer child weight) with
    | .ok body => _
    | .error refusal => _ : Build κ ρ Unit) w = _
  cases el.body.addChild child (w.offer child weight) <;> rfl

/-- A parent takes a child unless its body refuses. -/
theorem attachChild_yields {type id : String} {parent child : ElementId} {weight : Option Float}
    {w : World κ ρ} {body : Body κ} (h : w.form? parent = some (id, body)) :
    (attachChild type path parent child weight).Yields w (fun _ w' => ∃ body',
      body.addChild child (w.offer child weight) = .ok body' ∧
      w'.elements.size = w.elements.size ∧ w'.form? parent = some (id, body') ∧
      (∀ e, e ≠ parent → w'.form? e = w.form? e) ∧ w'.roots = w.roots)
      ((body.refusal? [] (w.offer child weight)).map fun refusal =>
        .childRejected type path refusal.message).toList := by
  cases hadd : body.addChild child (w.offer child weight) with
  | error refusal =>
      rw [Body.addChild_eq_error.mp hadd]
      refine ⟨w, ?_⟩
      rw [attachChild_run h, hadd]
  | ok body' =>
      rw [Body.refusal?_nil hadd]
      refine ⟨(), w.modifyElement parent ({ · with body := body' }), ?_, body', rfl,
        Array.size_modify, ?_, ?_, rfl⟩
      · rw [attachChild_run h, hadd]
      · obtain ⟨el, hel, hform⟩ := Option.map_eq_some_iff.mp h
        cases hform
        rw [World.form?_modifyElement, if_pos rfl, hel]
        rfl
      · intro e he
        rw [World.form?_modifyElement, if_neg he.symm]

end Build

end Trellis
