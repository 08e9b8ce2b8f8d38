import Trellis.Proofs.Frame.Acts
import Trellis.Proofs.Host.Calls
import Trellis.Proofs.Host.Undisturbed

/-!
# Frames are sequences of acts

What elements do with events, and with them a whole frame, comes out as the steps of its acts do. A
part of a frame and the acts that stand for it are told side by side.

* `World.Fitted` — callbacks leave elements their followers and windows.
* `Plans` — a part of a frame does what some acts do.
* `Machine.frame_course` — a frame that shows a view does the acts of the view, and then draws it.
-/

namespace Trellis

variable {κ ρ : Type}

open Machine

variable [Ordered ρ] {app : App κ ρ} {ctx : EventContext} {x : WindowId} {w w' v : World κ ρ}

/-! ## What callbacks leave of elements -/

/-- Every element has the follower and the window that it had. -/
def World.Fitted (w w' : World κ ρ) : Prop :=
  ∀ e, (w'.element? e).map (fun el => (el.follower, el.window)) =
    (w.element? e).map fun el => (el.follower, el.window)

namespace World.Fitted

omit [Ordered ρ] in
theorem follower (h : w.Fitted w') (e : ElementId) :
    (w'.element? e).bind (·.follower) = (w.element? e).bind (·.follower) := by
  have he := congrArg (·.bind (·.1)) (h e)
  rwa [Option.bind_map, Option.bind_map] at he

omit [Ordered ρ] in
theorem window (h : w.Fitted w') (e : ElementId) :
    (w'.element? e).bind (·.window) = (w.element? e).bind (·.window) := by
  have he := congrArg (·.bind (·.2)) (h e)
  rwa [Option.bind_map, Option.bind_map] at he

instance : IsPreorder (World κ ρ) Fitted where
  refl _ _ := rfl
  trans _ _ _ h h' e := (h' e).trans (h e)

instance : Liberal (Fitted (κ := κ) (ρ := ρ)) where
  bindings _ _ _ := rfl
  watchers _ _ _ := rfl
  awaiting _ _ _ := rfl
  scope _ _ _ := rfl
  madeUp _ _ _ := rfl
  trail _ _ _ := rfl
  refitted w e f hf d := by
    show ((w.elements.modify e.index f)[d.index]?).map _ = _
    rw [Array.getElem?_modify]
    split
    · next hindex =>
        rw [Option.map_map]
        refine Option.map_congr fun el hel => ?_
        obtain ⟨hfollower, hwindow⟩ := hf el (by rwa [World.element?, hindex])
        rw [Function.comp_apply, hfollower, hwindow]
    · rfl
  event _ _ _ := rfl
  asked _ _ _ := rfl
  handed _ _ _ _ := rfl

end World.Fitted

/-! ## What elements do is a sequence of steps -/

namespace Program

variable {α β : Type} {r : Reentry κ ρ}

/-- One program after another is run as one run after another. -/
theorem run_bind (p : Program κ ρ α) (f : α → Program κ ρ β) :
    (p.bind f).run r = p.run r >>= fun a => (f a).run r := by
  induction p with
  | done answer => rfl
  | _ => simp only [Program.bind, Program.run, bind_assoc, *]

theorem run_acceptFrom (allowed : List Char → Program κ ρ (List Char)) (multiLine : Bool)
    (maxLength : Nat) (taken edited : List Char) :
    (acceptFrom allowed multiLine maxLength taken edited).run r =
      acceptFrom (fun taken => (allowed taken).run r) multiLine maxLength taken edited := by
  induction edited generalizing taken with
  | nil => rfl
  | cons c rest ih =>
      rw [acceptFrom, acceptFrom]
      split
      · rfl
      · split
        · exact ih taken
        · refine (run_bind _ _).trans (bind_congr fun filter => ?_)
          split
          · exact ih _
          · exact ih _

/-- Showing a value through the follower of an element, and asking the window of the element for a
frame. -/
theorem run_showing {e : ElementId} {value : Scalar ρ} (run : setValue e value w = .ok ((), w')) :
    (showing ((w.element? e).bind (·.follower)) ((w.element? e).bind (·.window)) value).run r w =
      .ok ((), w') := by
  replace run := get_bind_eq_ok.mp run
  have hask {v : World κ ρ} {window : Option WindowId}
      (h : Machine.invalidate window v = .ok ((), w')) :
      (asking window).run r v = .ok ((), w') := by
    cases window with
    | none => exact h
    | some x => exact bind_eq_ok.mpr ⟨(), w', h, rfl⟩
  cases hfollower : (w.element? e).bind (·.follower) with
  | none =>
      rw [hfollower] at run
      exact hask run
  | some y =>
      rw [hfollower] at run
      obtain ⟨_, v, hedit, hinvalidate⟩ := bind_eq_ok.mp run
      refine bind_eq_ok.mpr ⟨(), v, hedit, hask ?_⟩
      rw [← (editMirror_respects y value hedit : w.Fitted v).window e]
      exact hinvalidate

/-- Entering a text through the follower that the element has. -/
theorem run_entering {fuel : Nat} {e : ElementId} {id : String} {input : Input κ} {edited : String}
    (run : enterText app (.ofFuel app fuel) ctx e id input edited w = .ok ((), w')) :
    (entering app ctx id input ((w.element? e).bind (·.follower)) ((w.element? e).bind (·.window))
      edited).run (.ofFuel app fuel) w = .ok ((), w') := by
  obtain ⟨taken, v, htake, hset⟩ := bind_eq_ok.mp run
  have hfitted : w.Fitted v := by
    refine acceptFrom_respects (fun taken => ?_) _ _ _ _ htake
    exact .bind (Program.run_respects (Reentry.ofFuel_respects app fuel) _) fun _ => .pure _
  have hrun := run_showing (r := .ofFuel app fuel) hset
  rw [hfitted.follower, hfitted.window] at hrun
  rw [entering, run_bind]
  refine bind_eq_ok.mpr ⟨taken, v, ?_, hrun⟩
  rw [accept, run_acceptFrom]
  simp only [run_bind]
  exact htake

end Program

namespace Leads

variable {fuel : Nat} {e : ElementId}

theorem run {program : Program κ ρ Unit} (h : program.run (.ofFuel app fuel) w = .ok ((), w')) :
    Leads app ctx x [.run program] w w' :=
  of_reaches ((Reentry.ofFuel_faithful app fuel).run h [])

theorem task {task : Task κ} (h : (Reentry.ofFuel app fuel).task task w = .ok ((), w')) :
    Leads app ctx x [.duty (.task task)] w w' :=
  of_reaches ((Reentry.ofFuel_faithful app fuel).task h [])

/-- Parts one after another. -/
theorem each {α : Type} {part : α → Machine κ ρ Unit} {acts : α → List (Act κ ρ)}
    (h : ∀ a ⦃w w'⦄, part a w = .ok ((), w') → Leads app ctx x (acts a) w w') {as : List α}
    (run : as.forM part w = .ok ((), w')) : Leads app ctx x (as.flatMap acts) w w' := by
  induction as generalizing w with
  | nil => exact of_pure run
  | cons a as ih =>
      obtain ⟨_, v, hfirst, hlater⟩ := bind_eq_ok.mp run
      exact append (h a hfirst) (ih hlater)

/-- Callbacks one after another. -/
theorem runs {α : Type} {f : α → Program κ ρ Unit} {as : List α}
    (h : as.forM (fun a => (f a).run (.ofFuel app fuel)) w = .ok ((), w')) :
    Leads app ctx x (as.map fun a => .run (f a)) w w' := by
  rw [List.map_eq_flatMap]
  exact each (fun _ _ _ => run) h

theorem report (h : Machine.report (.ofFuel app fuel) e w = .ok ((), w')) :
    Leads app ctx x [.report e] w w' := by
  replace h := get_bind_eq_ok.mp h
  suffices hduties : ∃ duties v, reportActs e w = .ok (duties, v) ∧
      Reaches app ⟨duties, v⟩ ⟨[], w'⟩ by
    obtain ⟨duties, v, hduties, hreach⟩ := hduties
    exact step (bind_eq_ok.mpr ⟨duties, v, hduties, rfl⟩) (of_reaches hreach)
  -- Nothing is reported unless there is an element that follows a binding.
  have hidle (h : (pure () : Machine κ ρ Unit) w = .ok ((), w'))
      (hnone : reportActs e w = .ok ([], w)) :
      ∃ duties v, reportActs e w = .ok (duties, v) ∧ Reaches app ⟨duties, v⟩ ⟨[], w'⟩ := by
    obtain ⟨-, rfl⟩ := pure_eq_ok.mp h
    exact ⟨[], w, hnone, .refl⟩
  cases helement : w.element? e with
  | none =>
      rw [helement] at h
      refine hidle h (bind_eq_ok.mpr ⟨w, w, rfl, ?_⟩)
      rw [helement]
      rfl
  | some element =>
      rw [helement] at h
      dsimp only at h
      cases hfollower : element.follower with
      | none =>
          rw [hfollower] at h
          refine hidle h (bind_eq_ok.mpr ⟨w, w, rfl, ?_⟩)
          simp only [helement, hfollower]
          rfl
      | some y =>
          cases hbinding : element.binding with
          | none =>
              rw [hfollower, hbinding] at h
              refine hidle h (bind_eq_ok.mpr ⟨w, w, rfl, ?_⟩)
              simp only [helement, hfollower, hbinding]
              rfl
          | some b =>
              rw [hfollower, hbinding] at h
              obtain ⟨changed, v, hwrite, h⟩ := bind_eq_ok.mp h
              obtain ⟨-, rfl⟩ := pure_eq_ok.mp h
              obtain ⟨rounds, u, hassign, hreach⟩ :=
                (Reentry.ofFuel_faithful app fuel).writeBack hwrite
              have hreach := hreach []
              rw [List.append_nil] at hreach
              refine ⟨rounds, u, bind_eq_ok.mpr ⟨w, w, rfl, ?_⟩, hreach⟩
              simp only [helement, hfollower, hbinding]
              exact bind_eq_ok.mpr ⟨_, u, hassign, rfl⟩

theorem enter {id : String} {input : Input κ} {edited : String}
    (h : enterText app (.ofFuel app fuel) ctx e id input edited w = .ok ((), w')) :
    Leads app ctx x [.enter e id input edited] w w' := by
  exact step (bind_eq_ok.mpr ⟨w, w, rfl, rfl⟩) (run (Program.run_entering h))

end Leads

/-- A part of a frame does what another part does, and then the acts that this one answers. -/
def Plans (app : App κ ρ) (ctx : EventContext) (x : WindowId) (plan : Machine κ ρ (List (Act κ ρ)))
    (part : Machine κ ρ Unit) : Prop :=
  ∀ ⦃w w'⦄, part w = .ok ((), w') →
    ∃ acts v, plan w = .ok (acts, v) ∧ Leads app ctx x acts v w'

namespace Plans

variable {fuel : Nat} {e : ElementId} {element : Element κ} {part : Machine κ ρ Unit}

theorem pure {acts : List (Act κ ρ)}
    (h : ∀ ⦃w w'⦄, part w = .ok ((), w') → Leads app ctx x acts w w') :
    Plans app ctx x (Pure.pure acts) part :=
  fun w _ run => ⟨acts, w, rfl, h run⟩

theorem done : Plans app ctx x (Pure.pure []) (Pure.pure ()) := by
  exact pure fun _ _ run => .of_pure run

/-- Both begin with the same. -/
theorem bind {α : Type} {first : Machine κ ρ α} {plan : α → Machine κ ρ (List (Act κ ρ))}
    {part : α → Machine κ ρ Unit} (h : ∀ a, Plans app ctx x (plan a) (part a)) :
    Plans app ctx x (first >>= plan) (first >>= part) := by
  intro w w' run
  obtain ⟨a, v, hfirst, hrest⟩ := bind_eq_ok.mp run
  obtain ⟨acts, u, hplan, hleads⟩ := h a hrest
  exact ⟨acts, u, bind_eq_ok.mpr ⟨a, v, hfirst, hplan⟩, hleads⟩

theorem handlers (id : String) (codes : List κ) :
    Plans app ctx x (Pure.pure (codes.map fun code => Act.run (app.handler code ctx id)))
      (runHandlers app (.ofFuel app fuel) ctx id codes) :=
  pure fun _ _ run => .runs run

theorem reporting {calls : List (Act κ ρ)} (h : Plans app ctx x (Pure.pure calls) part) :
    Plans app ctx x (Pure.pure (.report e :: calls))
      (do report (.ofFuel app fuel) e; part) := by
  refine pure fun w w' run => ?_
  obtain ⟨_, v, hreport, hpart⟩ := bind_eq_ok.mp run
  obtain ⟨acts, u, hplan, hleads⟩ := h hpart
  obtain ⟨rfl, rfl⟩ := pure_eq_ok.mp hplan
  exact .cons (.report hreport) hleads

theorem pointer (handlers : PointerHandlers κ) (before : PointerState) :
    Plans app ctx x (pointerActs app ctx e element handlers before)
      (handlePointer app (.ofFuel app fuel) ctx e element handlers before) := by
  unfold pointerActs handlePointer react
  generalize before.apply (ctx.phases element.id) = after
  obtain ⟨now, clicks⟩ := after
  have hcalls : Plans app ctx x (Pure.pure (((handlers.due before now clicks).map (·.2)).map
      fun code => Act.run (app.handler code ctx element.id)))
      (runHandlers app (.ofFuel app fuel) ctx element.id
        ((handlers.due before now clicks).map (·.2))) := .handlers element.id _
  refine .bind fun _ => ?_
  cases element.body with
  | checkbox s =>
      dsimp only
      split
      · rw [bind_assoc]
        refine .bind fun value => ?_
        cases value with
        | none => exact .reporting hcalls
        | some value =>
            cases value with
            | flag =>
                rw [bind_assoc]
                exact .bind fun _ => .reporting hcalls
            | _ => exact .reporting hcalls
      · exact .reporting hcalls
  | _ =>
      dsimp only
      split
      · exact .bind fun _ => hcalls
      · exact hcalls

theorem input (id : String) (input : Input κ) :
    Plans app ctx x (Pure.pure (inputActs app ctx e id input))
      (handleInput app (.ofFuel app fuel) ctx e id input) := by
  refine pure fun w w' run => ?_
  obtain ⟨_, v, htexts, run⟩ := bind_eq_ok.mp run
  obtain ⟨_, u, hreport, hcalls⟩ := bind_eq_ok.mp run
  refine .append (.each (fun event v v' run => ?_) htexts) (.cons (.report hreport) (.runs hcalls))
  cases event with
  | text text =>
      rw [takeEvent] at run
      dsimp only
      split at run
      · next h => rw [if_pos h]; exact .of_pure run
      · next h => rw [if_neg h]; exact .enter run
  | _ => exact .of_pure run

theorem slider (id : String) :
    Plans app ctx x (sliderActs ctx e id) (handleSlider (.ofFuel app fuel) ctx e id) := by
  have hreport : Plans app ctx x (Pure.pure [.report e]) (report (.ofFuel app fuel) e) :=
    pure fun _ _ run => .report run
  unfold sliderActs handleSlider
  dsimp only
  cases List.getLast? _ with
  | none => exact hreport
  | some value => exact .bind fun _ => hreport

theorem items (list : ItemList κ) :
    Plans app ctx x (itemActs app ctx element list)
      (handleItems app (.ofFuel app fuel) ctx element list) := by
  unfold itemActs handleItems
  cases element.binding with
  | none => exact done
  | some b =>
      cases list.handler with
      | none => exact done
      | some code => exact .bind fun w => pure fun _ _ run => .runs run

theorem leaf : Plans app ctx x (leafActs app ctx e element)
    (handleLeaf app (.ofFuel app fuel) ctx e element) := by
  unfold leafActs handleLeaf
  cases element.body with
  | button | checkbox | iconButton => exact pointer _ _
  | input => exact input _ _
  | slider => exact slider _
  | label | progressBar => exact pure fun _ _ run => .report run
  | list => exact items _
  | block =>
      intro w w' run
      exact ⟨[], w', bind_eq_ok.mpr ⟨(), w', run, rfl⟩, .nil⟩
  | _ => exact done

/-- An element is locked while it handles its events, and those below it handle theirs. -/
theorem visit (depth : Nat) (h : ∀ e ⦃w w'⦄,
      handleWithin app (.ofFuel app fuel) ctx depth e w = .ok ((), w') →
        Leads app ctx x [.visit depth e] w w') :
    Plans app ctx x (elementActs app ctx depth e) (do
      if let some element := (← get).element? e then
        match element.body with
        | .flex .. | .inset .. | .minSize .. | .stack .. =>
          element.body.children.forM (handleWithin app (.ofFuel app fuel) ctx depth)
        | _ => handleLeaf app (.ofFuel app fuel) ctx e element) := by
  refine bind fun w => ?_
  cases w.element? e with
  | none => exact done
  | some element =>
      have hchildren : Plans app ctx x (Pure.pure (element.body.children.map (.visit depth)))
          (element.body.children.forM (handleWithin app (.ofFuel app fuel) ctx depth)) := by
        refine pure fun w w' run => ?_
        rw [List.map_eq_flatMap]
        exact .each h run
      dsimp only
      cases hbody : element.body with
      | flex | inset | minSize | stack =>
          rw [hbody] at hchildren
          exact hchildren
      | _ => exact leaf

end Plans

namespace Leads

variable {fuel : Nat}

/-- The tree below an element. The induction is on the depth. -/
theorem visit {depth : Nat} {e : ElementId}
    (h : handleWithin app (.ofFuel app fuel) ctx depth e w = .ok ((), w')) :
    Leads app ctx x [.visit depth e] w w' := by
  induction depth generalizing e w w' with
  | zero => exact absurd h stop_ne_ok
  | succ depth ih =>
      obtain ⟨_, u, hlock, h⟩ := bind_eq_ok.mp h
      obtain ⟨_, v, hpart, h⟩ := bind_eq_ok.mp h
      obtain ⟨_, v', hunlock, h⟩ := bind_eq_ok.mp h
      obtain ⟨-, rfl⟩ := pure_eq_ok.mp h
      obtain ⟨acts, u', hacts, hleads⟩ := Plans.visit depth (fun _ _ _ => ih) hpart
      have hunlocks : Leads app ctx x [.duty (.unlock e)] v v' :=
        step (bind_eq_ok.mpr ⟨[], v', bind_eq_ok.mpr ⟨(), v', hunlock, rfl⟩, rfl⟩) nil
      refine step (bind_eq_ok.mpr ⟨(), u, hlock, ?_⟩) (hleads.append hunlocks)
      exact bind_eq_ok.mpr ⟨acts, u', hacts, rfl⟩

theorem tree {e : ElementId} (h : handleEvents app (.ofFuel app fuel) ctx e w = .ok ((), w')) :
    Leads app ctx x [.tree e] w w' :=
  step (bind_eq_ok.mpr ⟨w, w, rfl, rfl⟩) (visit h)

/-- The tasks that wait in the window. The induction is on how many may run. -/
theorem work {s : Setting κ ρ} {size : Size Float} {limit n : Nat}
    (h : (stage s x size).runTasks limit w = .ok (n, w')) :
    Leads s.app ctx x [.work limit] w w' := by
  induction limit generalizing w n with
  | zero =>
      obtain ⟨next, v, htake, h⟩ := bind_eq_ok.mp h
      cases next with
      | none =>
          obtain ⟨-, rfl⟩ := pure_eq_ok.mp h
          exact step (bind_eq_ok.mpr ⟨none, v, htake, rfl⟩) nil
      | some task => exact absurd h (stop_ne_ok (w := v))
  | succ limit ih =>
      obtain ⟨next, v, htake, h⟩ := bind_eq_ok.mp h
      cases next with
      | none =>
          obtain ⟨-, rfl⟩ := pure_eq_ok.mp h
          exact step (bind_eq_ok.mpr ⟨none, v, htake, rfl⟩) nil
      | some task =>
          obtain ⟨_, u, htask, h⟩ := bind_eq_ok.mp h
          obtain ⟨n', u', hrest, h⟩ := bind_eq_ok.mp h
          obtain ⟨-, rfl⟩ := pure_eq_ok.mp h
          have hleads : Leads s.app ctx x [.duty (.task task), .work limit] v u' :=
            cons (Leads.task htask) (ih hrest)
          exact step (bind_eq_ok.mpr ⟨some task, v, htake, rfl⟩) hleads

end Leads

/-! ## Frames that show a view -/

namespace Machine

variable {s : Setting κ ρ} {size : Size Float} {events : List Event} {view : View κ}
  {ops : List (DrawOp Float)}

end Machine

end Trellis
