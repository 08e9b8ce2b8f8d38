import Trellis.Proofs.Frame.Offers
import Trellis.Proofs.Mirror.Equipped
import Trellis.Proofs.Mirror.Wired
import Trellis.Proofs.Watching.Entered

/-!
# What steps do to the list of a binding

A step of a callback or of a frame does a few deeds at most to the list of a binding, and which ones
can be told from the state before it.

* `Duty.deeds` — the deeds of a step of a callback, with `Duty.discharge_entered`: it does these.
* `Act.deeds` — the deeds of an act of a frame, with `Act.perform_entered`.
* `Blueprint.deeds` — the deeds of making an element, with `Machine.create_entered`.
-/

namespace Trellis

open Machine

open World (Discreet Handled Shows)

variable {κ ρ : Type} {b : BindingId} {e : ElementId} {w w' : World κ ρ}

/-! ## Making elements -/

/-- A new watcher is on no list. -/
theorem World.equipped_entered (w : World κ ρ) (element : Element κ) (watcher : Watcher κ ρ) :
    w.Entered b [] (w.equipped element watcher) := by
  refine .of_kept rfl (fun x holder hx => ?_) rfl
  obtain ⟨cell, hcell, hholder⟩ := Option.map_eq_some_iff.mp hx
  have hx : x.index < w.watchers.size := (Array.getElem?_eq_some_iff.mp hcell).1
  have hkept : (w.equipped element watcher).watcher? x = some cell := by
    show (w.watchers.push _)[x.index]? = some cell
    rw [Array.getElem?_push, if_neg (by omega)]
    exact hcell
  rw [World.holder?, hkept, Option.map_some, hholder]

/-- The deeds of making an element. One that is to follow a binding from the start is created with a
watcher, which is registered then. -/
def Blueprint.deeds (b : BindingId) (w : World κ ρ) (plan : Blueprint κ ρ) : List Deed :=
  if plan.follower.isSome = true ∧ plan.binding = some b then [.watch ⟨w.watchers.size⟩] else []

/-- Making an element does its deeds. -/
theorem Machine.create_entered {window : Option WindowId} {plan : Blueprint κ ρ}
    (run : create window plan w = .ok (e, w')) : w.Entered b (plan.deeds b w) w' := by
  cases hfollower : plan.follower with
  | none =>
      -- Without a watcher, binding the element comes to nothing.
      let v : World κ ρ := { w with
        madeUp := w.madeUp + 1
        elements := w.elements.push { id := World.idText w.madeUp, window, body := plan.body } }
      have hmade : w.Entered b [] v := .of_same rfl (fun _ => rfl) rfl
      have helement : v.element? ⟨w.elements.size⟩ =
          some { id := World.idText w.madeUp, window, body := plan.body } :=
        Array.getElem?_push_size
      have hrun : (do
          if plan.binding.isSome then Machine.bind ⟨w.elements.size⟩ plan.binding
          pure ⟨w.elements.size⟩ : Machine κ ρ ElementId) v = .ok (e, w') := by
        rw [create, hfollower] at run
        exact run
      rw [Blueprint.deeds, hfollower, if_neg (by simp)]
      refine hmade.trans ?_
      cases hbinding : plan.binding with
      | none =>
          rw [hbinding] at hrun
          obtain ⟨-, rfl⟩ := pure_eq_ok.mp hrun
          exact refl_of (World.Entered b []) v
      | some c =>
          rw [hbinding] at hrun
          obtain ⟨_, u, hbind, hrest⟩ := bind_eq_ok.mp hrun
          obtain ⟨-, rfl⟩ := pure_eq_ok.mp hrest
          have hbound : v.Entered b _ u := bind_entered hbind
          simpa only [World.rebinding, helement] using hbound
  | some follower =>
      obtain ⟨rfl, v, hv, hbound⟩ := create_follower_eq_ok hfollower run
      have hmade : w.Entered b [] v := by
        rw [hv]
        exact trans_of (World.Entered b []) (Discreet.madeUp w _) (World.equipped_entered _ _ _)
      rw [Blueprint.deeds, hfollower]
      rcases hbound with ⟨hbinding, rfl⟩ | ⟨c, hbinding, hbind⟩
      · rw [hbinding, if_neg (by simp)]
        exact hmade
      · have hbound : v.Entered b _ w' := bind_entered hbind
        have hthere : (v.watcher? ⟨w.watchers.size⟩).isSome :=
          hv ▸ Option.isSome_of_eq_some (World.watcher?_equipped _ _ _)
        have helement : v.element? ⟨w.elements.size⟩ = some _ := hv ▸ World.element?_equipped _ _ _
        simp only [World.rebinding, helement, Option.elim, List.nil_append, World.watching, hthere,
          and_true] at hbound
        simp only [hbinding, Option.isSome_some, true_and, Option.some.injEq]
        exact hmade.before hbound

/-! ## Steps of callbacks -/

/-- The deeds of the first step of a program. -/
def Program.deeds (b : BindingId) (w : World κ ρ) : Program κ ρ Unit → List Deed
  | .watch x c _ | .attach x c _ => w.watching b x c
  | .unwatch x c _ => World.unwatching b x c
  | _ => []

/-- The deeds of a step: what it does to the list of a binding. -/
def Duty.deeds (b : BindingId) (w : World κ ρ) : Duty κ ρ → List Deed
  | .run program => program.deeds b w
  | .rounds c [] =>
    if c = b ∧ ((w.binding? c).map (·.pending)).getD false = true then [.round (w.departed b)]
    else []
  | .task (.edit e kind (.bind target) _) =>
    match w.element? e with
    | some element =>
      if element.body.kind = kind ∧ element.body.bindable = true then
        w.rebinding b e (target.filter (w.canFollow e))
      else []
    | none => []
  | _ => []

variable [Ordered ρ] {app : App κ ρ}

theorem Program.advance_entered {program : Program κ ρ Unit} {left : List (Duty κ ρ)}
    (run : program.advance w = .ok (left, w')) : w.Entered b (program.deeds b w) w' := by
  -- What comes after the first part of a step changes nothing.
  have hfirst {α : Type} {m : Machine κ ρ α} {f : α → List (Duty κ ρ)} {deeds : List Deed}
      (hm : ∀ {a v}, m w = .ok (a, v) → w.Entered b deeds v)
      (run : (do pure (f (← m)) : Machine κ ρ _) w = .ok (left, w')) : w.Entered b deeds w' := by
    obtain ⟨a, v, hrun, hrest⟩ := bind_eq_ok.mp run
    obtain ⟨-, rfl⟩ := pure_eq_ok.mp hrest
    exact hm hrun
  have hplain {α : Type} {m : Machine κ ρ α} {f : α → List (Duty κ ρ)}
      (hm : Respects (World.Entered b []) m)
      (run : (do pure (f (← m)) : Machine κ ρ _) w = .ok (left, w')) : w.Entered b [] w' :=
    hfirst (fun h => hm h) run
  cases program with
  | watch x c next => exact hfirst (fun h => watch_entered h) run
  | unwatch x c next => exact hfirst (fun h => unwatch_entered h) run
  | attach x c next => exact hfirst (fun h => attach_entered h) run
  | set c content next => exact hplain (fun _ _ _ h => assign_entered h) run
  | writeBack x c next => exact hplain (fun _ _ _ h => assignEdit_entered h) run
  | done answer => exact (Respects.pure (R := World.Entered b []) _) run
  | note line next => exact hplain (note_respects line) run
  | drop x next => exact hplain (drop_respects x) run
  | edit x value next => exact hplain (editMirror_respects x value) run
  | invalidate window next => exact hplain (invalidate_respects _) run
  | send event next => exact hplain (send_respects event) run
  | defer window code next => exact hplain (enqueue_respects window _) run
  | update handle call reply next => exact hplain (handIn_respects handle call reply) run
  | handle element kind next => exact hplain (handle?_respects element kind) run
  | tryLock handle next => exact hplain (canLock_respects handle) run
  | read c next | keeps x next | title window next | find id next => exact hplain .get run

omit [Ordered ρ] in
/-- Binding an element does the same to the list whether it is locked or not. -/
theorem Duty.deeds_lock {kind : Kind} {call : Call κ BindingId} {reply : κ}
    (run : lock e w = .ok ((), w')) :
    (Duty.task (.edit e kind call reply)).deeds b w' =
      (Duty.task (.edit e kind call reply)).deeds b w := by
  rcases lock_eq_ok run with ⟨-, rfl⟩ | ⟨element, helement, -, rfl⟩
  · rfl
  · have hlocked : (w.modifyElement e ({ · with locked := true })).element? e =
        some { element with locked := true } := by
      rw [World.element?_modifyElement, if_pos rfl, helement, Option.map_some]
    have hfollows :
        (w.modifyElement e ({ · with locked := true })).canFollow e = w.canFollow e := by
      funext c
      rw [World.canFollow, World.canFollow, hlocked, helement]
      rfl
    cases call with
    | bind target =>
        simp only [Duty.deeds, World.rebinding, hlocked, hfollows, helement]
        rfl
    | change _ | renderer _ | handler _ => rfl

omit [Ordered ρ] in
/-- A call on an element does what binding it does, if it is to bind one that can be bound. -/
theorem Machine.edit_entered {kind : Kind} {call : Call κ BindingId} {reply : κ}
    {program : Program κ ρ Unit} (run : edit app e kind call reply w = .ok (program, w')) :
    w.Entered b ((Duty.task (.edit e kind call reply)).deeds b w) w' := by
  cases call with
  | change _ | renderer _ | handler _ =>
      refine edit_permitted_of_perform (R := World.Entered b []) (fun performs => ?_) run
      exact perform_of_ne_permitted app (by simp) (fun _ _ _ _ _ _ _ _ => inferInstance) performs
  | bind target =>
      cases helement : w.element? e with
      | none =>
          replace run := get_bind_eq_ok.mp run
          simp only [helement, Option.map_none, reduceCtorEq, if_false] at run
          simp only [Duty.deeds, helement]
          exact (Respects.pure (R := World.Entered b []) _) run
      | some element =>
          have hbinds := edit_bind_eq_ok helement run
          rw [← World.canFollow_of_found helement] at hbinds
          simp only [Duty.deeds, helement]
          split
          · next hfits =>
              rw [if_pos hfits] at hbinds
              exact bind_entered hbinds
          · next hfits =>
              rw [if_neg hfits] at hbinds
              exact hbinds ▸ refl_of (World.Entered b []) w

/-- A step does its deeds. -/
theorem Duty.discharge_entered {duty : Duty κ ρ} {left : List (Duty κ ρ)}
    (run : duty.discharge app w = .ok (left, w')) : w.Entered b (duty.deeds b w) w' := by
  cases duty with
  | run program => exact Program.advance_entered run
  | release x c rest =>
      obtain ⟨_, v, hrelease, hrest⟩ := bind_eq_ok.mp run
      obtain ⟨-, rfl⟩ := pure_eq_ok.mp hrest
      obtain rfl := modify_eq_ok.mp hrelease
      exact release_entered w x c
  | unlock e =>
      refine (?_ : Respects (World.Entered b []) _) run
      exact .bind (refit_respects e fun _ => ⟨rfl, rfl, rfl, rfl⟩) fun _ => .pure _
  | rounds c watchers =>
      cases watchers with
      | cons x rest =>
          refine (?_ : Respects (World.Entered b []) _) run
          exact .bind (call_respects app x c) fun _ => .pure _
      | nil =>
          rw [deeds]
          cases effect_of_discharge run with
          | begins hpending =>
              simp only [hpending, and_true]
              exact inRound_entered w c
          | settles hdone =>
              simp only [hdone, reduceCtorEq, and_false, if_false]
              exact settle_entered w c
          | still duty_binding | opens duty_binding | postpones duty_binding => cases duty_binding
  | task task =>
      cases task with
      | run code => exact (Respects.pure (R := World.Entered b []) _) run
      | edit e kind call reply =>
          obtain ⟨_, u, hlock, run⟩ := bind_eq_ok.mp run
          obtain ⟨program, v, hedit, hrest⟩ := bind_eq_ok.mp run
          obtain ⟨-, rfl⟩ := pure_eq_ok.mp hrest
          have hlocked : w.Entered b [] u := lock_respects e hlock
          rw [← deeds_lock hlock]
          exact hlocked.before (edit_entered hedit)

omit [Ordered ρ] in
/-- A round that begins drops those who are gone then, and nothing else begins a round. -/
theorem Duty.eq_departed {duty : Duty κ ρ} {gone : List WatcherId}
    (h : .round gone ∈ duty.deeds b w) : gone = w.departed b := by
  unfold deeds at h
  split at h
  · next program =>
      cases program <;> simp [Program.deeds, World.watching, World.unwatching] at h
  · split at h
    · simpa using h
    · cases h
  · split at h
    · split at h
      · exact absurd h World.round_notMem_rebinding
      · cases h
    · cases h
  · cases h

/-! ## Acts of frames -/

namespace World.Entered

instance : Handled (Entered (κ := κ) (ρ := ρ) b []) where
  asked := invalidate_respects
  rebodied _ _ _ _ := of_same rfl (fun _ => rfl) rfl

instance : Shows (Entered (κ := κ) (ρ := ρ) b []) e where
  shown _ := fun _ _ _ run => setValue_permitted (fun _ _ => inferInstance) run

end World.Entered

/-- The deeds of an act of a frame. -/
def Act.deeds (b : BindingId) (w : World κ ρ) : Act κ ρ → List Deed
  | .duty d => d.deeds b w
  | _ => []

omit [Ordered ρ] in
theorem Act.eq_departed {act : Act κ ρ} {gone : List WatcherId}
    (h : .round gone ∈ act.deeds b w) : gone = w.departed b := by
  cases act with
  | duty d => exact Duty.eq_departed h
  | tree _ | visit _ _ | enter _ _ _ _ | report _ | work _ => cases h

/-- An act does its deeds. -/
theorem Act.perform_entered {ctx : EventContext} {window : WindowId} {act : Act κ ρ}
    {left : List (Act κ ρ)} (run : act.perform app ctx window w = .ok (left, w')) :
    w.Entered b (act.deeds b w) w' := by
  cases act with
  | duty d =>
      obtain ⟨duties, v, hdischarge, hrest⟩ := bind_eq_ok.mp run
      obtain ⟨-, rfl⟩ := pure_eq_ok.mp hrest
      exact Duty.discharge_entered hdischarge
  | tree d => exact (Respects.get_bind (R := World.Entered b []) fun _ => .pure _) run
  | enter d id input edited =>
      exact (Respects.get_bind (R := World.Entered b []) fun _ => .pure _) run
  | visit depth d =>
      cases depth with
      | zero => exact (Respects.stop (R := World.Entered b []) _) run
      | succ depth =>
          refine (?_ : Respects (World.Entered b []) _) run
          have hoffered : Act.Offered (ρ := ρ) app ctx fun _ => True :=
            ⟨fun _ _ => trivial, fun _ _ _ _ => trivial, fun _ => trivial, fun _ _ => trivial,
              fun _ _ _ => trivial⟩
          refine .bind (lock_respects d) fun _ => .bind (fun _ _ _ hacts => ?_) fun _ => .pure _
          exact (elementActs_answers hoffered depth d hacts).1
  | report d =>
      refine (?_ : Respects (World.Entered b []) _) run
      refine .bind (.get_bind fun v => ?_) fun _ => .pure _
      have hassign (y : WatcherId) (c : BindingId) : Respects (World.Entered b [])
          (assignEdit y c : Machine κ ρ (Bool × List (Duty κ ρ))) :=
        fun _ _ _ hrun => assignEdit_entered hrun
      split
      · exact .pure _
      · split
        · exact .bind (hassign _ _) fun _ => .pure _
        · exact .pure _
  | work limit =>
      refine (?_ : Respects (World.Entered b []) _) run
      refine .bind (.bind (.get_bind fun _ => .pure _) fun tasks => ?_) fun next => ?_
      · split
        · exact .pure _
        · refine .bind (.modify fun u => ?_) fun _ => .pure _
          exact .of_same rfl (fun _ => rfl) rfl
      · split
        · exact .pure _
        · exact .stop _
        · exact .pure _

end Trellis
