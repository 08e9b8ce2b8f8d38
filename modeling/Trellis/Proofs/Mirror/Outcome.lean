import Trellis.Proofs.Mirror.Acts

/-!
# What an act does to a widget

* `Act.Outcome` — all that an act can do to a widget, with `Act.perform_outcome`.
-/

namespace Trellis

open Machine

variable {κ ρ : Type} [Ordered ρ] {e : ElementId} {x : WatcherId} {kind : Scalar.Kind}
  {w w' : World κ ρ} {app : App κ ρ} {ctx : EventContext} {y : WindowId}

namespace Act

variable {act : Act κ ρ} {left : List (Act κ ρ)}

/-- All that an act can do to a widget. -/
inductive Outcome (app : App κ ρ) (e : ElementId) (x : WatcherId) (kind : Scalar.Kind) :
    Act κ ρ → World κ ρ → List (Act κ ρ) → World κ ρ → Prop
  | untouched {act : Act κ ρ} {left : List (Act κ ρ)} {w w' : World κ ρ}
      (other : ∀ b rest, act ≠ .duty (.rounds b (x :: rest))) (tied : w.Tied e x False False w') :
      Outcome app e x kind act w left w'
  /-- The mirror is called for a binding. -/
  | calls {b : BindingId} {rest : List WatcherId} {left : List (Act κ ρ)} {w w' : World κ ρ}
      {program : Program κ ρ Unit} (run : call app x b w = .ok (program, w'))
      (tied : w.Tied e x True False w') :
      Outcome app e x kind (.duty (.rounds b (x :: rest))) w left w'
  /-- The widget reports its value to the binding it follows. -/
  | reports {b : BindingId} {left : List (Act κ ρ)} {w w' : World κ ρ}
      (following : w.followed? e = some b)
      (shows : (w'.flags b).2 = true ∨ ∀ copy, w'.copy? x = some copy → w'.Agrees b copy)
      (tied : w.Tied e x True False w') : Outcome app e x kind (.report e) w left w'
  /-- The widget is bound. -/
  | binds {k : Kind} {target : Option BindingId} {reply : κ} {left : List (Act κ ρ)}
      {w w' : World κ ρ} (left_yet : ∀ d, .duty d ∈ left → x ∉ d.yet)
      (bound : World.Bound e x kind (target.filter (w.Fits kind ·)) w w') :
      Outcome app e x kind (.duty (.task (.edit e k (.bind target) reply))) w left w'

/-- A call that is to bind the widget. -/
theorem outcome_of_bind {k : Kind} {target : Option BindingId} {reply : κ}
    (widget : w.Widget e x kind)
    (run : (Act.duty (.task (.edit e k (.bind target) reply))).perform app ctx y w =
      .ok (left, w')) :
    Outcome app e x kind (.duty (.task (.edit e k (.bind target) reply))) w left w' := by
  obtain ⟨duties, v, hdischarge, run⟩ := bind_eq_ok.mp run
  obtain ⟨rfl, rfl⟩ := pure_eq_ok.mp run
  obtain ⟨_, u, hlock, hdischarge⟩ := bind_eq_ok.mp hdischarge
  obtain ⟨program, v', hedit, hdischarge⟩ := bind_eq_ok.mp hdischarge
  obtain ⟨rfl, rfl⟩ := pure_eq_ok.mp hdischarge
  have hlocked : w.Tied e x False False u := lock_tied e hlock
  rcases (widget.of_tied hlocked).rebinds hedit with rfl | hbound
  · exact .untouched (fun b rest heq => by cases heq) hlocked
  · have hfits : (fun b => decide (u.Fits kind b)) = fun b => decide (w.Fits kind b) :=
      funext fun b => decide_eq_decide.mpr (by rw [World.Fits, World.Fits, hlocked.content])
    rw [hfits] at hbound
    refine .binds (fun d hd => ?_) { hbound with
      kept := fun hnone copy hcopy hedited =>
        hlocked.copy id copy (hbound.kept hnone copy hcopy hedited) hedited }
    simp only [List.map_cons, List.map_nil, List.mem_cons, Act.duty.injEq, List.not_mem_nil,
      or_false] at hd
    rcases hd with rfl | rfl <;> exact List.not_mem_nil

theorem perform_outcome (happ : app.Avoids x) (widget : w.Widget e x kind)
    (held : w.watcherHeld x = true) (h : act.Avoids x)
    (run : act.perform app ctx y w = .ok (left, w')) : Outcome app e x kind act w left w' := by
  by_cases hbinds : act.Binds e
  · obtain ⟨k, target, reply, rfl⟩ := hbinds
    exact outcome_of_bind widget run
  · have htied := perform_tied happ widget held h run
    have hfree : w.Tied e x (act.Touches e x) False w' :=
      { htied with
        followed := fun _ => htied.followed hbinds
        copy := fun htouches => htied.copy (not_or.mpr ⟨htouches, hbinds⟩)
        registered := fun _ => htied.registered hbinds }
    by_cases htouches : act.Touches e x
    · have htouched : w.Tied e x True False w' := { hfree with copy := fun h => absurd trivial h }
      rcases htouches with ⟨b, rest, rfl⟩ | rfl
      · obtain ⟨duties, v, hdischarge, run⟩ := bind_eq_ok.mp run
        obtain ⟨-, rfl⟩ := pure_eq_ok.mp run
        obtain ⟨program, v', hcall, hdischarge⟩ := bind_eq_ok.mp hdischarge
        obtain ⟨-, rfl⟩ := pure_eq_ok.mp hdischarge
        exact .calls hcall htouched
      · rcases report_outcome run with
          ⟨-, rfl⟩ | ⟨z, b, _, rounds, hfollower, hfollowed, -, hassign⟩
        · exact .untouched (fun b rest heq => by cases heq) (refl_of _ w')
        · obtain rfl : z = x :=
            Option.some.inj (hfollower.symm.trans ((widget.follower e).mpr rfl))
          rcases widget.reports hfollowed hassign with ⟨-, rfl⟩ | hshows
          · exact .untouched (fun b rest heq => by cases heq) (refl_of _ w')
          · exact .reports hfollowed hshows htouched
    · exact .untouched (fun b rest heq => htouches (.inl ⟨b, rest, heq⟩))
        { hfree with copy := fun _ => hfree.copy htouches }

end Act

end Trellis
