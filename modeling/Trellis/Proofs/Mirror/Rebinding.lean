import Trellis.Proofs.Mirror.Tied
import Trellis.Proofs.Mirror.WriteBack

/-!
# Binding a widget

A widget that is bound leaves the binding it followed and follows the other one: its mirror is
released by the one and registered with the other, and takes over the value of that.

* `World.Widget.bind` — a widget follows another binding, or none.
* `World.Widget.rebinds` — the same for a call on an element, which may be refused.
* `World.Widget.reports` — a widget reports its value to the binding it follows.
-/

namespace Trellis

open Machine

variable {κ ρ : Type} {e : ElementId} {x : WatcherId} {kind : Scalar.Kind} {w w' : World κ ρ}

namespace World

/-- The element of a widget, which follows bindings through the mirror. -/
theorem Widget.exists_element (h : w.Widget e x kind) : ∃ element, w.element? e = some element ∧
    element.follower = some x ∧ element.body.follows = fun shape => decide (shape = .one kind) := by
  obtain ⟨element, helement, hshapes⟩ := Option.map_eq_some_iff.mp h.shapes
  refine ⟨element, helement, ?_, hshapes⟩
  have hfollower := (h.follower e).mpr rfl
  rwa [follower?, helement] at hfollower

theorem Widget.isSome_watcher (h : w.Widget e x kind) : (w.watcher? x).isSome := by
  obtain ⟨copy, hcopy, -⟩ := Option.map_eq_some_iff.mp h.shown
  obtain ⟨cell, hcell, -⟩ := Option.bind_eq_some_iff.mp hcopy
  exact Option.isSome_of_eq_some hcell

theorem followed?_rebound {element : Element κ} (found : w.element? e = some element)
    (target : Option BindingId) :
    (w.modifyElement e ({ · with binding := target })).followed? e = target := by
  rw [followed?, element?_modifyElement, if_pos rfl, found]
  rfl

theorem registered_watch {b c : BindingId} {binding : Binding ρ}
    (found : w.binding? b = some binding) :
    (w.modifyBinding b (·.watch x)).Registered c x ↔ w.Registered c x ∨ b = c := by
  rw [Registered, Registered, binding?_modifyBinding]
  split
  · next hbc =>
      subst hbc
      have hwatched : x ∈ (binding.watch x).watchers := by
        unfold Binding.watch
        split
        · next hx => exact hx
        · exact List.mem_append_right _ List.mem_cons_self
      rw [found]
      exact ⟨fun _ => .inr rfl, fun _ => ⟨_, rfl, hwatched⟩⟩
  · next hne => exact ⟨.inl, fun h => h.resolve_right hne⟩

theorem registered_unwatch {b c : BindingId} :
    (w.modifyBinding b (·.unwatch x)).Registered c x ↔ w.Registered c x ∧ b ≠ c := by
  rw [Registered, Registered, binding?_modifyBinding]
  split
  · next hbc =>
      refine ⟨?_, fun h => absurd hbc h.2⟩
      rintro ⟨_, hbinding, hx⟩
      obtain ⟨old, -, rfl⟩ := Option.map_eq_some_iff.mp hbinding
      simp [Binding.unwatch] at hx
  · next hne => exact ⟨fun h => ⟨h, hne⟩, fun h => h.1⟩

theorem watch_of_found {b : BindingId} (found : (w.watcher? x).isSome)
    (run : watch x b w = .ok ((), w')) : w' = w.modifyBinding b (·.watch x) := by
  rw [watch, modify_eq_ok, if_pos found] at run
  exact run.symm

/-- An element that leaves a binding follows nothing, and its watcher is released by the binding. -/
theorem unfollow_registers {b : BindingId} (found : (w.element? e).isSome)
    (run : unfollow e x b w = .ok ((), w')) :
    w'.followed? e = none ∧ (∀ c, w'.Registered c x ↔ w.Registered c x ∧ b ≠ c) ∧
      w'.copy? x = w.copy? x := by
  obtain ⟨element, helement⟩ := Option.isSome_iff_exists.mp found
  obtain rfl := unfollow_eq_ok run
  exact ⟨followed?_rebound helement none, fun _ => registered_unwatch, rfl⟩

/-- An element that comes to follow a binding has its watcher registered with it. -/
theorem follow_registers {b : BindingId} {element : Element κ} (found : (w.element? e).isSome)
    (own : (w.watcher? x).isSome) (there : (w.binding? b).isSome)
    (run : follow e element x b w = .ok ((), w')) :
    w'.followed? e = some b ∧ ∀ c, w'.Registered c x ↔ w.Registered c x ∨ b = c := by
  obtain ⟨_, helement⟩ := Option.isSome_iff_exists.mp found
  obtain ⟨binding, hbinding⟩ := Option.isSome_iff_exists.mp there
  obtain ⟨_, v, hattach, run⟩ := bind_eq_ok.mp run
  obtain ⟨_, u, hwatch, htake⟩ := bind_eq_ok.mp hattach
  obtain ⟨_, t, hrebound, hask⟩ := bind_eq_ok.mp run
  obtain rfl := watch_of_found own hwatch
  have htaken : Tied e x True False (w.modifyBinding b (·.watch x)) v :=
    takeOver_tied (fun _ => trivial) b htake
  obtain ⟨taken, htakenElement, -⟩ := Option.map_eq_some_iff.mp
    (htaken.shapes.trans (congrArg (Option.map (·.body.follows)) helement))
  obtain rfl := modify_eq_ok.mp hrebound
  -- Asking for a frame is of no account.
  have hasked : (v.modifyElement e ({ · with binding := some b })).Tied e x True False w' := by
    refine (?_ : Respects (Tied e x True False) _) hask
    split
    · exact invalidate_tied _
    · exact .pure _
  refine ⟨(hasked.followed id).trans (followed?_rebound htakenElement (some b)), fun c => ?_⟩
  rw [hasked.registered id]
  exact (htaken.registered id c).trans (registered_watch hbinding)

/-- A widget leaves the binding it follows. -/
theorem Widget.unfollow {b : BindingId} (h : w.Widget e x kind) (following : w.followed? e = some b)
    (run : unfollow e x b w = .ok ((), w')) :
    w'.Widget e x kind ∧ w'.followed? e = none ∧ w'.copy? x = w.copy? x := by
  have htied : w.Tied e x True True w' := unfollow_tied (fun _ => trivial) (fun _ => trivial) b run
  obtain ⟨element, helement, -, -⟩ := h.exists_element
  obtain ⟨hfree, hregistered, hcopy⟩ :=
    unfollow_registers (Option.isSome_of_eq_some helement) run
  refine ⟨h.of_bound htied (fun c => ?_) fun c hc => ?_, hfree, hcopy⟩
  · rw [hfree, hregistered]
    refine ⟨?_, fun hc => nomatch hc⟩
    -- The mirror was registered with this binding only.
    rintro ⟨hregistered, hne⟩
    have hc := (h.registered c).mp hregistered
    rw [following, Option.some.injEq] at hc
    exact absurd hc hne
  · rw [hfree] at hc
    cases hc

variable [Ordered ρ]

/-- A widget that follows nothing follows a binding from now on, and shows its value. -/
theorem Widget.follow {b : BindingId} {element : Element κ} (h : w.Widget e x kind)
    (free : w.followed? e = none) (fits : w.Fits kind b)
    (run : follow e element x b w = .ok ((), w')) :
    w'.Widget e x kind ∧ w'.followed? e = some b ∧
      ∀ copy, w'.copy? x = some copy → copy.edited = false → w'.Agrees b copy := by
  have htied : w.Tied e x True True w' :=
    follow_tied (fun _ => trivial) element (fun _ => ⟨trivial, trivial⟩) b run
  obtain ⟨_, helement, -, -⟩ := h.exists_element
  obtain ⟨content, hcontent, hshape⟩ := Option.map_eq_some_iff.mp fits
  obtain ⟨value, rfl, hkind⟩ := Content.exists_of_shape hshape
  obtain ⟨binding, hbinding, -⟩ := Option.map_eq_some_iff.mp hcontent
  obtain ⟨old, hold, hkindold⟩ := Option.map_eq_some_iff.mp h.shown
  obtain ⟨hfollowed, hregistered⟩ := follow_registers (Option.isSome_of_eq_some helement)
    h.isSome_watcher (Option.isSome_of_eq_some hbinding) run
  obtain ⟨_, v, hattach, run⟩ := bind_eq_ok.mp run
  obtain ⟨_, u, hwatch, htake⟩ := bind_eq_ok.mp hattach
  obtain ⟨_, t, hrebound, hask⟩ := bind_eq_ok.mp run
  obtain rfl := watch_of_found h.isSome_watcher hwatch
  have hfound : (w.modifyBinding b (·.watch x)).content? b = some (.one value) :=
    ((watch_eq_ok hwatch).2.2.1 b).trans hcontent
  obtain rfl := takeOver_eq_ok hfound htake
  have ht := modify_eq_ok.mp hrebound
  have hsteady : t.Steady b (fun _ => False) w' := by
    refine (?_ : Respects (Steady b fun _ => False) _) hask
    split
    · exact invalidate_steady _
    · exact .pure _
  subst ht
  refine ⟨h.of_bound htied (fun c => ?_) fun c hc => ?_, hfollowed, fun copy hcopy hedited => ?_⟩
  · rw [hregistered, hfollowed, Option.some.injEq]
    refine or_iff_right ?_
    rw [h.registered, free]
    exact fun hc => nomatch hc
  · rw [hfollowed, Option.some.injEq] at hc
    rw [← hc]
    exact fits
  · have hafter : w'.content? b = some (.one value) := hsteady.content.trans hfound
    have htaken := copy?_modifyCopy (w.modifyBinding b (·.watch x)) x x (·.takeOver (.one value))
    rw [if_pos rfl, show (w.modifyBinding b (·.watch x)).copy? x = some old from hold] at htaken
    rw [hsteady.copies x id] at hcopy
    have haccord : copy.Accord w' b x :=
      .of_takeOver hafter (hkind.trans hkindold.symm) (Option.some.inj (hcopy.symm.trans htaken))
    exact haccord.agrees hedited

/-- A widget has come to follow a binding, or none. It shows the value of the binding then, or what
it showed before. -/
structure Bound (e : ElementId) (x : WatcherId) (kind : Scalar.Kind) (target : Option BindingId)
    (w w' : World κ ρ) : Prop where
  widget : w'.Widget e x kind
  followed : w'.followed? e = target
  shows : ∀ b copy, target = some b → w'.copy? x = some copy → copy.edited = false →
    w'.Agrees b copy
  kept : target = none → ∀ copy, w'.copy? x = some copy → copy.edited = false →
    w.copy? x = some copy

theorem Widget.bind {target : Option BindingId} (h : w.Widget e x kind)
    (fits : ∀ b, target = some b → w.Fits kind b) (run : bind e target w = .ok ((), w')) :
    Bound e x kind target w w' := by
  obtain ⟨element, helement, hfollower, -⟩ := h.exists_element
  obtain ⟨u, hleave, hfollow⟩ := bind_follower_eq_ok helement hfollower run
  have hleft : u.Widget e x kind ∧ u.followed? e = none ∧ u.copy? x = w.copy? x ∧
      ∀ b, u.Fits kind b ↔ w.Fits kind b := by
    have hfollowed : w.followed? e = element.binding := by
      rw [followed?, helement]
      rfl
    cases hbinding : element.binding with
    | none =>
        rw [hbinding] at hleave hfollowed
        obtain ⟨-, rfl⟩ := pure_eq_ok.mp hleave
        exact ⟨h, hfollowed, rfl, fun _ => Iff.rfl⟩
    | some old =>
        rw [hbinding] at hleave hfollowed
        obtain ⟨hwidget, hfree, hcopy⟩ := h.unfollow hfollowed hleave
        have htied : w.Tied e x True True u :=
          unfollow_tied (fun _ => trivial) (fun _ => trivial) old hleave
        exact ⟨hwidget, hfree, hcopy, fun b => by rw [Fits, Fits, htied.content]⟩
  obtain ⟨hwidget, hfree, hcopy, hfits⟩ := hleft
  cases target with
  | none =>
      obtain ⟨-, rfl⟩ := pure_eq_ok.mp hfollow
      refine ⟨hwidget, hfree, fun _ _ hb => ?_, fun _ _ hshown _ => hcopy.symm.trans hshown⟩
      cases hb
  | some b =>
      obtain ⟨hwidget', hfollowed, hshows⟩ :=
        hwidget.follow hfree ((hfits b).mpr (fits b rfl)) hfollow
      refine ⟨hwidget', hfollowed, fun c copy hc => ?_, fun hnone => ?_⟩
      · rw [← Option.some.inj hc]
        exact hshows copy
      · cases hnone

/-- A call that is to bind a widget: a binding of another kind counts as none, and the call does
nothing if it is meant for another type of element. -/
theorem Widget.rebinds {app : App κ ρ} {k : Kind} {target : Option BindingId} {reply : κ}
    {program : Program κ ρ Unit} (h : w.Widget e x kind)
    (run : edit app e k (.bind target) reply w = .ok (program, w')) :
    w' = w ∨ Bound e x kind (target.filter (w.Fits kind ·)) w w' := by
  obtain ⟨element, helement, -, hshapes⟩ := h.exists_element
  rcases edit_bind_outcome run with hsame | ⟨found, hfound, hbind⟩
  · exact .inl hsame
  · obtain rfl : element = found := Option.some.inj (helement.symm.trans hfound)
    have hfilter :
        (fun b => ((w.binding? b).map (element.body.follows ·.content.shape)).getD false) =
          fun b => decide (w.Fits kind b) := by
      funext b
      rw [hshapes]
      cases hbinding : w.binding? b <;> simp [Fits, content?, hbinding]
    rw [hfilter] at hbind
    refine .inr (h.bind (fun b hb => ?_) hbind)
    simpa using (Option.filter_eq_some_iff.mp hb).2

/-- A widget that reports its value to the binding it follows agrees with that, or has yet to be
told, if anything happens at all. -/
theorem Widget.reports {b : BindingId} {changed : Bool} {rounds : List (Duty κ ρ)}
    (h : w.Widget e x kind) (following : w.followed? e = some b)
    (run : assignEdit x b w = .ok ((changed, rounds), w')) :
    (rounds = [] ∧ w' = w) ∨ (w'.flags b).2 = true ∨
      ∀ copy, w'.copy? x = some copy → w'.Agrees b copy := by
  obtain ⟨taken, u, htake, hset⟩ := bind_eq_ok.mp run
  rcases takeEdit_eq_ok htake with ⟨rfl, rfl⟩ | ⟨copy, hcopy, -, rfl, rfl⟩
  · obtain ⟨heq, rfl⟩ := pure_eq_ok.mp hset
    cases heq
    exact .inl ⟨rfl, rfl⟩
  · refine .inr ?_
    rcases assign_eq_ok hset with ⟨-, rfl, rfl, hsame⟩ | ⟨binding, found, -, -, -, rfl⟩
    · -- The binding was left alone, so the copy did not differ from it.
      refine .inr fun copy' hcopy' => ?_
      rw [copy?_modifyCopy, if_pos rfl, hcopy] at hcopy'
      obtain rfl := Option.some.inj hcopy'
      have hfits : (w.content? b).map (·.shape) = some (.one copy.value.kind) := by
        have hshown := h.shown
        rw [hcopy, Option.map_some, Option.some.injEq] at hshown
        rw [hshown]
        exact h.followed b following
      exact agrees_of_same hfits hsame
    · refine .inl ?_
      rw [flags_assigned found]

end World

end Trellis
