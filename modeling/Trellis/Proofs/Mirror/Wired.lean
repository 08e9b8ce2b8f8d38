import Trellis.Proofs.Definition.Making
import Trellis.Proofs.Mirror.Acts
import Trellis.Proofs.Mirror.Owed
import Trellis.Proofs.Notification.Awaited
import Trellis.Proofs.Notification.Steps

/-!
# Elements and the watchers they follow bindings with

An element that can be bound has a watcher of its own: a mirror, or for a list one that only asks
for frames. It is registered with no other binding than the one that the element follows. Callbacks
do not know it, so only a call that binds the element registers it elsewhere, and only a round that
begins after the element was let go of drops it.

* `World.Wired` — an element and its own watcher, with `World.Wired.perform` for binding it.
* `World.Tethers` — what all else that is done keeps of the registrations of the watcher.
* `Moment.Wired` — at any point of a run nobody but the followed binding is to call the watcher.
* `Moment.Wired.reaches` — what a run keeps that does not bind the element.
* `Moment.Wired.dropped` — a round drops the watcher of an element that was let go of.
-/

namespace Trellis

open Machine

variable {κ ρ : Type} {e : ElementId} {x : WatcherId} {held : Prop} {w w' : World κ ρ}

/-- An element can be bound if and only if there is a shape that it can follow. -/
theorem Body.bindable_iff {body : Body κ} :
    body.bindable = true ↔ ∃ shape, body.follows shape = true := by
  cases body with
  | list => exact iff_of_true rfl ⟨.many .int, rfl⟩
  | checkbox => exact iff_of_true rfl ⟨.one .flag, rfl⟩
  | input | label => exact iff_of_true rfl ⟨.one .text, rfl⟩
  | progressBar | slider => exact iff_of_true rfl ⟨.one .single, rfl⟩
  | flex | inset | minSize | button | graphic | iconButton | loader | spacer | stack | block =>
      exact iff_of_false Bool.false_ne_true fun ⟨_, h⟩ => Bool.false_ne_true h

namespace World

/-! ## Whose a watcher is -/

/-- The watcher belongs to whom it belonged. -/
def SameOwner (x : WatcherId) (w w' : World κ ρ) : Prop :=
  (w'.watcher? x).map (·.owner) = (w.watcher? x).map (·.owner)

theorem SameOwner.modifyWatcher (w : World κ ρ) (y : WatcherId)
    {f : WatcherCell κ ρ → WatcherCell κ ρ} (owner : ∀ cell, (f cell).owner = cell.owner) :
    w.SameOwner x (w.modifyWatcher y f) := by
  rw [SameOwner, watcher?_modifyWatcher]
  split
  · rw [Option.map_map]
    exact congrArg (Option.map · _) (funext owner)
  · rfl

instance : Lenient (SameOwner (κ := κ) (ρ := ρ) x) where
  refl _ := rfl
  trans _ _ _ h h' := h'.trans h
  bindings _ _ := rfl
  awaiting _ _ := rfl
  madeUp _ _ := rfl
  recorded _ _ := rfl
  dropped w y := .modifyWatcher w y fun _ => rfl
  event _ _ := rfl
  asked _ _ := rfl
  edited w y _ := .modifyWatcher w y fun _ => rfl

instance (y : WatcherId) : Recopies (SameOwner (κ := κ) (ρ := ρ) x) y where
  copied w _ := .modifyWatcher w y fun _ => rfl

instance (d : ElementId) : Refits (SameOwner (κ := κ) (ρ := ρ) x) d where
  refitted _ _ _ := rfl

instance : Hands (SameOwner (κ := κ) (ρ := ρ) x) where
  handed _ _ _ := rfl

/-! ## The wires -/

/-- An element that can be bound, and the watcher that is its own. The watcher is registered with no
other binding than the one that the element follows. -/
structure Wired (w : World κ ρ) (e : ElementId) (x : WatcherId) : Prop where
  follower : ∀ d, w.follower? d = some x ↔ d = e
  bindable : ∃ element, w.element? e = some element ∧ element.body.bindable = true
  owner : (w.watcher? x).map (·.owner) = some (some e)
  registered : ∀ b, w.Registered b x → w.followed? e = some b

/-- The element is not bound. Its watcher is registered with no further binding, and if the element
is held it stays registered. -/
structure Tethers (e : ElementId) (x : WatcherId) (held : Prop) (w w' : World κ ρ) : Prop where
  followed : w'.followed? e = w.followed? e
  registered : ∀ b, w'.Registered b x → w.Registered b x
  stays : held → ∀ b, w.Registered b x → w'.Registered b x

instance : IsPreorder (World κ ρ) (Tethers e x held) where
  refl _ := ⟨rfl, fun _ => id, fun _ _ => id⟩
  trans _ _ _ h h' :=
    { followed := h'.followed.trans h.followed
      registered := fun b => h.registered b ∘ h'.registered b
      stays := fun hheld b => h'.stays hheld b ∘ h.stays hheld b }

/-- The watcher is held as long as its element is. -/
theorem Wired.watcherHeld (h : w.Wired e x) : w.watcherHeld x = w.elementAlive e := by
  obtain ⟨cell, hcell, howner⟩ := Option.map_eq_some_iff.mp h.owner
  rw [World.watcherHeld, hcell]
  simp only [howner]

theorem Wired.isSome_watcher (h : w.Wired e x) : (w.watcher? x).isSome := by
  rw [← Option.isSome_map, h.owner, Option.isSome_some]

theorem Wired.isSome_element (h : w.Wired e x) : (w.element? e).isSome := by
  obtain ⟨element, helement, -⟩ := h.bindable
  exact Option.isSome_of_eq_some helement

/-- The element and the watcher stay what they are if they stay tied, but for what is followed. -/
theorem Wired.of_tied {touched bound : Prop} (h : w.Wired e x) (tied : w.Tied e x touched bound w')
    (owner : w.SameOwner x w') (registered : ∀ b, w'.Registered b x → w'.followed? e = some b) :
    w'.Wired e x where
  follower d := by rw [tied.follower, h.follower]
  bindable := by
    obtain ⟨element, helement, hbindable⟩ := h.bindable
    have hshapes := tied.shapes
    rw [helement] at hshapes
    obtain ⟨element', helement', hfollows⟩ := Option.map_eq_some_iff.mp hshapes
    refine ⟨element', helement', Body.bindable_iff.mpr ?_⟩
    rw [hfollows]
    exact Body.bindable_iff.mp hbindable
  owner := owner.trans h.owner
  registered := registered

theorem Wired.of_tethers {touched bound : Prop} (h : w.Wired e x)
    (tied : w.Tied e x touched bound w') (owner : w.SameOwner x w')
    (tethers : w.Tethers e x held w') : w'.Wired e x := by
  refine h.of_tied tied owner fun b hb => ?_
  rw [tethers.followed]
  exact h.registered b (tethers.registered b hb)

/-! ## Binding the element -/

/-- The element can follow the binding. -/
def canFollow (w : World κ ρ) (e : ElementId) (b : BindingId) : Bool :=
  ((w.element? e).bind fun element =>
    (w.binding? b).map (element.body.follows ·.content.shape)).getD false

theorem canFollow_of_found {element : Element κ} (found : w.element? e = some element) :
    w.canFollow e = fun b =>
      ((w.binding? b).map (element.body.follows ·.content.shape)).getD false := by
  funext b
  rw [canFollow, found]
  rfl

/-- An element that leaves what it follows is registered nowhere. -/
theorem Wired.unfollow {b : BindingId} (h : w.Wired e x) (following : w.followed? e = some b)
    (run : unfollow e x b w = .ok ((), w')) :
    w'.Wired e x ∧ w'.followed? e = none ∧ ∀ c, ¬ w'.Registered c x := by
  have htied : w.Tied e x True True w' := unfollow_tied (fun _ => trivial) (fun _ => trivial) b run
  obtain ⟨hfree, hregistered, -⟩ := unfollow_registers h.isSome_element run
  have hnowhere (c : BindingId) : ¬ w'.Registered c x := by
    rw [hregistered]
    rintro ⟨hbefore, hne⟩
    have hfollowed := h.registered c hbefore
    rw [following, Option.some.injEq] at hfollowed
    exact hne hfollowed
  exact ⟨h.of_tied htied (unfollow_respects e x b run) fun c hc => absurd hc (hnowhere c), hfree,
    hnowhere⟩

/-- The same for whatever it follows, if anything. -/
theorem Wired.leave {element : Element κ} (h : w.Wired e x) (found : w.element? e = some element)
    (run : element.binding.forM (Machine.unfollow e x) w = .ok ((), w')) :
    w'.Wired e x ∧ w'.followed? e = none ∧ (∀ c, ¬ w'.Registered c x) ∧
      ∀ b, (w'.content? b).map (·.shape) = (w.content? b).map (·.shape) := by
  have hfollowed : w.followed? e = element.binding := by
    rw [followed?, found]
    rfl
  cases hbinding : element.binding with
  | none =>
      rw [hbinding] at run hfollowed
      obtain ⟨-, rfl⟩ := pure_eq_ok.mp run
      refine ⟨h, hfollowed, fun c hc => ?_, fun _ => rfl⟩
      have hcontra := h.registered c hc
      rw [hfollowed] at hcontra
      cases hcontra
  | some old =>
      rw [hbinding] at run hfollowed
      obtain ⟨hwired, hfree, hnowhere⟩ := h.unfollow hfollowed run
      have htied : w.Tied e x True True w' :=
        unfollow_tied (fun _ => trivial) (fun _ => trivial) old run
      exact ⟨hwired, hfree, hnowhere, htied.content⟩

/-- An element that is bound is registered with its new binding and with no other one. -/
theorem Wired.bind {target : Option BindingId} (h : w.Wired e x)
    (there : ∀ b, target = some b → (w.binding? b).isSome)
    (run : bind e target w = .ok ((), w')) :
    w'.Wired e x ∧ w'.followed? e = target ∧ ∀ b, w'.Registered b x ↔ target = some b := by
  obtain ⟨element, helement, -⟩ := h.bindable
  have hfollower : element.follower = some x := by
    have hfollower := (h.follower e).mpr rfl
    rwa [follower?, helement] at hfollower
  obtain ⟨u, hleave, hfollow⟩ := bind_follower_eq_ok helement hfollower run
  obtain ⟨hwired, hfree, hnowhere, hshapes⟩ := h.leave helement hleave
  cases target with
  | none =>
      obtain ⟨-, rfl⟩ := pure_eq_ok.mp hfollow
      exact ⟨hwired, hfree, fun b => iff_of_false (hnowhere b) (Option.some_ne_none b).symm⟩
  | some b =>
      have hthere : (u.binding? b).isSome := by
        have hb := congrArg Option.isSome (hshapes b)
        simp only [content?, Option.map_map, Option.isSome_map] at hb
        rw [hb]
        exact there b rfl
      obtain ⟨hnow, hregisters⟩ :=
        follow_registers hwired.isSome_element hwired.isSome_watcher hthere hfollow
      have hregistered (c : BindingId) : w'.Registered c x ↔ some b = some c := by
        rw [hregisters, Option.some.injEq]
        exact or_iff_right (hnowhere c)
      have htied : u.Tied e x True True w' :=
        follow_tied (fun _ => trivial) element (fun _ => ⟨trivial, trivial⟩) b hfollow
      refine ⟨hwired.of_tied htied (follow_respects e element x b hfollow) fun c hc => ?_, hnow,
        hregistered⟩
      rw [hnow]
      exact (hregistered c).mp hc

/-- The element can always be bound. -/
theorem Wired.performs (app : App κ ρ) (target : Option BindingId) (h : w.Wired e x) :
    ∃ u, perform app e (.bind target) w = .ok (.done .done, u) := by
  obtain ⟨element, helement, hbindable⟩ := h.bindable
  obtain ⟨⟨⟩, u, hrun, -⟩ := bind_ensures e (target.filter fun b =>
    ((w.binding? b).map (element.body.follows ·.content.shape)).getD false) w
  refine ⟨u, get_bind_eq_ok.mpr ?_⟩
  simp only [helement, hbindable, if_true]
  exact bind_eq_ok.mpr ⟨(), u, hrun, rfl⟩

/-- A call that binds the element: what it cannot follow counts as nothing. -/
theorem Wired.perform {app : App κ ρ} {target : Option BindingId} {answer : Program κ ρ Answer}
    (h : w.Wired e x) (run : perform app e (.bind target) w = .ok (answer, w')) :
    w'.Wired e x ∧ w'.followed? e = target.filter (w.canFollow e) ∧
      ∀ b, w'.Registered b x ↔ target.filter (w.canFollow e) = some b := by
  obtain ⟨element, helement, hbindable⟩ := h.bindable
  replace run := get_bind_eq_ok.mp run
  simp only [helement, hbindable, if_true] at run
  obtain ⟨⟨⟩, u, hbind, run⟩ := bind_eq_ok.mp run
  obtain ⟨-, rfl⟩ := pure_eq_ok.mp run
  rw [← canFollow_of_found helement] at hbind
  refine h.bind (fun b hb => ?_) hbind
  have hfits := (Option.filter_eq_some_iff.mp hb).2
  rw [canFollow, helement] at hfits
  cases hbinding : w.binding? b with
  | none =>
      rw [hbinding] at hfits
      cases hfits
  | some binding => rfl

/-! ## Beginning a round -/

theorem registered_inRound {b c : BindingId} :
    (w.inRound b).Registered c x ↔ w.Registered c x ∧ (b = c → w.watcherAlive x = true) := by
  by_cases hc : b = c
  · subst hc
    rw [Registered, Registered, binding?_inRound_self]
    cases w.binding? b <;> simp [Binding.prune]
  · rw [Registered, Registered, binding?_inRound_of_ne hc]
    exact (and_iff_left fun heq => absurd heq hc).symm

/-- When a round begins, the watcher of an element that is held stays registered. -/
theorem Wired.inRound (h : w.Wired e x) (b : BindingId) :
    w.Tethers e x (w.elementAlive e = true) (w.inRound b) where
  followed := rfl
  registered _ hc := (registered_inRound.mp hc).1
  stays alive c hc := by
    refine registered_inRound.mpr ⟨hc, fun _ => ?_⟩
    rw [watcherAlive, h.watcherHeld, alive, Bool.or_true]

end World

/-! ## Runs that do not bind the element -/

variable [Ordered ρ] {app : App κ ρ}

/-- The element that is going to be bound next. -/
def Moment.binds? (m : Moment κ ρ) : Option ElementId :=
  match m.agenda with
  | .task (.edit e _ (.bind _) _) :: _ => some e
  | _ => none

/-- A step that does not bind the element holds its watcher where it is. -/
theorem Duty.discharge_tethers {duty : Duty κ ρ} {left : List (Duty κ ρ)} (h : w.Wired e x)
    (avoids : duty.Avoids x)
    (unbound : ∀ k target reply, duty ≠ .task (.edit e k (.bind target) reply))
    (run : duty.discharge app w = .ok (left, w')) :
    w'.Wired e x ∧ w.Tethers e x (w.elementAlive e = true) w' := by
  have howner : w.SameOwner x w' :=
    (Duty.discharge_answers (fun _ _ => inferInstance) (fun _ _ _ => inferInstance)
      (fun _ _ => inferInstance) (fun _ _ _ _ _ _ _ => inferInstance) run).1
  have htied (held : ∀ b, duty = .rounds b [] → w.watcherHeld x = true) :
      w.Tied e x True False w' :=
    Duty.discharge_tied (fun d => (h.follower d).mp) held avoids (fun _ _ _ => trivial)
      (fun k target reply heq => absurd heq (unbound k target reply)) run
  have hfree (tied : w.Tied e x True False w') :
      w'.Wired e x ∧ w.Tethers e x (w.elementAlive e = true) w' := by
    have htethers : w.Tethers e x (w.elementAlive e = true) w' :=
      { followed := tied.followed id
        registered := fun b => (tied.registered id b).mp
        stays := fun _ b => (tied.registered id b).mpr }
    exact ⟨h.of_tethers tied howner htethers, htethers⟩
  by_cases hround : ∃ b, duty = .rounds b []
  · obtain ⟨b, rfl⟩ := hround
    cases effect_of_discharge run with
    | begins =>
        have htethers := h.inRound b
        exact ⟨{ h with registered := fun c hc => h.registered c (htethers.registered c hc) },
          htethers⟩
    | settles =>
        have hsettle : settle b w = .ok ((), w.settled b) := modify_eq_ok.mpr rfl
        exact hfree (settle_tied b hsettle)
    | still duty_binding | opens duty_binding | postpones duty_binding => cases duty_binding
  · exact hfree (htied fun b heq => absurd ⟨b, heq⟩ hround)

/-- At any point of a run that does not bind the element nobody but the binding that the element
follows is to call its watcher. -/
structure Moment.Wired (e : ElementId) (x : WatcherId) (start : World κ ρ) (m : Moment κ ρ) :
    Prop where
  wired : m.world.Wired e x
  avoids : ∀ d ∈ m.agenda, d.Avoids x
  sound : m.Sound start
  awaits : m.Awaits start.awaiting
  keeps : ∀ d ∈ m.agenda, x ∈ d.keeps → d.binding? = m.world.followed? e

namespace Moment.Wired

variable {start : World κ ρ} {m m' : Moment κ ρ}

omit [Ordered ρ] in
/-- A run begins outside of any round. -/
theorem of_idle {agenda : List (Duty κ ρ)} (h : w.Wired e x) (quiescent : w.Quiescent)
    (idle : ∀ d ∈ agenda, d.binding? = none) (avoids : ∀ d ∈ agenda, d.Avoids x) :
    Wired e x w ⟨agenda, w⟩ where
  wired := h
  avoids := avoids
  sound := .of_idle quiescent idle
  awaits := by
    rw [Awaits, Duty.flatMap_keeps idle]
    exact .refl _
  keeps d hd hx := by
    rw [Duty.keeps_of_binding? (idle d hd)] at hx
    cases hx

theorem next (happ : app.Avoids x) (h : m.Wired e x start) (unbound : m.binds? ≠ some e)
    (step : Next app m m') :
    m'.Wired e x start ∧ m.world.Tethers e x (m.world.elementAlive e = true) m'.world := by
  have hsound := h.sound.next step
  have hawaits := h.awaits.next step
  obtain @⟨duty, rest, left, w, w', run⟩ := step
  have hduty := h.avoids duty List.mem_cons_self
  obtain ⟨hwired, htethers⟩ := Duty.discharge_tethers h.wired hduty (fun k target reply heq => by
    subst heq
    exact unbound rfl) run
  refine ⟨⟨hwired, ?_, hsound, hawaits, fun d hd hx => ?_⟩, htethers⟩
  · exact List.forall_mem_append.mpr
      ⟨Duty.discharge_avoids happ hduty run, fun d hd => h.avoids d (List.mem_cons_of_mem _ hd)⟩
  · dsimp only
    rw [htethers.followed]
    rcases List.mem_append.mp hd with hd | hd
    · rcases (Duty.effect_of_discharge run).keeps hd hx with ⟨hx', hb⟩ | ⟨b, rfl, hlisted⟩
      · rw [hb]
        exact h.keeps duty List.mem_cons_self hx'
      · exact (h.wired.registered b (World.mem_listeners.mp hlisted).1).symm
    · exact h.keeps d (List.mem_cons_of_mem _ hd) hx

/-- A run that does not bind the element. The induction is on the steps. -/
theorem reaches (happ : app.Avoids x) (h : m.Wired e x start)
    (unbound : ∀ n, Reaches app m n → n.binds? ≠ some e) (run : Reaches app m m') :
    m'.Wired e x start ∧
      m.world.Tethers e x (∀ n, Reaches app m n → n.world.elementAlive e = true) m'.world := by
  induction run with
  | refl => exact ⟨h, refl_of _ m.world⟩
  | @tail n _ hreach hstep ih =>
      obtain ⟨hn, htethers⟩ := ih
      obtain ⟨hnext, htethers'⟩ := hn.next happ (unbound n hreach) hstep
      refine ⟨hnext, trans_of _ htethers { htethers' with stays := fun alive => ?_ }⟩
      exact htethers'.stays (alive n hreach)

omit [Ordered ρ] in
/-- A round that begins after the element was let go of drops its watcher. Nobody calls it then. -/
theorem dropped {b : BindingId} {rest : List (Duty κ ρ)}
    (h : Moment.Wired e x start ⟨.rounds b [] :: rest, w⟩) (fresh : x ∉ start.awaiting)
    (gone : w.elementAlive e = false) : x ∉ w.listeners b := by
  rw [World.mem_listeners]
  rintro ⟨hregistered, halive⟩
  rw [World.watcherAlive, h.wired.watcherHeld, gone, Bool.or_false, List.contains_iff_mem] at halive
  -- Only a round of the same binding could keep the watcher, but there is just the one that begins.
  rcases List.mem_append.mp (h.awaits.mem_iff.mp halive) with hkept | hfirst
  · obtain ⟨d, hd, hx⟩ := List.mem_flatMap.mp hkept
    have hbinding : d.binding? = some b :=
      (h.keeps d hd hx).trans (h.wired.registered b hregistered)
    obtain ⟨_, p, -, -, hphase⟩ := h.sound.phase b
    rw [Duty.about_rounds] at hphase
    have hmem : d ∈ rest := by
      rcases List.mem_cons.mp hd with rfl | hd
      · cases hx
      · exact hd
    have habout : d ∈ Duty.about b rest :=
      List.mem_filter.mpr ⟨hmem, decide_eq_true hbinding⟩
    generalize Duty.about b rest = duties at hphase habout
    cases hphase with
    | ready => cases habout
  · exact fresh hfirst

end Moment.Wired

end Trellis
