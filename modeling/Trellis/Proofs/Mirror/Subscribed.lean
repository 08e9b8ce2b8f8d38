import Mathlib.Data.List.Nodup
import Trellis.Proofs.Mirror.Equipped
import Trellis.Proofs.Mirror.Telling
import Trellis.Proofs.Mirror.Wired
import Trellis.Proofs.Notification.Setting

/-!
# Widgets that are bound again and again

A widget may be bound to one binding after the other, or to none, while bindings are set in between.
However often that happens, its watcher is listed once by the binding that the widget follows, and
by no other one. So each round of that binding calls the watcher once, and no round of another
binding calls it. After the widget was let go of, the next round of a binding drops the watcher for
good.

* `SetsBeside`, `World.Regrouped`, `Beside` — what is done beside an element.
* `Life` — what is done with an element from its creation on.
* `World.Subscribed` — the watcher is listed where it is to be listed.
* `World.AtRest` — nothing is under way, with a lemma for whatever is done from there.
* `Subscription`, `Life.subscribed` — the watcher always is where it is to be, and is called
  accordingly.
-/

namespace Trellis

open Machine

variable {κ ρ : Type} {e : ElementId} {x : WatcherId} {held : Prop} {w w' : World κ ρ}
  {current : Option BindingId}

/-! ## What is done with an element -/

/-- A binding is about to be set from outside of any callback. -/
def Moment.setting (b : BindingId) (content : Content ρ) (w : World κ ρ) : Moment κ ρ :=
  ⟨[.run (.set b content fun _ => .done ())], w⟩

/-- Elements were put elsewhere or let go of. The element itself is what it was, and no other one
has got its watcher. -/
structure World.Regrouped (e : ElementId) (w w' : World κ ρ) : Prop where
  element : w'.element? e = w.element? e
  follower : ∀ d, w'.follower? d = w.follower? d
  bindings : w'.bindings = w.bindings
  watchers : w'.watchers = w.watchers
  awaiting : w'.awaiting = w.awaiting

variable [Ordered ρ] {app : App κ ρ}

/-- A binding is set from outside of any callback, and no callback binds the element meanwhile. If
the element is to be held, somebody holds it all the time. -/
structure SetsBeside (app : App κ ρ) (e : ElementId) (held : Prop) (b : BindingId)
    (content : Content ρ) (changed : Bool) (w w' : World κ ρ) : Prop where
  run : ∃ fuel, setContent (.ofFuel app fuel) b content w = .ok (changed, w')
  unbound : ∀ n, Reaches app (.setting b content w) n → n.binds? ≠ some e
  alive : held → ∀ n, Reaches app (.setting b content w) n → n.world.elementAlive e = true

theorem SetsBeside.reaches {b : BindingId} {content : Content ρ} {changed : Bool}
    (sets : SetsBeside app e held b content changed w w') :
    Reaches app (.setting b content w) ⟨[], w'⟩ := by
  obtain ⟨fuel, hrun⟩ := sets.run
  exact .of_setContent hrun

/-- What is done beside an element. -/
inductive Beside (app : App κ ρ) (e : ElementId) (held : Prop) : World κ ρ → World κ ρ → Prop
  | set {b : BindingId} {content : Content ρ} {changed : Bool} {w w' : World κ ρ}
      (sets : SetsBeside app e held b content changed w w') : Beside app e held w w'
  | regroup {w w' : World κ ρ} (regrouped : w.Regrouped e w') : Beside app e held w w'

/-- What is done with an element from a state on in which it follows `first`: it is bound, and other
things are done beside it while somebody holds it. It has been bound to `current` last; what it
cannot follow counts as nothing. -/
inductive Life (app : App κ ρ) (e : ElementId) (first : Option BindingId) (start : World κ ρ) :
    Option BindingId → World κ ρ → Prop
  | start : Life app e first start first start
  | bind {current target : Option BindingId} {answer : Program κ ρ Answer} {w w' : World κ ρ}
      (life : Life app e first start current w)
      (run : perform app e (.bind target) w = .ok (answer, w')) :
      Life app e first start (target.filter (w.canFollow e)) w'
  | beside {current : Option BindingId} {w w' : World κ ρ}
      (life : Life app e first start current w) (step : Beside app e True w w') :
      Life app e first start current w'

/-! ## Where its watcher is listed -/

/-- The element follows a binding, which lists its watcher once, and no other binding lists it. -/
structure World.Subscribed (w : World κ ρ) (e : ElementId) (x : WatcherId)
    (current : Option BindingId) : Prop where
  followed : w.followed? e = current
  once : ∀ b, current = some b → ∃ binding, w.binding? b = some binding ∧
    binding.watchers.count x = 1
  elsewhere : ∀ b, current ≠ some b → ¬ w.Registered b x

/-- Nothing is under way, and nobody but the binding that the element follows knows its watcher. -/
structure World.AtRest (w : World κ ρ) (e : ElementId) (x : WatcherId) : Prop where
  wired : w.Wired e x
  quiescent : w.Quiescent
  unawaited : x ∉ w.awaiting

namespace World

omit [Ordered ρ] in
/-- Nobody is listed twice, so it is enough that the watcher is registered. -/
theorem Subscribed.of_registered (followed : w.followed? e = current)
    (registered : ∀ b, w.Registered b x ↔ current = some b)
    (nodup : ∀ b binding, w.binding? b = some binding → binding.watchers.Nodup) :
    w.Subscribed e x current where
  followed := followed
  once b hb := by
    obtain ⟨binding, hbinding, hx⟩ := (registered b).mpr hb
    exact ⟨binding, hbinding, List.count_eq_one_of_mem (nodup b binding hbinding) hx⟩
  elsewhere b hb hregistered := hb ((registered b).mp hregistered)

omit [Ordered ρ] in
theorem Subscribed.registered_iff (h : w.Subscribed e x current) (b : BindingId) :
    w.Registered b x ↔ current = some b := by
  refine ⟨fun hb => Decidable.byContradiction fun hne => h.elsewhere b hne hb, fun hb => ?_⟩
  obtain ⟨binding, hbinding, hcount⟩ := h.once b hb
  exact ⟨binding, hbinding, List.count_pos_iff.mp (by omega)⟩

omit [Ordered ρ] in
/-- What holds the watcher where it is leaves it listed where it is. -/
theorem Subscribed.of_tethers (h : w.Subscribed e x current) (wired : w'.Wired e x)
    (tethers : w.Tethers e x held w') (hheld : held)
    (nodup : ∀ b binding, w'.binding? b = some binding → binding.watchers.Nodup) :
    w'.Subscribed e x current := by
  have hfollowed := tethers.followed.trans h.followed
  refine .of_registered hfollowed (fun b => ⟨fun hb => ?_, fun hb => ?_⟩) nodup
  · rw [← hfollowed]
    exact wired.registered b hb
  · exact tethers.stays hheld b ((h.registered_iff b).mpr hb)

namespace AtRest

omit [Ordered ρ] in
/-- Regrouping elements changes nothing of this. -/
theorem regroup (h : w.AtRest e x) (regrouped : w.Regrouped e w') :
    w'.AtRest e x ∧ w.Tethers e x held w' := by
  have hbinding (b : BindingId) : w'.binding? b = w.binding? b := by
    rw [binding?, binding?, regrouped.bindings]
  have hwatcher : w'.watcher? x = w.watcher? x := by
    rw [watcher?, watcher?, regrouped.watchers]
  have hregistered (b : BindingId) : w'.Registered b x ↔ w.Registered b x := by
    rw [Registered, Registered, hbinding]
  have hfollowed : w'.followed? e = w.followed? e := by
    rw [followed?, followed?, regrouped.element]
  have hwired : w'.Wired e x :=
    { follower := fun d => by rw [regrouped.follower, h.wired.follower]
      bindable := regrouped.element ▸ h.wired.bindable
      owner := hwatcher ▸ h.wired.owner
      registered := fun b hb => hfollowed ▸ h.wired.registered b ((hregistered b).mp hb) }
  have htethers : w.Tethers e x held w' :=
    { followed := hfollowed
      registered := fun b => (hregistered b).mp
      stays := fun _ b => (hregistered b).mpr }
  refine ⟨⟨hwired, fun b binding hb => ?_, ?_⟩, htethers⟩
  · exact h.quiescent b binding ((hbinding b).symm.trans hb)
  · rw [regrouped.awaiting]
    exact h.unawaited

/-- Points of the run in which a binding is set. -/
theorem reaches {b : BindingId} {content : Content ρ} {changed : Bool} {n : Moment κ ρ}
    (happ : app.Avoids x) (h : w.AtRest e x) (sets : SetsBeside app e held b content changed w w')
    (run : Reaches app (.setting b content w) n) :
    n.Wired e x w ∧ w.Tethers e x held n.world := by
  have hstart : Moment.Wired e x w (.setting b content w) :=
    .of_idle h.wired h.quiescent (Duty.Effect.binding?_run _)
      (List.forall_mem_singleton.mpr fun _ => trivial)
  obtain ⟨hwired, htethers⟩ := hstart.reaches happ sets.unbound run
  exact ⟨hwired, { htethers with stays := fun hheld => htethers.stays (sets.alive hheld) }⟩

/-- Once all changes are told of, everything is at rest again. -/
theorem set {b : BindingId} {content : Content ρ} {changed : Bool} (happ : app.Avoids x)
    (h : w.AtRest e x) (sets : SetsBeside app e held b content changed w w') :
    w'.AtRest e x ∧ w.Tethers e x held w' := by
  obtain ⟨hwired, htethers⟩ := h.reaches happ sets sets.reaches
  refine ⟨⟨hwired.wired, hwired.sound.settled.1, fun hx => h.unawaited ?_⟩, htethers⟩
  exact (Reaches.awaits (Duty.Effect.binding?_run _) sets.reaches).mem_iff.mp hx

theorem beside (happ : app.Avoids x) (h : w.AtRest e x) (step : Beside app e held w w') :
    w'.AtRest e x ∧ w.Tethers e x held w' := by
  cases step with
  | set sets => exact h.set happ sets
  | regroup regrouped => exact h.regroup regrouped

/-- Whatever is done beside the element. The induction is on the steps. -/
theorem besides (happ : app.Avoids x) (h : w.AtRest e x)
    (run : Relation.ReflTransGen (Beside app e held) w w') :
    w'.AtRest e x ∧ w.Tethers e x held w' := by
  induction run with
  | refl => exact ⟨h, refl_of _ w⟩
  | tail _ hstep ih =>
      obtain ⟨hrest, htethers⟩ := ih
      obtain ⟨hrest', htethers'⟩ := hrest.beside happ hstep
      exact ⟨hrest', trans_of _ htethers htethers'⟩

omit [Ordered ρ] in
/-- Who only changes what is followed, and tells nobody, leaves everything at rest. -/
theorem of_still (h : w.AtRest e x) (still : w.Still w') (wired : w'.Wired e x)
    (followed : w'.followed? e = current) (registered : ∀ b, w'.Registered b x ↔ current = some b) :
    w'.AtRest e x ∧ w'.Subscribed e x current := by
  have hquiescent := still.quiescent h.quiescent
  refine ⟨⟨wired, hquiescent, ?_⟩, .of_registered followed registered fun b binding hb => ?_⟩
  · rw [still.awaiting]
    exact h.unawaited
  · exact (hquiescent b binding hb).2.2

omit [Ordered ρ] in
/-- Binding the element tells nobody. -/
theorem bind {target : Option BindingId} {answer : Program κ ρ Answer} (h : w.AtRest e x)
    (run : perform app e (.bind target) w = .ok (answer, w')) :
    w'.AtRest e x ∧ w'.Subscribed e x (target.filter (w.canFollow e)) := by
  obtain ⟨hwired, hfollowed, hregistered⟩ := h.wired.perform run
  exact h.of_still (perform_still app e (.bind target) run) hwired hfollowed hregistered

end AtRest

end World

/-! ## What the watcher is told of -/

theorem World.Subscribed.meanwhile {b : BindingId} {content : Content ρ} {changed : Bool}
    {n : Moment κ ρ} (happ : app.Avoids x) (rest : w.AtRest e x) (h : w.Subscribed e x current)
    (sets : SetsBeside app e True b content changed w w')
    (run : Reaches app (.setting b content w) n) : n.world.Subscribed e x current := by
  obtain ⟨hwired, htethers⟩ := rest.reaches happ sets run
  exact h.of_tethers hwired.wired htethers trivial hwired.sound.nodup

/-- The binding that is followed tells the watcher of every change once, and no other binding calls
it. -/
theorem World.Subscribed.told {b : BindingId} {content : Content ρ} {changed : Bool}
    (happ : app.Avoids x) (rest : w.AtRest e x) (h : w.Subscribed e x current)
    (sets : SetsBeside app e True b content changed w w') :
    ∃ news, w'.history = w.history ++ news ∧ (∀ c, current ≠ some c → .called x c ∉ news) ∧
      ∀ c, current = some c → Entry.TellsOnce x c news := by
  have hidle := Duty.Effect.binding?_run (κ := κ) (.set b content fun _ => .done ())
  obtain ⟨news, htold⟩ := Reaches.told rest.quiescent sets.reaches
  have hfollow (c : BindingId) : Phase.follow c .idle news = some .idle :=
    (Reaches.concludes hidle sets.reaches).follow rest.quiescent htold.history c
  -- A round lists those who are registered and held when it begins.
  have hround {c : BindingId} {watchers : List WatcherId} (hmem : .round c watchers ∈ news) :
      watchers.Nodup ∧ ∃ u : World κ ρ, watchers = u.listeners c ∧ u.Subscribed e x current ∧
        u.watcherAlive x = true := by
    obtain ⟨before, later, hnews⟩ := List.append_of_mem hmem
    obtain ⟨-, hnodup, agenda, u, hreach, -, hlisteners⟩ :=
      htold.round c watchers before later hnews
    refine ⟨hnodup, u, hlisteners, h.meanwhile happ rest sets hreach, ?_⟩
    rw [World.watcherAlive, (rest.reaches happ sets hreach).1.wired.watcherHeld,
      sets.alive trivial _ hreach, Bool.or_true]
  refine ⟨news, htold.history, fun c hc => ?_, fun c hc => ?_⟩
  · refine Phase.not_called (hfollow c) fun watchers hmem hx => ?_
    obtain ⟨-, u, rfl, hu, -⟩ := hround hmem
    exact hu.elsewhere c hc (World.mem_listeners.mp hx).1
  · refine .of_follow (hfollow c) fun watchers hmem => ?_
    obtain ⟨hnodup, u, rfl, hu, halive⟩ := hround hmem
    refine List.count_eq_one_of_mem hnodup (World.mem_listeners.mpr ⟨?_, halive⟩)
    exact (hu.registered_iff c).mpr hc

/-! ## After the element was let go of -/

/-- A round that begins is to call those who listen then. -/
theorem Moment.Next.begins {c : BindingId} {watchers : List WatcherId} {agenda : List (Duty κ ρ)}
    (h : Next app ⟨.rounds c [] :: agenda, w⟩ ⟨.rounds c watchers :: agenda, w'⟩) :
    watchers = w.listeners c ∧ w' = w.inRound c := by
  generalize hafter : (⟨.rounds c watchers :: agenda, w'⟩ : Moment κ ρ) = m at h
  obtain ⟨run⟩ := h
  cases Duty.effect_of_discharge run with
  | begins =>
      cases hafter
      exact ⟨rfl, rfl⟩
  | settles =>
      -- The agenda would be as long as its rest.
      have hlength := congrArg (fun m : Moment κ ρ => m.agenda.length) hafter
      simp at hlength
  | still duty_binding | opens duty_binding | postpones duty_binding => cases duty_binding

/-- A round of a binding that begins when nobody holds the element drops its watcher: it is not
called in the round, and the binding never lists it again. -/
theorem World.AtRest.forgets {b c : BindingId} {content : Content ρ} {changed : Bool}
    {watchers : List WatcherId} {agenda : List (Duty κ ρ)} {u u' : World κ ρ} (happ : app.Avoids x)
    (h : w.AtRest e x) (sets : SetsBeside app e False b content changed w w')
    (before : Reaches app (.setting b content w) ⟨.rounds c [] :: agenda, u⟩)
    (gone : u.elementAlive e = false)
    (begins : Moment.Next app ⟨.rounds c [] :: agenda, u⟩ ⟨.rounds c watchers :: agenda, u'⟩) :
    x ∉ watchers ∧
      (∀ n, Reaches app ⟨.rounds c watchers :: agenda, u'⟩ n → ¬ n.world.Registered c x) ∧
      ∀ v, Relation.ReflTransGen (Beside app e False) w' v → ¬ v.Registered c x := by
  obtain ⟨hwired, -⟩ := h.reaches happ sets before
  have hdropped := hwired.dropped h.unawaited gone
  obtain ⟨rfl, rfl⟩ := begins.begins
  have hunlisted : ¬ (u.inRound c).Registered c x := by
    rw [registered_inRound]
    rintro ⟨hregistered, halive⟩
    exact hdropped (World.mem_listeners.mpr ⟨hregistered, halive rfl⟩)
  have hafter := before.tail begins
  have hlater (n : Moment κ ρ)
      (hn : Reaches app ⟨.rounds c (u.listeners c) :: agenda, u.inRound c⟩ n) :
      ¬ n.world.Registered c x := by
    obtain ⟨hwired', -⟩ := h.reaches happ sets hafter
    have htethers := (hwired'.reaches happ (fun n hn => sets.unbound n (hafter.trans hn)) hn).2
    exact fun hregistered => hunlisted (htethers.registered c hregistered)
  refine ⟨hdropped, hlater, fun v hv hregistered => ?_⟩
  have hend := hlater _ (Reaches.to_end hafter sets.reaches)
  exact hend ((((h.set happ sets).1.besides happ hv).2).registered c hregistered)

/-- A binding that is set from outside of any callback and changes begins a round at once. -/
theorem Reaches.exists_begins {b : BindingId} {content : Content ρ} {fuel : Nat}
    (quiescent : w.Quiescent) (run : setContent (.ofFuel app fuel) b content w = .ok (true, w')) :
    ∃ agenda u v watchers, Reaches app (.setting b content w) ⟨.rounds b [] :: agenda, u⟩ ∧
      w.SameHolders u ∧
      Moment.Next app ⟨.rounds b [] :: agenda, u⟩ ⟨.rounds b watchers :: agenda, v⟩ := by
  obtain ⟨rounds, u, hassign, -⟩ := (Reentry.ofFuel_faithful app fuel).setContent run
  rcases assign_eq_ok hassign with ⟨hno, -⟩ | ⟨binding, hbinding, -, -, rfl, rfl⟩
  · cases hno
  · have hquiet := (quiescent b binding hbinding).1
    rw [hquiet] at hassign
    have hset : (Duty.run (.set b content fun _ => .done ())).discharge app w =
        .ok ([.rounds b [], .run (.done ())], w.assigned b content) :=
      bind_eq_ok.mpr ⟨(true, [.rounds b []]), _, hassign, rfl⟩
    have hfirst : Reaches app (.setting b content w)
        ⟨[.rounds b [], .run (.done ())], w.assigned b content⟩ := .single (.discharge hset)
    have hpending := World.flags_snd (w.assigned b content) b
    rw [World.flags_assigned hbinding] at hpending
    have hbegin : (Duty.rounds b []).discharge app (w.assigned b content) =
        .ok ([.rounds b ((w.assigned b content).listeners b)],
          (w.assigned b content).inRound b) := by
      refine bind_eq_ok.mpr ⟨_, _, get_eq_ok.mpr ⟨rfl, rfl⟩, ?_⟩
      rw [if_pos hpending.symm]
      exact bind_eq_ok.mpr ⟨_, _, rfl, rfl⟩
    exact ⟨_, _, _, _, hfirst, World.sameHolders_assigned w b content, .discharge hbegin⟩

/-- Once nobody holds the element any more, a binding that changes never lists its watcher again. -/
theorem World.AtRest.forgotten {b : BindingId} {content : Content ρ} (happ : app.Avoids x)
    (h : w.AtRest e x) (gone : w.elementAlive e = false)
    (sets : SetsBeside app e False b content true w w') {v : World κ ρ}
    (later : Relation.ReflTransGen (Beside app e False) w' v) : ¬ v.Registered b x := by
  obtain ⟨fuel, hrun⟩ := sets.run
  obtain ⟨agenda, u, u', watchers, hbefore, hholders, hbegins⟩ :=
    Reaches.exists_begins h.quiescent hrun
  have hgone : u.elementAlive e = false := (hholders.element e).trans gone
  exact (h.forgets happ sets hbefore hgone hbegins).2.2 v later

/-! ## From the creation on -/

omit [Ordered ρ] in
/-- An element that was added with a watcher is at rest, and nobody lists the watcher, if nothing
referred to it before. -/
theorem World.equipped_atRest {element : Element κ} (watcher : Watcher κ ρ)
    (quiescent : w.Quiescent) (awaited : ∀ y ∈ w.awaiting, y.index < w.watchers.size)
    (followers : ∀ d el y, w.element? d = some el → el.follower = some y →
      y.index < w.watchers.size)
    (listed : ∀ b y, w.Registered b y → y.index < w.watchers.size)
    (bindable : element.body.bindable = true) :
    (w.equipped element watcher).AtRest ⟨w.elements.size⟩ ⟨w.watchers.size⟩ ∧
      ∀ b, ¬ (w.equipped element watcher).Registered b ⟨w.watchers.size⟩ := by
  have hfree (b : BindingId) : ¬ (w.equipped element watcher).Registered b ⟨w.watchers.size⟩ :=
    fun hb => Nat.lt_irrefl _ (listed b _ hb)
  have hwatcher := watcher?_equipped w element watcher
  have hwired : (w.equipped element watcher).Wired ⟨w.elements.size⟩ ⟨w.watchers.size⟩ :=
    { follower := follower?_equipped followers element watcher
      bindable := ⟨_, element?_equipped w element watcher, bindable⟩
      owner := congrArg (Option.map (·.owner)) hwatcher
      registered := fun b hb => absurd hb (hfree b) }
  exact ⟨⟨hwired, quiescent, fun hx => Nat.lt_irrefl _ (awaited _ hx)⟩, hfree⟩

omit [Ordered ρ] in
/-- An element is created with a watcher that is listed by the binding it follows from the start, if
nothing referred to the watcher before. -/
theorem Machine.create_atRest {window : Option WindowId} {plan : Blueprint κ ρ}
    {follower : Option (Scalar ρ)} (quiescent : w.Quiescent)
    (awaited : ∀ y ∈ w.awaiting, y.index < w.watchers.size)
    (followers : ∀ d el y, w.element? d = some el → el.follower = some y →
      y.index < w.watchers.size)
    (listed : ∀ b y, w.Registered b y → y.index < w.watchers.size)
    (planned : plan.follower = some follower) (bindable : plan.body.bindable = true)
    (there : ∀ b, plan.binding = some b → (w.binding? b).isSome)
    (made : create window plan w = .ok (e, w')) :
    w'.AtRest e ⟨w.watchers.size⟩ ∧ w'.Subscribed e ⟨w.watchers.size⟩ plan.binding := by
  obtain ⟨rfl, v, hv, hbound⟩ := create_follower_eq_ok planned made
  obtain ⟨hrest, hfree⟩ : v.AtRest ⟨w.elements.size⟩ ⟨w.watchers.size⟩ ∧
      ∀ b, ¬ v.Registered b ⟨w.watchers.size⟩ := by
    rw [hv]
    exact World.equipped_atRest _ quiescent awaited followers listed bindable
  rcases hbound with ⟨hbinding, rfl⟩ | ⟨b, hbinding, hbind⟩
  · rw [hbinding]
    refine hrest.of_still (refl_of _ _) hrest.wired ?_ fun c =>
      iff_of_false (hfree c) (Option.some_ne_none c).symm
    rw [hv, World.followed?]
    exact congrArg (Option.bind · _) (World.element?_equipped _ _ _)
  · have hthere : (v.binding? b).isSome := by
      rw [hv]
      exact there b hbinding
    obtain ⟨hwired, hfollowed, hregistered⟩ :=
      hrest.wired.bind (fun c hc => Option.some.inj hc ▸ hthere) hbind
    rw [hbinding]
    exact hrest.of_still (bind_still _ _ hbind) hwired hfollowed hregistered

/-- In a whole life the watcher stays listed where it should. The induction is on what is done. -/
theorem Life.atRest {first : Option BindingId} {start : World κ ρ} (happ : app.Avoids x)
    (rest : start.AtRest e x) (h : start.Subscribed e x first)
    (life : Life app e first start current w) : w.AtRest e x ∧ w.Subscribed e x current := by
  induction life with
  | start => exact ⟨rest, h⟩
  | bind _ run ih => exact ih.1.bind run
  | beside _ step ih =>
      obtain ⟨hrest, htethers⟩ := ih.1.beside happ step
      exact ⟨hrest, ih.2.of_tethers hrest.wired htethers trivial fun b binding hb =>
        (hrest.quiescent b binding hb).2.2⟩

/-- How an element is subscribed to the binding that it was bound to last, whatever is done then. -/
structure Subscription (app : App κ ρ) (e : ElementId) (x : WatcherId) (current : Option BindingId)
    (w : World κ ρ) : Prop where
  /-- The binding lists the watcher of the element once, and no other binding lists it. -/
  listed : w.Subscribed e x current
  /-- The element can always be bound once more. -/
  binds : ∀ target, ∃ u, perform app e (.bind target) w = .ok (.done .done, u)
  /-- That is so at every point of a run in which a binding is set. -/
  meanwhile : ∀ b content changed w' n, SetsBeside app e True b content changed w w' →
    Reaches app (.setting b content w) n → n.world.Subscribed e x current
  /-- When a binding is set, the watcher is told once of every change of the binding that the
  element follows, and no other binding calls it. -/
  told : ∀ b content changed w', SetsBeside app e True b content changed w w' →
    ∃ news, w'.history = w.history ++ news ∧ (∀ c, current ≠ some c → .called x c ∉ news) ∧
      ∀ c, current = some c → Entry.TellsOnce x c news
  /-- Once nobody holds the element, a binding that changes never lists the watcher again. -/
  forgotten : ∀ u b content u' later, Relation.ReflTransGen (Beside app e False) w u →
    u.elementAlive e = false → SetsBeside app e False b content true u u' →
    Relation.ReflTransGen (Beside app e False) u' later → ¬ later.Registered b x
  /-- Nor does a binding of which a round begins while nobody holds the element, whoever has set it,
  and the round does not call the watcher. -/
  dropped : ∀ u b content changed u' c watchers agenda v v',
    Relation.ReflTransGen (Beside app e False) w u →
    SetsBeside app e False b content changed u u' →
    Reaches app (.setting b content u) ⟨.rounds c [] :: agenda, v⟩ → v.elementAlive e = false →
    Moment.Next app ⟨.rounds c [] :: agenda, v⟩ ⟨.rounds c watchers :: agenda, v'⟩ →
      x ∉ watchers ∧
      (∀ n, Reaches app ⟨.rounds c watchers :: agenda, v'⟩ n → ¬ n.world.Registered c x) ∧
      ∀ later, Relation.ReflTransGen (Beside app e False) u' later → ¬ later.Registered c x

/-- An element that can be bound, from its creation on: however often it is bound, and whatever is
set in between, its watcher is listed once by the binding that it was bound to last, and by no other
one. -/
theorem Life.subscribed {window : Option WindowId} {plan : Blueprint κ ρ}
    {follower : Option (Scalar ρ)} {start u : World κ ρ} (happ : app.Avoids ⟨w.watchers.size⟩)
    (quiescent : w.Quiescent) (awaited : ∀ y ∈ w.awaiting, y.index < w.watchers.size)
    (followers : ∀ d el y, w.element? d = some el → el.follower = some y →
      y.index < w.watchers.size)
    (listed : ∀ b y, w.Registered b y → y.index < w.watchers.size)
    (planned : plan.follower = some follower) (bindable : plan.body.bindable = true)
    (there : ∀ b, plan.binding = some b → (w.binding? b).isSome)
    (made : create window plan w = .ok (e, start))
    (life : Life app e plan.binding start current u) :
    Subscription app e ⟨w.watchers.size⟩ current u := by
  obtain ⟨hstart, hfirst⟩ :=
    create_atRest quiescent awaited followers listed planned bindable there made
  obtain ⟨hrest, hsubscribed⟩ := life.atRest happ hstart hfirst
  exact
    { listed := hsubscribed
      binds := fun target => hrest.wired.performs app target
      meanwhile := fun _ _ _ _ _ sets run => hsubscribed.meanwhile happ hrest sets run
      told := fun _ _ _ _ sets => hsubscribed.told happ hrest sets
      forgotten := fun _ _ _ _ _ beside gone sets later =>
        (hrest.besides happ beside).1.forgotten happ gone sets later
      dropped := fun _ _ _ _ _ _ _ _ _ _ beside sets before gone begins =>
        (hrest.besides happ beside).1.forgets happ sets before gone begins }

/-! ## A label that is bound twice -/

/-- The points of a run are scenes of a course. -/
theorem Reaches.course {m n : Moment κ ρ} {ctx : EventContext} {y : WindowId}
    (run : Reaches app m n) : ∃ asked made,
      Course app ctx y ⟨m.agenda.map .duty, m.world, [], []⟩
        ⟨n.agenda.map .duty, n.world, asked, made⟩ := by
  induction run with
  | refl => exact ⟨[], [], .refl⟩
  | tail _ hstep ih =>
      obtain ⟨asked, made, hcourse⟩ := ih
      obtain @⟨duty, rest, left, v, v', hrun⟩ := hstep
      have hnext : Scene.Next app ctx y ⟨.duty duty :: rest.map .duty, v, asked, made⟩ _ :=
        .perform (bind_eq_ok.mpr ⟨left, v', hrun, rfl⟩)
      rw [← List.map_append] at hnext
      exact ⟨_, _, hcourse.tail hnext⟩

/-- The scene so many steps after a binding came to be set. -/
def Scene.setting (app : App κ ρ) (b : BindingId) (content : Content ρ) (w : World κ ρ)
    (steps : Nat) : Scene κ ρ :=
  (Scene.mk [.run (.set b content fun _ => .done ())] w [] []).after app {} ⟨0⟩ steps

/-- The state in which something ends. -/
def Machine.leaves {α : Type} (m : Machine κ ρ α) (w : World κ ρ) : World κ ρ :=
  (m w).toOption.elim w (·.2)

omit [Ordered ρ] in
theorem Machine.exists_leaves {α : Type} {m : Machine κ ρ α} (h : (m w).toOption.isSome = true) :
    ∃ a, m w = .ok (a, m.leaves w) := by
  obtain ⟨a, w', hrun⟩ := exists_eq_ok h
  refine ⟨a, ?_⟩
  rw [leaves, hrun]
  rfl

/-- Whether a binding is set beside an element can be computed. -/
theorem SetsBeside.of_scenes {b : BindingId} {content : Content ρ} {changed : Bool}
    (fuel steps : Nat)
    (ends : (setContent (.ofFuel app fuel) b content w).toOption.map (·.1) = some changed)
    (done : (Scene.setting app b content w steps).acts = [])
    (scenes : ∀ n ≤ steps,
      (Moment.mk ((Scene.setting app b content w n).acts.filterMap Act.duty?)
        (Scene.setting app b content w n).world).binds? = none ∧
      (held → (Scene.setting app b content w n).world.elementAlive e = true)) :
    SetsBeside app e held b content changed w
      ((setContent (.ofFuel app fuel) b content).leaves w) := by
  have hmoment {n : Moment κ ρ} (hn : Reaches app (.setting b content w) n) :
      n.binds? = none ∧ (held → n.world.elementAlive e = true) := by
    obtain ⟨asked, made, hcourse⟩ := hn.course
    have hscene := Course.forall_scene (P := fun c =>
      (Moment.mk (c.acts.filterMap Act.duty?) c.world).binds? = none ∧
        (held → c.world.elementAlive e = true)) done scenes hcourse
    rwa [List.filterMap_map, show Act.duty? ∘ Act.duty = some from rfl, List.filterMap_some]
      at hscene
  obtain ⟨ended, hended, -⟩ := Option.map_eq_some_iff.mp ends
  obtain ⟨answer, hrun⟩ := exists_leaves (Option.isSome_of_eq_some hended)
  rw [hrun] at ends
  cases ends
  refine ⟨⟨fuel, hrun⟩, fun n hn => ?_, fun hheld n hn => (hmoment hn).2 hheld⟩
  rw [(hmoment hn).1]
  simp

/-- An application whose watcher passes the value of the first binding on to the second. -/
def App.forwarding : App Unit Empty :=
  { App.idle with
    watcher := fun _ _ => .read ⟨0⟩ fun
      | some (_, content) => .set ⟨1⟩ content fun _ => .done ()
      | none => .done () }

theorem App.forwarding_avoids (x : WatcherId) : App.forwarding.Avoids x := by
  constructor
  case watcher =>
    rintro - - (_ | found)
    · trivial
    · exact fun _ => trivial
  all_goals intros; trivial

/-- Two bindings, the first of which lists the watcher of the application. -/
def World.shelf : World Unit Empty where
  bindings := #[{ name := "old", content := .one (.text "a"), watchers := [⟨0⟩] },
    { name := "new", content := .one (.text "n") }]
  watchers := #[{ watcher := .callback () }]

namespace World.shelf

/-- A label that follows the first binding from the start. -/
def caption : Blueprint Unit Empty where
  body := .label { format := .text }
  follower := some (some (.text ""))
  binding := some ⟨0⟩

/-- The label is created. -/
def captioned : World Unit Empty := (create none caption).leaves shelf

/-- Then it is put up. -/
def putUp : World Unit Empty := { captioned with pinned := [⟨0⟩] }

/-- Its binding is set, and so is the other one by the watcher. -/
def renamed : World Unit Empty :=
  (setContent (.ofFuel .forwarding 3) ⟨0⟩ (.one (.text "x"))).leaves putUp

/-- The label is bound to the other one. -/
def moved : World Unit Empty := (perform .forwarding ⟨0⟩ (.bind (some ⟨1⟩))).leaves renamed

/-- The first binding is set once more. -/
def retold : World Unit Empty :=
  (setContent (.ofFuel .forwarding 3) ⟨0⟩ (.one (.text "y"))).leaves moved

/-- Then the label is let go of. -/
def released : World Unit Empty := { moved with pinned := [] }

/-- The other binding is set. -/
def pruned : World Unit Empty :=
  (setContent (.ofFuel .forwarding 3) ⟨1⟩ (.one (.text "z"))).leaves released

theorem quiescent : shelf.Quiescent := by
  rintro ⟨i⟩ binding hb
  match i with
  | 0 =>
      cases hb
      exact ⟨rfl, rfl, List.nodup_singleton _⟩
  | 1 =>
      cases hb
      exact ⟨rfl, rfl, List.nodup_nil⟩
  | i + 2 => cases hb

/-- Only the watcher of the application is listed. -/
theorem listed (b : BindingId) (y : WatcherId) (registered : shelf.Registered b y) :
    y.index < shelf.watchers.size := by
  obtain ⟨i⟩ := b
  obtain ⟨binding, hb, hy⟩ := registered
  match i with
  | 0 =>
      cases hb
      rw [List.mem_singleton.mp hy]
      exact Nat.zero_lt_one
  | 1 =>
      cases hb
      cases hy
  | i + 2 => cases hb

/-- The label is held while the bindings are set. -/
theorem renames : SetsBeside .forwarding ⟨0⟩ True ⟨0⟩ (.one (.text "x")) true putUp renamed :=
  .of_scenes 3 20 (by decide +kernel) (List.isEmpty_iff.mp (by decide +kernel)) (by decide +kernel)

theorem retells : SetsBeside .forwarding ⟨0⟩ True ⟨0⟩ (.one (.text "y")) true moved retold :=
  .of_scenes 3 20 (by decide +kernel) (List.isEmpty_iff.mp (by decide +kernel)) (by decide +kernel)

theorem prunes : SetsBeside .forwarding ⟨0⟩ False ⟨1⟩ (.one (.text "z")) true released pruned :=
  .of_scenes 3 20 (by decide +kernel) (List.isEmpty_iff.mp (by decide +kernel)) (by decide +kernel)

end World.shelf

open World.shelf in
/-- The label is told once of what the watcher passes on, and of no change of the first binding.
After it was let go of, the other binding lists it no more. -/
theorem Life.subscribed_forwarding :
    ∃ start, create none caption World.shelf = .ok (⟨0⟩, start) ∧
      Life App.forwarding ⟨0⟩ (some ⟨0⟩) start (some ⟨1⟩) moved ∧
      Subscription App.forwarding ⟨0⟩ ⟨1⟩ (some ⟨1⟩) moved ∧
      (∃ news, retold.history = moved.history ++ news ∧ .called ⟨1⟩ ⟨0⟩ ∉ news ∧
        Entry.TellsOnce ⟨1⟩ ⟨1⟩ news) ∧
      ¬ pruned.Registered ⟨1⟩ ⟨1⟩ := by
  obtain ⟨e, hmade⟩ : ∃ e, create none caption World.shelf = .ok (e, captioned) :=
    exists_leaves (by decide +kernel)
  obtain ⟨rfl, -⟩ := create_follower_eq_ok rfl hmade
  obtain ⟨answer, hbind⟩ : ∃ answer, perform App.forwarding ⟨0⟩ (.bind (some ⟨1⟩)) renamed =
      .ok (answer, moved) := exists_leaves (by decide +kernel)
  have hput : captioned.Regrouped ⟨0⟩ putUp := ⟨rfl, fun _ => rfl, rfl, rfl, rfl⟩
  have hrelease : moved.Regrouped ⟨0⟩ released := ⟨rfl, fun _ => rfl, rfl, rfl, rfl⟩
  have hlife : Life App.forwarding ⟨0⟩ (some ⟨0⟩) captioned
      ((some ⟨1⟩ : Option BindingId).filter (renamed.canFollow ⟨0⟩)) moved :=
    .bind (.beside (.beside .start (.regroup hput)) (.set renames)) hbind
  rw [show (some ⟨1⟩ : Option BindingId).filter (renamed.canFollow ⟨0⟩) = some ⟨1⟩ by
    decide +kernel] at hlife
  have hsubscription : Subscription App.forwarding ⟨0⟩ ⟨1⟩ (some ⟨1⟩) moved :=
    hlife.subscribed (App.forwarding_avoids _) quiescent (fun _ hy => nomatch hy)
      (fun _ _ _ hel => nomatch hel) listed rfl rfl (by rintro _ ⟨⟩; rfl) hmade
  obtain ⟨news, hhistory, hothers, hcurrent⟩ := hsubscription.told _ _ _ _ retells
  refine ⟨captioned, hmade, hlife, hsubscription, ?_, ?_⟩
  · exact ⟨news, hhistory, hothers ⟨0⟩ (by decide), hcurrent ⟨1⟩ rfl⟩
  · exact hsubscription.forgotten _ _ _ _ _ (.single (.regroup hrelease)) (by decide +kernel) prunes
      .refl

end Trellis
