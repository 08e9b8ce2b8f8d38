import Trellis.Proofs.Machine.Permissive
import Trellis.Proofs.Mirror.Owed
import Trellis.Proofs.Watching.Deeds

/-!
# Deeds that are entered in a list

Watchers are registered and removed, and a round that begins drops those who are gone. Whatever else
is done, the list of a binding stays what it is, and no watcher comes back that the application has
let go of.

* `World.Forsaken` — a watcher of the application that is gone for good.
* `World.Entered` — some deeds are done to a list, and nobody comes back.
* `Machine.watch_entered` and its like — the deeds of the parts of a step.
-/

namespace Trellis

open Machine

open World (Discreet Amends Recopies Refits Hands)

variable {κ ρ : Type} {b c : BindingId} {e : ElementId} {x y : WatcherId}
  {now later : List Deed} {u w w' : World κ ρ}

namespace World

/-- The list of a binding. -/
def roll? (w : World κ ρ) (b : BindingId) : Option (List WatcherId) :=
  (w.binding? b).map (·.watchers)

/-- The watchers on the list of a binding that are gone. -/
def departed (w : World κ ρ) (b : BindingId) : List WatcherId :=
  ((w.roll? b).getD []).filter fun x => !w.watcherAlive x

/-- Those who are alive stay on the list when the others are struck off. -/
theorem filter_departed {roll : List WatcherId} (h : w.roll? b = some roll) :
    roll.filter (· ∉ w.departed b) = roll.filter w.watcherAlive := by
  refine List.filter_congr fun x hx => ?_
  simp [departed, h, hx]

/-- What may keep a watcher alive: its element, or else the application. -/
def holder? (w : World κ ρ) (x : WatcherId) : Option (Option ElementId × Bool) :=
  (w.watcher? x).map fun cell => (cell.owner, cell.dropped)

/-- The watcher is the application's own. -/
def Own (w : World κ ρ) (x : WatcherId) : Prop := (w.watcher? x).map (·.owner) = some none

/-- The application has let go of a watcher of its own, and no round is to call it. -/
def Forsaken (w : World κ ρ) (x : WatcherId) : Prop :=
  w.holder? x = some (none, true) ∧ x ∉ w.awaiting

/-- Those are the watchers of the application that are not alive. -/
theorem forsaken_iff : w.Forsaken x ↔ w.Own x ∧ w.watcherAlive x = false := by
  rw [Forsaken, Own, holder?, watcherAlive, watcherHeld]
  cases w.watcher? x with
  | none => simp
  | some cell =>
      obtain ⟨watcher, owner, dropped⟩ := cell
      cases owner with
      | none => cases dropped <;> simp
      | some e => simp

/-- Some deeds are done to the list of a binding. Everybody who is there stays there with the same
owner, nobody comes back, and those who are registered are there, alive or not. -/
structure Entered (b : BindingId) (deeds : List Deed) (w w' : World κ ρ) : Prop where
  roll : w'.roll? b = (w.roll? b).map (Deed.replay deeds)
  owner : ∀ x owner, (w.watcher? x).map (·.owner) = some owner →
    (w'.watcher? x).map (·.owner) = some owner
  forsaken : ∀ x, w.Forsaken x → w'.Forsaken x
  watched : ∀ x, .watch x ∈ deeds → (w'.watcher? x).isSome

namespace Entered

/-- Whoever is there stays there. -/
theorem isSome (h : w.Entered b now w') (there : (w.watcher? x).isSome) :
    (w'.watcher? x).isSome := by
  obtain ⟨cell, hcell⟩ := Option.isSome_iff_exists.mp there
  have howner := h.owner x cell.owner (by rw [hcell, Option.map_some])
  rw [← Option.isSome_map, howner, Option.isSome_some]

/-- Only the watchers that the application had before are its own, or new. -/
theorem own (h : w.Entered b now w') (there : (w.watcher? x).isSome) (own : w'.Own x) :
    w.Own x := by
  obtain ⟨cell, hcell⟩ := Option.isSome_iff_exists.mp there
  have howner := h.owner x cell.owner (by rw [hcell, Option.map_some])
  rw [Own, howner] at own
  rw [Own, hcell, Option.map_some, own]

theorem trans (h : w.Entered b now u) (h' : u.Entered b later w') :
    w.Entered b (now ++ later) w' where
  roll := by
    rw [h'.roll, h.roll, Option.map_map]
    exact congrArg (Option.map · _) (funext fun roll => (Deed.replay_append now later roll).symm)
  owner x owner hx := h'.owner x owner (h.owner x owner hx)
  forsaken x hx := h'.forsaken x (h.forsaken x hx)
  watched x hx := by
    rcases List.mem_append.mp hx with hx | hx
    · exact h'.isSome (h.watched x hx)
    · exact h'.watched x hx

/-- A change of anything but the list, by which watchers may be added. -/
theorem of_kept (roll : w'.roll? b = w.roll? b)
    (holders : ∀ x holder, w.holder? x = some holder → w'.holder? x = some holder)
    (awaiting : w'.awaiting = w.awaiting) : w.Entered b [] w' where
  roll := by rw [roll, Deed.map_replay_nil]
  owner x owner hx := by
    have howner (v : World κ ρ) : (v.watcher? x).map (·.owner) = (v.holder? x).map (·.1) := by
      rw [holder?, Option.map_map]
      rfl
    rw [howner] at hx ⊢
    obtain ⟨holder, hholder, rfl⟩ := Option.map_eq_some_iff.mp hx
    rw [holders x holder hholder, Option.map_some]
  forsaken x hx := ⟨holders x _ hx.1, awaiting ▸ hx.2⟩
  watched x hx := absurd hx List.not_mem_nil

theorem of_same (roll : w'.roll? b = w.roll? b) (holders : ∀ x, w'.holder? x = w.holder? x)
    (awaiting : w'.awaiting = w.awaiting) : w.Entered b [] w' :=
  of_kept roll (fun x _ hx => (holders x).trans hx) awaiting

/-- A change without deeds comes before or after those that are done. -/
theorem before (h : w.Entered b [] u) (h' : u.Entered b later w') : w.Entered b later w' :=
  h.trans h'

theorem after (h : w.Entered b now u) (h' : u.Entered b [] w') : w.Entered b now w' :=
  List.append_nil now ▸ h.trans h'

/-! ## Changes of anything else -/

instance : IsPreorder (World κ ρ) (Entered b []) where
  refl _ := of_same rfl (fun _ => rfl) rfl
  trans _ _ _ := trans

theorem modifyWatcher (w : World κ ρ) (x : WatcherId) {f : WatcherCell κ ρ → WatcherCell κ ρ}
    (owner : ∀ cell, (f cell).owner = cell.owner)
    (dropped : ∀ cell, cell.dropped = true → (f cell).dropped = true) :
    w.Entered b [] (w.modifyWatcher x f) where
  roll := (Deed.map_replay_nil _).symm
  owner y o hy := by
    rw [watcher?_modifyWatcher]
    split
    · obtain ⟨cell, hcell, rfl⟩ := Option.map_eq_some_iff.mp hy
      rw [hcell, Option.map_some, Option.map_some, owner]
    · exact hy
  forsaken y hy := by
    obtain ⟨hholder, hawaiting⟩ := hy
    obtain ⟨cell, hcell, heq⟩ := Option.map_eq_some_iff.mp hholder
    obtain ⟨howner, hdropped⟩ := Prod.mk.inj heq
    refine ⟨?_, hawaiting⟩
    rw [holder?, watcher?_modifyWatcher]
    split
    · rw [hcell, Option.map_some, Option.map_some, owner, dropped cell hdropped, howner]
    · exact hholder
  watched y hy := absurd hy List.not_mem_nil

instance : Discreet (Entered (κ := κ) (ρ := ρ) b []) where
  madeUp _ _ := of_same rfl (fun _ => rfl) rfl
  recorded _ _ := of_same rfl (fun _ => rfl) rfl
  dropped w x := modifyWatcher w x (fun _ => rfl) fun _ _ => rfl
  event _ _ := of_same rfl (fun _ => rfl) rfl
  asked _ _ := of_same rfl (fun _ => rfl) rfl

instance : Recopies (Entered (κ := κ) (ρ := ρ) b []) x where
  copied w _ := modifyWatcher w x (fun _ => rfl) fun _ => id

instance (value : Scalar ρ) : Amends (Entered (κ := κ) b []) x value where
  amended w := trans_of (Entered b []) (Recopies.copied w (·.edit value))
    (Discreet.recorded _ (.edited x))

instance : Refits (Entered (κ := κ) (ρ := ρ) b []) e where
  refitted _ _ _ := of_same rfl (fun _ => rfl) rfl

instance : Hands (Entered (κ := κ) (ρ := ρ) b []) where
  handed _ _ _ := of_same rfl (fun _ => rfl) rfl

/-! ## Changes of bindings -/

theorem roll?_modifyBinding {f : Binding ρ → Binding ρ}
    (h : ∀ binding, (f binding).watchers = Deed.replay now binding.watchers) :
    (w.modifyBinding b f).roll? b = (w.roll? b).map (Deed.replay now) := by
  rw [roll?, binding?_modifyBinding_self, roll?, Option.map_map, Option.map_map]
  exact congrArg (Option.map · _) (funext h)

/-- A change of a binding that does not touch its list. -/
theorem modifyBinding (w : World κ ρ) (c : BindingId) {f : Binding ρ → Binding ρ}
    (h : ∀ binding, (f binding).watchers = binding.watchers) :
    w.Entered b [] (w.modifyBinding c f) := by
  refine of_same ?_ (fun _ => rfl) rfl
  rw [roll?, binding?_modifyBinding]
  split
  · rw [Option.map_map]
    exact congrArg (Option.map · _) (funext h)
  · rfl

/-- The same, and something is recorded. -/
theorem modifyBinding_record (w : World κ ρ) (c : BindingId) {f : Binding ρ → Binding ρ}
    (h : ∀ binding, (f binding).watchers = binding.watchers) (entry : Entry) :
    w.Entered b [] ((w.modifyBinding c f).record entry) :=
  trans_of (Entered b []) (modifyBinding w c h) (Discreet.recorded _ entry)

/-- A change of the list of another binding. -/
theorem modifyBinding_of_ne (w : World κ ρ) {f : Binding ρ → Binding ρ} (hne : c ≠ b) :
    w.Entered b [] (w.modifyBinding c f) := by
  refine of_same ?_ (fun _ => rfl) rfl
  rw [roll?, binding?_modifyBinding, if_neg hne]
  rfl

end Entered

/-! ## Registering and removing watchers -/

/-- A deed is done to the list of a binding. -/
theorem Entered.deed {d : Deed} {f : Binding ρ → Binding ρ}
    (done : ∀ binding, (f binding).watchers = Deed.apply binding.watchers d)
    (there : ∀ y, d = .watch y → (w.watcher? y).isSome) :
    w.Entered b (if c = b then [d] else []) (w.modifyBinding c f) := by
  by_cases hc : c = b
  · subst hc
    rw [if_pos rfl]
    refine ⟨roll?_modifyBinding done, fun _ _ => id, fun _ => id, fun y hy => ?_⟩
    exact there y (List.mem_singleton.mp hy).symm
  · rw [if_neg hc]
    exact modifyBinding_of_ne w hc

/-- The deeds of registering a watcher with a binding, as far as they concern the list of `b`. An id
that nobody has cannot be registered. -/
def watching (w : World κ ρ) (b : BindingId) (x : WatcherId) (c : BindingId) : List Deed :=
  if c = b ∧ (w.watcher? x).isSome then [.watch x] else []

/-- The deeds of removing a watcher from a binding. -/
def unwatching (b : BindingId) (x : WatcherId) (c : BindingId) : List Deed :=
  if c = b then [.unwatch x] else []

/-- The deeds of binding an element: its watcher leaves what the element follows, and is registered
with the target. -/
def rebinding (w : World κ ρ) (b : BindingId) (e : ElementId) (target : Option BindingId) :
    List Deed :=
  match w.element? e with
  | none => []
  | some element =>
    match element.follower with
    | none => []
    | some y => element.binding.elim [] (unwatching b y) ++ target.elim [] (w.watching b y)

theorem round_notMem_rebinding {target : Option BindingId} {gone : List WatcherId} :
    .round gone ∉ w.rebinding b e target := by
  rw [rebinding]
  cases w.element? e with
  | none => exact List.not_mem_nil
  | some element =>
      cases hfollower : element.follower with
      | none => simp only [hfollower, List.not_mem_nil, not_false_eq_true]
      | some y =>
          simp only [hfollower]
          cases element.binding <;> cases target <;> simp [watching, unwatching]

end World

namespace Machine

open World (Entered watching unwatching)

theorem watch_entered (run : watch x c w = .ok ((), w')) :
    w.Entered b (w.watching b x c) w' := by
  obtain rfl := modify_eq_ok.mp run
  by_cases hthere : (w.watcher? x).isSome
  · simp only [watching, hthere, and_true, if_true]
    refine Entered.deed (fun binding => ?_) fun y hy => ?_
    · rw [Binding.watch, Deed.apply]
      exact apply_ite Binding.watchers _ _ _
    · obtain rfl := Deed.watch.inj hy
      exact hthere
  · rw [watching, if_neg fun h => hthere h.2, if_neg hthere]
    exact refl_of (Entered b []) w

theorem unwatch_entered (run : unwatch x c w = .ok ((), w')) :
    w.Entered b (unwatching b x c) w' := by
  obtain rfl := modify_eq_ok.mp run
  exact Entered.deed (fun _ => rfl) (by simp)

theorem attach_entered (run : attach x c w = .ok ((), w')) :
    w.Entered b (w.watching b x c) w' := by
  obtain ⟨_, u, hwatch, htake⟩ := bind_eq_ok.mp run
  exact (watch_entered hwatch).after (takeOver_respects x c htake)

theorem unfollow_entered (run : unfollow e x c w = .ok ((), w')) :
    w.Entered b (unwatching b x c) w' := by
  obtain ⟨_, u, hleave, hunwatch⟩ := bind_eq_ok.mp run
  obtain rfl := modify_eq_ok.mp hleave
  have hleft : w.Entered b [] (w.modifyElement e ({ · with binding := none })) :=
    .of_same rfl (fun _ => rfl) rfl
  exact hleft.before (unwatch_entered hunwatch)

theorem follow_entered {element : Element κ} (run : follow e element x c w = .ok ((), w')) :
    w.Entered b (w.watching b x c) w' := by
  obtain ⟨_, u, hattach, run⟩ := bind_eq_ok.mp run
  refine (attach_entered hattach).after ((?_ : Respects (Entered b []) _) run)
  refine .bind (refit_respects e fun _ => ⟨rfl, rfl, rfl, rfl⟩) fun _ => ?_
  split
  · exact invalidate_respects _
  · exact .pure _

theorem bind_entered {target : Option BindingId} (run : bind e target w = .ok ((), w')) :
    w.Entered b (w.rebinding b e target) w' := by
  have hnothing {f : World κ ρ → Machine κ ρ Unit} (hf : f w = pure ())
      (run : (get >>= f : Machine κ ρ Unit) w = .ok ((), w')) : w.Entered b [] w' := by
    rw [get_bind_eq_ok, hf] at run
    obtain ⟨-, rfl⟩ := pure_eq_ok.mp run
    exact refl_of (Entered b []) w
  cases helement : w.element? e with
  | none =>
      rw [World.rebinding, helement]
      exact hnothing (by simp only [helement]) run
  | some element =>
      cases hfollower : element.follower with
      | none =>
          simp only [World.rebinding, helement, hfollower]
          exact hnothing (by simp only [helement, hfollower]) run
      | some y =>
          simp only [World.rebinding, helement, hfollower]
          obtain ⟨v, hleave, hfollow⟩ := bind_follower_eq_ok helement hfollower run
          have hleft : w.Entered b (element.binding.elim [] (unwatching b y)) v ∧
              v.watcher? y = w.watcher? y := by
            cases hbinding : element.binding with
            | none =>
                rw [hbinding] at hleave
                obtain ⟨-, rfl⟩ := pure_eq_ok.mp hleave
                exact ⟨refl_of (Entered b []) w, rfl⟩
            | some old =>
                rw [hbinding] at hleave
                exact ⟨unfollow_entered hleave, unfollow_eq_ok hleave ▸ rfl⟩
          refine hleft.1.trans ?_
          cases target with
          | none =>
              obtain ⟨-, rfl⟩ := pure_eq_ok.mp hfollow
              exact refl_of (Entered b []) v
          | some c =>
              have hjoined : v.Entered b (v.watching b y c) w' := follow_entered hfollow
              rwa [watching, hleft.2] at hjoined

/-! ## Setting a binding, and its rounds -/

theorem assign_entered [Ordered ρ] {content : Content ρ} {answer : Bool × List (Duty κ ρ)}
    (run : assign c content w = .ok (answer, w')) : w.Entered b [] w' := by
  rcases assign_eq_ok run with ⟨-, -, rfl, -⟩ | ⟨_, -, -, -, -, rfl⟩
  · exact refl_of (Entered b []) w'
  · refine Entered.modifyBinding_record w c (fun _ => ?_) (.changed c)
    rfl

theorem assignEdit_entered [Ordered ρ] {answer : Bool × List (Duty κ ρ)}
    (run : assignEdit x c w = .ok (answer, w')) : w.Entered b [] w' := by
  refine (?_ : Respects (Entered b []) _) run
  refine .bind (takeEdit_respects x) fun taken => ?_
  split
  · exact fun _ _ _ hassign => assign_entered hassign
  · exact .pure _

theorem settle_entered (w : World κ ρ) (c : BindingId) : w.Entered b [] (w.settled c) := by
  refine Entered.modifyBinding_record w c (fun _ => ?_) (.settled c)
  rfl

/-- The end of a call keeps nobody alive who was gone. -/
theorem release_entered (w : World κ ρ) (x : WatcherId) (c : BindingId) :
    w.Entered b [] (w.released x c) where
  roll := (Deed.map_replay_nil _).symm
  owner _ _ := id
  forsaken _ hy := ⟨hy.1, fun h => hy.2 (List.mem_of_mem_erase h)⟩
  watched _ hy := absurd hy List.not_mem_nil

/-- A round drops those who are gone, and keeps the others alive until they are called. -/
theorem inRound_entered (w : World κ ρ) (c : BindingId) :
    w.Entered b (if c = b then [.round (w.departed b)] else []) (w.inRound c) where
  roll := by
    split
    · next hc =>
        subst hc
        rw [World.roll?, World.binding?_inRound_self]
        cases hroll : w.roll? c with
        | none =>
            rw [World.roll?, Option.map_eq_none_iff] at hroll
            rw [hroll]
            rfl
        | some roll =>
            obtain ⟨binding, hbinding, rfl⟩ := Option.map_eq_some_iff.mp hroll
            rw [hbinding, Option.map_some, Option.map_some, Option.map_some]
            exact congrArg some (World.filter_departed hroll).symm
    · next hc =>
        rw [World.roll?, World.binding?_inRound_of_ne hc]
        exact (Deed.map_replay_nil _).symm
  owner _ _ := id
  forsaken x hx := by
    refine ⟨hx.1, fun hawaited => ?_⟩
    rcases List.mem_append.mp hawaited with hlistens | hawaited
    · have halive := (World.mem_listeners.mp hlistens).2
      rw [(World.forsaken_iff.mp hx).2] at halive
      cases halive
    · exact hx.2 hawaited
  watched x hx := by
    split at hx
    · simp at hx
    · cases hx

end Machine

end Trellis
