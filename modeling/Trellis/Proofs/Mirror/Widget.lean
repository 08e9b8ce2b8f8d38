import Trellis.Proofs.Mirror.Steady

/-!
# Widgets and their mirrors

A widget that shows a value has a mirror of its own. The mirror is registered with the binding that
the widget follows, and with no other one. Only a call that binds the widget changes what it
follows; every other step leaves the ties between the two as they are.

* `World.Widget` — an element with a mirror of its own.
* `World.Tied` — what a step keeps of the ties between the two.
-/

namespace Trellis

open Machine

variable {κ ρ : Type} {e : ElementId} {x : WatcherId} {touched bound : Prop} {w w' : World κ ρ}

namespace Body

/-- What an element can follow goes by its type. -/
theorem follows_eq_of_kind {body body' : Body κ} (h : body'.kind = body.kind) :
    body'.follows = body.follows := by
  cases body <;> cases body' <;> first | rfl | cases h

end Body

namespace World

/-- The binding that an element follows. -/
def followed? (w : World κ ρ) (e : ElementId) : Option BindingId := (w.element? e).bind (·.binding)

/-- The watcher through which an element follows bindings. -/
def follower? (w : World κ ρ) (e : ElementId) : Option WatcherId := (w.element? e).bind (·.follower)

/-- The binding holds a value of a kind. -/
def Fits (w : World κ ρ) (kind : Scalar.Kind) (b : BindingId) : Prop :=
  (w.content? b).map (·.shape) = some (.one kind)

instance (w : World κ ρ) (kind : Scalar.Kind) : DecidablePred (w.Fits kind) :=
  fun b => inferInstanceAs (Decidable ((w.content? b).map (·.shape) = some (.one kind)))

/-- An element that shows a value of a kind, and the mirror that is its own. The mirror is
registered with the binding that the element follows, and with no other one. -/
structure Widget (w : World κ ρ) (e : ElementId) (x : WatcherId) (kind : Scalar.Kind) : Prop where
  follower : ∀ d, w.follower? d = some x ↔ d = e
  shapes : (w.element? e).map (·.body.follows) = some fun shape => decide (shape = .one kind)
  shown : (w.copy? x).map (·.value.kind) = some kind
  registered : ∀ b, w.Registered b x ↔ w.followed? e = some b
  followed : ∀ b, w.followed? e = some b → w.Fits kind b

/-- The ties between an element and a mirror are as they were. Unless the element is bound, it
follows what it followed, and unless the mirror is touched, it has no other copy than before, but
for an edited one. -/
structure Tied (e : ElementId) (x : WatcherId) (touched bound : Prop) (w w' : World κ ρ) :
    Prop where
  follower : ∀ d, w'.follower? d = w.follower? d
  shapes : (w'.element? e).map (·.body.follows) = (w.element? e).map (·.body.follows)
  followed : ¬ bound → w'.followed? e = w.followed? e
  kind : (w'.copy? x).map (·.value.kind) = (w.copy? x).map (·.value.kind)
  copy : ¬ touched → ∀ copy, w'.copy? x = some copy → copy.edited = false → w.copy? x = some copy
  registered : ¬ bound → ∀ b, w'.Registered b x ↔ w.Registered b x
  content : ∀ b, (w'.content? b).map (·.shape) = (w.content? b).map (·.shape)

/-- A widget that is bound is one as long as its mirror is registered with what it follows. -/
theorem Widget.of_bound {kind : Scalar.Kind} (h : w.Widget e x kind)
    (tied : w.Tied e x touched bound w')
    (registered : ∀ b, w'.Registered b x ↔ w'.followed? e = some b)
    (followed : ∀ b, w'.followed? e = some b → w.Fits kind b) :
    w'.Widget e x kind where
  follower d := by rw [tied.follower, h.follower]
  shapes := tied.shapes.trans h.shapes
  shown := tied.kind.trans h.shown
  registered := registered
  followed b hb := (tied.content b).trans (followed b hb)

theorem Widget.of_tied {kind : Scalar.Kind} (h : w.Widget e x kind)
    (tied : w.Tied e x touched False w') : w'.Widget e x kind := by
  refine h.of_bound tied (fun b => ?_) fun b => ?_
  · rw [tied.registered id, tied.followed id, h.registered]
  · rw [tied.followed id]
    exact h.followed b

namespace Tied

instance : IsPreorder (World κ ρ) (Tied e x touched bound) where
  refl _ :=
    { follower := fun _ => rfl
      shapes := rfl
      followed := fun _ => rfl
      kind := rfl
      copy := fun _ _ hcopy _ => hcopy
      registered := fun _ _ => Iff.rfl
      content := fun _ => rfl }
  trans _ _ _ h h' :=
    { follower := fun d => (h'.follower d).trans (h.follower d)
      shapes := h'.shapes.trans h.shapes
      followed := fun hb => (h'.followed hb).trans (h.followed hb)
      kind := h'.kind.trans h.kind
      copy := fun hx copy hcopy hedited => h.copy hx copy (h'.copy hx copy hcopy hedited) hedited
      registered := fun hb b => (h'.registered hb b).trans (h.registered hb b)
      content := fun b => (h'.content b).trans (h.content b) }

/-- A change of neither elements, watchers nor bindings. -/
theorem of_eq (elements : w'.elements = w.elements) (watchers : w'.watchers = w.watchers)
    (bindings : w'.bindings = w.bindings) : Tied e x touched bound w w' := by
  have helement (d : ElementId) : w'.element? d = w.element? d := by
    rw [element?, element?, elements]
  have hwatcher (y : WatcherId) : w'.watcher? y = w.watcher? y := by
    rw [watcher?, watcher?, watchers]
  have hbinding (b : BindingId) : w'.binding? b = w.binding? b := by
    rw [binding?, binding?, bindings]
  refine ⟨fun d => ?_, ?_, fun _ => ?_, ?_, fun _ copy => ?_, fun _ b => ?_, fun b => ?_⟩
  · rw [follower?, follower?, helement]
  · rw [helement]
  · rw [followed?, followed?, helement]
  · rw [copy?, copy?, hwatcher]
  · rw [copy?, copy?, hwatcher]
    exact fun h _ => h
  · rw [Registered, Registered, hbinding]
  · rw [content?, content?, hbinding]

/-- Another element may follow another binding. -/
theorem modifyElement (w : World κ ρ) {d : ElementId} {f : Element κ → Element κ}
    (h : ∀ element, w.element? d = some element →
      (f element).follower = element.follower ∧ (f element).body.kind = element.body.kind ∧
        (d = e → ¬ bound → (f element).binding = element.binding)) :
    Tied e x touched bound w (w.modifyElement d f) := by
  have hkeeps {γ : Type} (read : Element κ → γ) {c : ElementId}
      (hread : d = c → ∀ element, w.element? d = some element → read (f element) = read element) :
      ((w.modifyElement d f).element? c).map read = (w.element? c).map read := by
    rw [element?_modifyElement]
    split
    · next hdc =>
        subst hdc
        cases helement : w.element? d with
        | none => rfl
        | some element => exact congrArg some (hread rfl element helement)
    · rfl
  refine ⟨fun c => ?_, ?_, fun hb => ?_, rfl, fun _ _ h _ => h, fun _ _ => Iff.rfl, fun _ => rfl⟩
  · have hfollower := hkeeps (c := c) (·.follower) fun _ element hel => (h element hel).1
    simpa only [follower?, Option.bind_map, Function.id_comp] using
      congrArg (Option.bind · id) hfollower
  · exact hkeeps (·.body.follows) fun _ element hel => Body.follows_eq_of_kind (h element hel).2.1
  · have hbinding := hkeeps (c := e) (·.binding) fun hd element hel => (h element hel).2.2 hd hb
    simpa only [followed?, Option.bind_map, Function.id_comp] using
      congrArg (Option.bind · id) hbinding

/-- A change of a binding that neither changes its shape nor registers or releases the mirror. -/
theorem modifyBinding (w : World κ ρ) {b : BindingId} {f : Binding ρ → Binding ρ}
    (h : ∀ binding, w.binding? b = some binding →
      (f binding).content.shape = binding.content.shape ∧
        (¬ bound → (x ∈ (f binding).watchers ↔ x ∈ binding.watchers))) :
    Tied e x touched bound w (w.modifyBinding b f) := by
  refine ⟨fun _ => rfl, rfl, fun _ => rfl, rfl, fun _ _ h _ => h, fun hb c => ?_, fun c => ?_⟩
  · rw [Registered, Registered, binding?_modifyBinding]
    split
    · next hbc =>
        subst hbc
        cases hbinding : w.binding? b with
        | none => exact Iff.rfl
        | some binding => simp [(h binding hbinding).2 hb]
    · exact Iff.rfl
  · rw [content?, content?, binding?_modifyBinding]
    split
    · next hbc =>
        subst hbc
        cases hbinding : w.binding? b with
        | none => rfl
        | some binding => exact congrArg some (h binding hbinding).1
    · rfl

/-- A change of another watcher. -/
theorem modifyWatcher (w : World κ ρ) {y : WatcherId} (hy : y ≠ x)
    (f : WatcherCell κ ρ → WatcherCell κ ρ) : Tied e x touched bound w (w.modifyWatcher y f) := by
  have hwatcher : (w.modifyWatcher y f).watcher? x = w.watcher? x := by
    rw [watcher?_modifyWatcher, if_neg hy]
  refine ⟨fun _ => rfl, rfl, fun _ => rfl, ?_, fun _ copy => ?_, fun _ _ => Iff.rfl, fun _ => rfl⟩
  · rw [copy?, copy?, hwatcher]
  · rw [copy?, copy?, hwatcher]
    exact fun h _ => h

/-- A mirror that keeps its kind. -/
theorem modifyCopy (w : World κ ρ) {y : WatcherId} {f : Mirror ρ → Mirror ρ}
    (kind : ∀ copy, (f copy).value.kind = copy.value.kind)
    (fresh : y = x → ¬ touched → ∀ copy, (f copy).edited = false → f copy = copy) :
    Tied e x touched bound w (w.modifyCopy y f) := by
  refine ⟨fun _ => rfl, rfl, fun _ => rfl, ?_, fun hx copy hcopy hedited => ?_,
    fun _ _ => Iff.rfl, fun _ => rfl⟩
  · rw [copy?_modifyCopy]
    split
    · rw [Option.map_map]
      exact congrArg (Option.map · _) (funext kind)
    · rfl
  · rw [copy?_modifyCopy] at hcopy
    split at hcopy
    · next hy =>
        obtain ⟨old, hold, rfl⟩ := Option.map_eq_some_iff.mp hcopy
        rw [fresh hy hx old hedited]
        exact hold
    · exact hcopy

end Tied

end World

end Trellis
