import Trellis.Proofs.Definition.Making
import Trellis.Proofs.World.Added

/-!
# Building only adds

Building makes elements, has them follow bindings and puts them together. Whether or not it comes to
a good end, it only adds to what was there: nothing but a new element takes hold of a new one.

* `Machine.create_added` — creating an element.
* `Build.Adds` — a part of building, which may fail, only adds.
* `Definition.build_adds`, `Definition.load_adds` — building a document.
-/

namespace Trellis

variable {κ ρ : Type} {w v v' : World κ ρ}

/-- Whatever has only added goes on to do so. -/
def World.Adding (w v v' : World κ ρ) : Prop := w.Added v → w.Added v'

instance (w : World κ ρ) : IsPreorder (World κ ρ) (World.Adding w) where
  refl _ := id
  trans _ _ _ h h' := h' ∘ h

namespace Machine

/-! ## Creating an element -/

theorem invalidate_adding (window : Option WindowId) :
    Respects (World.Adding w) (invalidate window) :=
  .forM_option window fun x => .modify fun _ h => h.modifyWindow x fun _ => rfl

/-- An element that was added follows a binding through a watcher of its own. -/
theorem follow_adding {e : ElementId} {x : WatcherId} (new : w.elements.size ≤ e.index)
    (own : w.watchers.size ≤ x.index) (element : Element κ) (b : BindingId) :
    Respects (World.Adding w) (follow e element x b) := by
  have hwatch : Respects (World.Adding w) (watch x b) := by
    refine .modify fun v h => ?_
    split
    · exact h.watch own b
    · exact h
  have htakeOver : Respects (World.Adding w) (takeOver x b) := by
    refine .get_bind fun v => ?_
    split
    · exact .modify fun _ h => h.modifyCopy own _
    · exact .pure ()
  refine .bind (.bind hwatch fun _ => htakeOver) fun _ => ?_
  refine .bind (.modify fun _ h => h.modifyElement new _) fun _ => ?_
  split
  · exact invalidate_adding _
  · exact .pure ()

/-- An element that was added, and follows no binding yet, begins to follow one. -/
theorem bind_added {e : ElementId} {el : Element κ} {target : Option BindingId} {u : Unit}
    (h : w.Added v) (new : w.elements.size ≤ e.index) (found : v.element? e = some el)
    (free : el.binding = none)
    (own : ∀ x, el.follower = some x → w.watchers.size ≤ x.index)
    (run : Machine.bind e target v = .ok (u, v')) : w.Added v' := by
  replace run := get_bind_eq_ok.mp run
  cases hfollower : el.follower with
  | none =>
      simp only [found, hfollower] at run
      obtain ⟨-, rfl⟩ := pure_eq_ok.mp run
      exact h
  | some x =>
      simp only [found, hfollower, free] at run
      have hfollow := Respects.forM_option target (follow_adding new (own x hfollower) el)
      exact hfollow run h

/-- The last part of creating follows the first binding. -/
theorem bind_first_added {e e' : ElementId} {el : Element κ} {target : Option BindingId}
    (h : w.Added v) (new : w.elements.size ≤ e.index) (found : v.element? e = some el)
    (free : el.binding = none)
    (own : ∀ x, el.follower = some x → w.watchers.size ≤ x.index)
    (run : (do
      if target.isSome then Machine.bind e target
      pure e : Machine κ ρ ElementId) v = .ok (e', v')) :
    w.Added v' ∧ w.elements.size ≤ e'.index := by
  cases hsome : target.isSome with
  | false =>
      rw [hsome] at run
      obtain ⟨rfl, rfl⟩ := pure_eq_ok.mp run
      exact ⟨h, new⟩
  | true =>
      rw [hsome] at run
      obtain ⟨_, u, hbind, hpure⟩ := bind_eq_ok.mp run
      obtain ⟨rfl, rfl⟩ := pure_eq_ok.mp hpure
      exact ⟨bind_added h new found free own hbind, new⟩

/-- Creating an element adds it. -/
theorem create_added {e : ElementId} {window : Option WindowId} {plan : Blueprint κ ρ}
    (h : w.Added v) (run : create window plan v = .ok (e, v')) :
    w.Added v' ∧ w.elements.size ≤ e.index := by
  have hnew : w.elements.size ≤ (⟨v.elements.size⟩ : ElementId).index := h.elements
  have hpush := h.push (v.madeUp + 1) { id := World.idText v.madeUp, window, body := plan.body }
  have hfound (el : Element κ) : (v.elements.push el)[v.elements.size]? = some el :=
    Array.getElem?_push_size
  cases hfollower : plan.follower with
  | none =>
      rw [create, hfollower] at run
      exact bind_first_added hpush hnew (hfound _) rfl (by intro x hx; cases hx) run
  | some follower =>
      rw [create, hfollower] at run
      have hadopt (watcher : Watcher κ ρ) := (hpush.adopt hnew watcher).modifyElement hnew
        fun el => { el with follower := some ⟨v.watchers.size⟩ }
      have hown (el : Element κ) (f : Element κ → Element κ) :
          ((v.elements.push el).modify v.elements.size f)[v.elements.size]? = some (f el) := by
        rw [Array.getElem?_modify, if_pos rfl, hfound]
        rfl
      refine bind_first_added (hadopt _) hnew (hown _ _) rfl (fun x hx => ?_) run
      cases hx
      exact h.watchers

end Machine

theorem World.Added.setId {e : ElementId} (h : w.Added v) (new : w.elements.size ≤ e.index)
    (id : String) : w.Added (v.setId e id) := by
  unfold World.setId
  cases id.isEmpty with
  | true =>
      have hfresh : w.Added { v with madeUp := v.madeUp + 1 } := { h with }
      exact hfresh.modifyElement new _
  | false => exact h.modifyElement new _

namespace Build

variable {α β : Type}

/-! ## Parts of building -/

/-- A part of building only adds, also if it fails. Its answer is as stated. -/
def Adds (w : World κ ρ) (m : Build κ ρ α) (post : α → Prop) : Prop :=
  ∀ ⦃v outcome v'⦄, w.Added v → m v = .ok (outcome, v') →
    w.Added v' ∧ ∀ a, outcome = .ok a → post a

namespace Adds

theorem pure {post : α → Prop} {a : α} (ha : post a) : Adds w (pure a) post := by
  intro v outcome v' h run
  cases run
  refine ⟨h, fun b hb => ?_⟩
  cases hb
  exact ha

theorem throw (e : BuildError) (post : α → Prop) : Adds w (throw e) post := by
  intro v outcome v' h run
  cases run
  exact ⟨h, fun b hb => nomatch hb⟩

theorem bind {m : Build κ ρ α} {f : α → Build κ ρ β} {post : α → Prop} {post' : β → Prop}
    (hm : Adds w m post) (hf : ∀ a, post a → Adds w (f a) post') : Adds w (m >>= f) post' := by
  intro v outcome v' h run
  obtain ⟨first, u, hfirst, hrest⟩ := Machine.bind_eq_ok.mp run
  obtain ⟨hu, hpost⟩ := hm h hfirst
  cases first with
  | error e =>
      obtain ⟨rfl, rfl⟩ := Machine.pure_eq_ok.mp hrest
      exact ⟨hu, fun b hb => nomatch hb⟩
  | ok a => exact hf a (hpost a rfl) hu hrest

theorem lift {m : Machine κ ρ α} {post : α → Prop}
    (hm : ∀ ⦃v a v'⦄, w.Added v → m v = .ok (a, v') → w.Added v' ∧ post a) :
    Adds w (liftM m) post := by
  intro v outcome v' h run
  have hlift : (m >>= fun a => (Pure.pure (.ok a) : Machine κ ρ (Except BuildError α))) v =
      .ok (outcome, v') := run
  obtain ⟨a, u, hfirst, hrest⟩ := Machine.bind_eq_ok.mp hlift
  obtain ⟨rfl, rfl⟩ := Machine.pure_eq_ok.mp hrest
  obtain ⟨hu, ha⟩ := hm h hfirst
  refine ⟨hu, fun b hb => ?_⟩
  cases hb
  exact ha

theorem modify {f : World κ ρ → World κ ρ} (hf : ∀ v, w.Added v → w.Added (f v)) :
    Adds w (modifyThe (World κ ρ) f) fun _ => True := by
  refine lift fun v u v' h run => ⟨?_, trivial⟩
  rw [← Machine.modify_eq_ok.mp run]
  exact hf v h

theorem get : Adds w (getThe (World κ ρ)) fun _ => True := by
  refine lift fun v u v' h run => ⟨?_, trivial⟩
  rw [← (Machine.get_eq_ok.mp run).2]
  exact h

end Adds

variable (ctx : BuildContext κ ρ) (w : World κ ρ)

/-- The element of a node is a new one. -/
theorem element_adds (path : Path) (n : Node) :
    Adds w (element ctx path n) fun made => w.elements.size ≤ made.2.index := by
  rw [element_eq]
  split
  · exact .throw _ _
  · next type plan hplan =>
      have hcreate : Adds w (liftM (Machine.create ctx.window plan))
          fun e => w.elements.size ≤ e.index :=
        .lift fun _ _ _ h run => Machine.create_added h run
      refine .bind hcreate fun e he => ?_
      split
      · exact .bind (.modify fun v h => h.setId he _) fun _ _ => .pure he
      · exact .pure he

/-- Only the parent is changed when it takes a child. -/
theorem attachChild_adds (type : String) (path : Path) {parent : ElementId} (child : ElementId)
    (weight : Option Float) (new : w.elements.size ≤ parent.index) :
    Adds w (attachChild type path parent child weight) fun _ => True := by
  refine .bind .get fun v _ => ?_
  split
  · split
    · exact .modify fun u h => h.modifyElement new _
    · exact .throw _ _
  · exact .pure trivial

/-- The induction is on the nodes that are left, and those below them. All of their parents are
new. -/
theorem children_adds (type : String) (parent : ElementId) (index : Index)
    (nodes : List (Path × Node)) (new : w.elements.size ≤ parent.index) :
    Adds w (children ctx type parent index nodes) fun _ => True := by
  induction type, parent, index, nodes using children.induct with
  | case1 type parent index =>
      rw [children]
      exact .pure trivial
  | case2 type parent index path n rest below after =>
      rw [children]
      refine .bind (element_adds ctx w path n) fun made hmade => ?_
      obtain ⟨ownType, e⟩ := made
      dsimp only
      split
      · exact .throw _ _
      · next nodes hnodes =>
          refine .bind (below _ _ nodes hnodes hmade) fun index _ => ?_
          exact .bind (attachChild_adds w _ _ _ _ new) fun _ _ => after _ _ new

theorem node_adds (path : Path) (index : Index) (n : Node) :
    Adds w (node ctx path index n) fun _ => True := by
  refine .bind (element_adds ctx w path n) fun made hmade => ?_
  obtain ⟨type, e⟩ := made
  dsimp only
  split
  · exact .throw _ _
  · exact .bind (children_adds ctx w _ _ _ _ hmade) fun _ _ => .pure trivial

end Build

namespace Definition

variable (ctx : BuildContext κ ρ) (w : World κ ρ)

theorem build_adds (n : Node) : Build.Adds w (build ctx n) fun _ => True :=
  .bind (Build.node_adds ctx w [] [] n) fun _ _ => .pure trivial

theorem parse_adds (format : Format) (text : String) :
    Build.Adds w (parse ctx format text) fun _ => True := by
  unfold parse
  split
  · exact .throw _ _
  · exact build_adds ctx w _
  · exact .throw _ _

theorem load_adds (source : Source) (name : String) :
    Build.Adds w (load ctx source name) fun _ => True := by
  unfold load
  split
  · exact .throw _ _
  · exact .throw _ _
  · split
    · exact .throw _ _
    · exact parse_adds ctx w _ _

end Definition

end Trellis
