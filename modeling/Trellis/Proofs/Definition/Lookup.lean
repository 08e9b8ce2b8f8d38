import Trellis.Proofs.Definition.Tree
import Trellis.Registry.Builtin

/-!
# Looking up elements that a layout has let go

A layout of one child lets go of the child it had when it takes another. What it lets go is still
listed under its id, without being held.

* `Node.Keeps` — no layout on the way from a node to another has let go of what comes next.
* `Definition.Mirrors.owns_iff` — the tree owns the elements of the nodes that are kept.
* `Definition.build_finds` — an id finds the last element listed under it if that one is kept, and
  nothing at all if it is not.
-/

namespace Trellis

variable {κ ρ : Type}

/-- The element of a node is a layout of one child. -/
def Node.Single (ctx : BuildContext κ ρ) (n : Node) : Prop :=
  ∃ type make plan, n.text? "type" = some type ∧ ctx.registry.find? type = some make ∧
    make ctx.lookup n = .ok plan ∧ plan.body.single = true

/-- Each step of a path leads to what the element of the node before it goes on to hold. A layout of
one child goes on to hold the last. -/
inductive Node.Keeps (ctx : BuildContext κ ρ) : Node → Path → Prop
  | here {n : Node} : Keeps ctx n []
  | step {n k : Node} {s : Step} {p : Path} : (s, k) ∈ n.kids →
      (n.Single ctx → n.kids.getLast? = some (s, k)) → Keeps ctx k p → Keeps ctx n (s :: p)

variable {ctx : BuildContext κ ρ} {doc n m k : Node} {p : Path} {s : Step}

/-- One step more. -/
theorem Node.Keeps.snoc (h : n.Keeps ctx p) (hreach : n.Reaches p m) (hk : (s, k) ∈ m.kids)
    (last : m.Single ctx → m.kids.getLast? = some (s, k)) : n.Keeps ctx (p ++ [s]) := by
  induction hreach with
  | here => exact .step hk last .here
  | @step n next m t p ht _ ih =>
      cases h with
      | @step _ next' _ _ ht' hlast hkeeps =>
          -- a step leads to one node only
          cases (Node.mem_kids.mp ht').2.symm.trans (Node.mem_kids.mp ht).2
          exact .step ht hlast (ih hkeeps hk last)

/-- The layouts and widgets are made without children. -/
theorem Registry.builtin_childless {type : String} {make : Constructor κ ρ} {lookup : Lookup κ}
    {plan : Blueprint κ ρ} (hfind : Registry.builtin.find? type = some make)
    (hmake : make lookup n = .ok plan) : plan.body.children = [] := by
  have hmem : make ∈ (Registry.builtin : Registry κ ρ).entries.map (·.2) := by
    obtain ⟨pre, post, hentries, -⟩ := List.lookup_eq_some_iff.mp hfind
    rw [hentries, List.map_append, List.map_cons]
    exact List.mem_append_right _ List.mem_cons_self
  -- a drawing is not made without its painter
  have hgraphic (h : Construct.graphic lookup n = .ok plan) : plan.body.children = [] := by
    unfold Construct.graphic at h
    split at h
    · cases h
      rfl
    · cases h
  simp only [builtin, List.map_cons, List.map_nil, List.mem_cons, List.not_mem_nil, or_false]
    at hmem
  rcases hmem with rfl | rfl | rfl | rfl | rfl | rfl | rfl | rfl | rfl | rfl | rfl | rfl | rfl | rfl
  case inr.inr.inr.inr.inr.inl => exact hgraphic hmake
  all_goals
    cases hmake
    rfl

namespace Definition

variable {w w' v : World κ ρ} {d : Definition} {place : Path → ElementId}

/-- What constructors give their elements for children was there before the tree. -/
def Apart (ctx : BuildContext κ ρ) (w : World κ ρ) : Prop :=
  ∀ type make n plan, ctx.registry.find? type = some make → make ctx.lookup n = .ok plan →
    ∀ c ∈ plan.body.children, c.index < w.elements.size

/-- Constructors of elements without children go well with any state. -/
theorem Apart.of_childless (childless : ∀ type make n plan, ctx.registry.find? type = some make →
    make ctx.lookup n = .ok plan → plan.body.children = []) (w : World κ ρ) : Apart ctx w := by
  intro type make n plan hfind hmake c hc
  rw [childless type make n plan hfind hmake] at hc
  cases hc

namespace Mirrors

variable (h : Mirrors ctx doc w d w' place) (installed : World.Installed d w w' v)

include h installed

/-- A child node that is not let go has its element among the children. -/
theorem parent_of_keeps (hreach : doc.Reaches p m) (hk : (s, k) ∈ m.kids)
    (last : m.Single ctx → m.kids.getLast? = some (s, k)) :
    v.Parent (place p) (place (p ++ [s])) := by
  refine ⟨?_, h.younger p m hreach (s, k) hk⟩
  obtain ⟨type, make, plan, htype, hfind, hmake, hheld⟩ := h.held p m hreach
  rw [World.childrenOf, World.element?, installed.elements]
  show place (p ++ [s]) ∈ w'.childrenOf (place p)
  rw [hheld]
  split
  · next hsingle =>
      rw [last ⟨type, make, plan, htype, hfind, hmake, hsingle⟩]
      exact List.mem_singleton.mpr rfl
  · exact List.mem_append_right _ (List.mem_map.mpr ⟨(s, k), hk, rfl⟩)

/-- The children of an element of the tree that were built with it are those of the child nodes that
are not let go. -/
theorem exists_kid_of_parent (apart : Apart ctx w) (hreach : doc.Reaches p m) {c : ElementId}
    (new : w.elements.size ≤ c.index) (hparent : v.Parent (place p) c) :
    ∃ s k, (s, k) ∈ m.kids ∧ (m.Single ctx → m.kids.getLast? = some (s, k)) ∧
      place (p ++ [s]) = c := by
  obtain ⟨type, make, plan, htype, hfind, hmake, hheld⟩ := h.held p m hreach
  have hapart : c ∉ plan.body.children := fun hc =>
    absurd (apart type make m plan hfind hmake c hc) (Nat.not_lt.mpr new)
  have hsingle : m.Single ctx → plan.body.single = true := by
    rintro ⟨type', make', plan', htype', hfind', hmake', hsingle⟩
    cases htype.symm.trans htype'
    cases hfind.symm.trans hfind'
    cases hmake.symm.trans hmake'
    exact hsingle
  have hchild : c ∈ w'.childrenOf (place p) := by
    have := hparent.1
    rwa [World.childrenOf, World.element?, installed.elements] at this
  rw [hheld] at hchild
  split at hchild
  · cases hlast : m.kids.getLast? with
    | none =>
        rw [hlast] at hchild
        exact absurd hchild hapart
    | some kid =>
        rw [hlast] at hchild
        exact ⟨kid.1, kid.2, List.mem_of_getLast? hlast, fun _ => rfl,
          (List.mem_singleton.mp hchild).symm⟩
  · next hmany =>
      rcases List.mem_append.mp hchild with hc | hc
      · exact absurd hc hapart
      · obtain ⟨kid, hkid, rfl⟩ := List.mem_map.mp hc
        exact ⟨kid.1, kid.2, hkid, fun hs => absurd (hsingle hs) hmany, rfl⟩

/-- The tree owns what it keeps. -/
theorem owns_of_keeps {q : Path} (hreach : doc.Reaches q n) (hkeeps : n.Keeps ctx p) :
    v.Owns (place q) (place (q ++ p)) := by
  induction hkeeps generalizing q with
  | here =>
      rw [List.append_nil]
      exact .refl
  | @step n k s p hk hlast _ ih =>
      have htail := ih (hreach.snoc hk)
      rw [List.append_assoc] at htail
      exact .head (h.parent_of_keeps installed hreach hk hlast) htail

/-- What the tree owns of what was built, it keeps. The induction is along the chain of children. -/
theorem keeps_of_owns (closed : w.Closed) (apart : Apart ctx w) {e : ElementId}
    (howns : v.Owns d.root e) (new : w.elements.size ≤ e.index) :
    ∃ p m, doc.Reaches p m ∧ doc.Keeps ctx p ∧ place p = e := by
  induction howns with
  | refl => exact ⟨[], doc, .here, .here, h.root⟩
  | @tail b c howns hparent ih =>
      -- what was there before has no children that are new
      have hb : w.elements.size ≤ b.index := by
        refine Nat.le_of_not_lt fun hold => ?_
        have hc := hparent.1
        rw [h.childrenOf_older installed b hold] at hc
        exact absurd (closed.children b c hc) (Nat.not_lt.mpr new)
      obtain ⟨p, m, hreach, hkeeps, rfl⟩ := ih hb
      obtain ⟨s, k, hk, hlast, rfl⟩ := h.exists_kid_of_parent installed apart hreach new hparent
      exact ⟨p ++ [s], k, hreach.snoc hk, hkeeps.snoc hreach hk hlast, rfl⟩

/-- The tree owns the elements of the nodes that are kept, and of no others. -/
theorem owns_iff (closed : w.Closed) (apart : Apart ctx w) (hreach : doc.Reaches p m) :
    v.Owns d.root (place p) ↔ doc.Keeps ctx p := by
  constructor
  · intro howns
    have hnew := ((h.added (place p)).mp ⟨p, m, hreach, rfl⟩).1
    obtain ⟨q, k, hq, hkeeps, heq⟩ := h.keeps_of_owns installed closed apart howns hnew
    rwa [h.distinct q k p m hq hreach heq] at hkeeps
  · intro hkeeps
    rw [← h.root]
    exact h.owns_of_keeps installed .here hkeeps

end Mirrors

/-- An id is looked up in the place of the last node of that id, the root excepted. The element
there is found as long as it is alive, and nothing is found when it is not. In the tree that was
built it is alive unless a layout of one child has let it go, or what holds it: so an element of the
tree is not found by its id if another one of that id, which comes later, has been let go. -/
theorem build_finds (closed : w.Closed) (apart : Apart ctx w)
    (run : build ctx doc w = .ok (.ok d, w')) :
    ∃ place, Mirrors ctx doc w d w' place ∧
      (∀ v, World.Installed d w w' v → ∀ p m, doc.Reaches p m →
        (v.Owns d.root (place p) ↔ doc.Keeps ctx p)) ∧
      ∀ p m id, p ≠ [] → doc.Reaches p m → Build.idOf m = some id →
        ∃ q k, (Build.named (Node.placesBelow doc.kids) id).getLast? = some (q, k) ∧
          (q ≠ [] ∧ doc.Reaches q k ∧ Build.idOf k = some id) ∧
          (∀ v : World κ ρ, v.find? d.index id =
            if v.elementAlive (place q) then some (place q) else none) ∧
          ∀ v, World.Installed d w w' v →
            (doc.Keeps ctx q → v.find? d.index id = some (place q) ∧ v.Owns d.root (place q)) ∧
            (¬ doc.Keeps ctx q → v.find? d.index id = none) := by
  obtain ⟨place, hmirrors⟩ := exists_mirrors run
  refine ⟨place, hmirrors, fun v hv p m hreach => hmirrors.owns_iff hv closed apart hreach,
    fun p m id hp hreach hid => ?_⟩
  have hmem : (p, m) ∈ Build.named (Node.placesBelow doc.kids) id :=
    List.mem_filter.mpr ⟨mem_placesBelow_kids.mpr ⟨hp, hreach⟩, decide_eq_true hid⟩
  obtain ⟨⟨q, k⟩, hlast⟩ := Option.isSome_iff_exists.mp
    (List.getLast?_isSome.mpr (List.ne_nil_of_mem hmem))
  have hq := getLast?_named hlast
  have hfind (v : World κ ρ) : v.find? d.index id =
      if v.elementAlive (place q) then some (place q) else none := by
    rw [World.find?, hmirrors.listed, hlast]
    rfl
  refine ⟨q, k, hlast, hq, hfind, fun v hv => ?_⟩
  have howns := hmirrors.owns_iff hv closed apart hq.2.1
  have halive := hmirrors.elementAlive_iff closed hv hq.2.1
  refine ⟨fun hkeeps => ?_, fun hkeeps => ?_⟩
  · rw [hfind, if_pos (halive.mpr (howns.mpr hkeeps))]
    exact ⟨rfl, howns.mpr hkeeps⟩
  · rw [hfind, if_neg fun hlives => hkeeps (howns.mp (halive.mp hlives))]

/-- Two spacers have the same id. The first is held by the root. The second is held by a layout of
one child until that takes another child. Then the first is not found, though the tree owns it. -/
theorem build_finds_shadowed :
    let ctx : BuildContext Unit Unit := {
      registry := .builtin
      lookup := .none
      window := none }
    let kid : Node := [("type", .text "widget.Spacer"), ("id", .text "x")]
    let other : Node := [("type", .text "widget.Spacer")]
    let frame : Node :=
      [("type", .text "layout.MinSize"), ("children", .list [.mapping kid, .mapping other])]
    let doc : Node :=
      [("type", .text "layout.Flex"), ("children", .list [.mapping kid, .mapping frame])]
    World.Closed ({} : World Unit Unit) ∧ Apart ctx {} ∧
    ∃ d w' place, build ctx doc {} = .ok (.ok d, w') ∧ Mirrors ctx doc {} d w' place ∧
      let v := { w' with definition := some d }
      v.Owns d.root (place [.item 0]) ∧ ¬ v.Owns d.root (place [.item 1, .item 0]) ∧
      World.find? v d.index "x" = none := by
  intro ctx kid other frame doc
  have hclosed : World.Closed ({} : World Unit Unit) := by
    refine ⟨fun r hr => ?_, fun e c hc => ?_⟩
    · cases hr
    · cases hc
  have hapart : Apart ctx {} := .of_childless (fun _ _ _ _ => Registry.builtin_childless) _
  have hkids : doc.kids = [(.item 0, kid), (.item 1, frame)] := rfl
  have hbelow : frame.kids = [(.item 0, kid), (.item 1, other)] := rfl
  have hsound (path : Path) (n : Node) (hn : n = kid ∨ n = other) : flaws ctx path n = [] := by
    rw [flaws_eq]
    rcases hn with rfl | rfl <;> rfl
  have hframe : flaws ctx [.item 1] frame = [] := by
    rw [flaws_eq, hbelow, flawsBelow_cons, flawsBelow_cons, hsound _ kid (.inl rfl),
      hsound _ other (.inr rfl)]
    rfl
  have hdoc : flaws ctx [] doc = [] := by
    rw [flaws_eq, hkids, flawsBelow_cons, flawsBelow_cons, hsound _ kid (.inl rfl),
      List.nil_append, List.nil_append, hframe]
    rfl
  have hyields := build_yields ctx doc {}
  rw [hdoc] at hyields
  obtain ⟨d, w', run, -⟩ := hyields
  obtain ⟨place, hmirrors, howns, hfind⟩ := build_finds hclosed hapart run
  have hinstalled := World.Installed.definition d hmirrors.roots
  have hfirst : ((.item 0, kid) : Step × Node) ∈ doc.kids := List.mem_cons_self
  have hkept : doc.Keeps ctx [.item 0] := by
    refine .step hfirst (fun hsingle => ?_) .here
    obtain ⟨type, make, plan, htype, hmake, hplan, hsingle⟩ := hsingle
    cases htype
    cases hmake
    cases hplan
    cases hsingle
  have hgone : ¬ doc.Keeps ctx [.item 1, .item 0] := by
    intro hkeeps
    cases hkeeps with
    | step hk _ hrest =>
        obtain rfl : _ = frame := by simpa [hkids] using hk
        cases hrest with
        | step _ hlast _ =>
            have hother := hlast ⟨_, _, _, rfl, rfl, rfl, rfl⟩
            rw [hbelow] at hother
            cases hother
  have hnamed : Build.named (Node.placesBelow doc.kids) "x" =
      [([.item 0], kid), ([.item 1, .item 0], kid)] := by
    rw [hkids, Node.placesBelow_cons, Node.placesBelow_cons, Node.places_eq, Node.places_eq, hbelow,
      Node.placesBelow_cons, Node.placesBelow_cons, Node.places_eq, Node.places_eq]
    rfl
  obtain ⟨q, k, hlast, -, -, hanswer⟩ := hfind [.item 0] kid "x" (by simp) (.step hfirst .here) rfl
  rw [hnamed] at hlast
  cases hlast
  have hreach : doc.Reaches [.item 1, .item 0] kid :=
    .step (k := frame) (List.mem_cons_of_mem _ List.mem_cons_self) (.step List.mem_cons_self .here)
  exact ⟨hclosed, hapart, d, w', place, run, hmirrors,
    (howns _ hinstalled _ kid (.step hfirst .here)).mpr hkept,
    fun h => hgone ((howns _ hinstalled _ kid hreach).mp h), (hanswer _ hinstalled).2 hgone⟩

end Definition

end Trellis
