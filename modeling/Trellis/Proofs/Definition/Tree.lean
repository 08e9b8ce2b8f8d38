import Trellis.Proofs.Definition.Listing
import Trellis.Proofs.Definition.Outcome
import Trellis.Proofs.World.Ownership

/-!
# The tree of a document

A document that builds is mirrored by its elements, and those of nodes with an id can be found as
long as the tree owns them.

* `Definition.Mirrors` — the elements and the index of a tree are those of its document.
* `World.Installed` — a state in which a tree that has been built is held.
* `Definition.build_mirrors` — what is built mirrors the document, and what is found by id.
-/

namespace Trellis

variable {κ ρ : Type}

namespace World

variable {w w' v : World κ ρ}

theorem childrenOf_eq (w : World κ ρ) (e : ElementId) :
    w.childrenOf e = ((w.form? e).map fun form => form.2.children).getD [] := by
  rw [childrenOf, form?, Option.map_map]
  rfl

theorem childrenOf_of_form {e : ElementId} {id : String} {body : Body κ}
    (h : w.form? e = some (id, body)) : w.childrenOf e = body.children := by
  rw [childrenOf_eq, h]
  rfl

/-- A tree that was built between two states is held, next to what was held before. -/
structure Installed (d : Definition) (w w' v : World κ ρ) : Prop where
  elements : v.elements = w'.elements
  root : d.root ∈ v.roots
  others : ∀ r ∈ v.roots, r = d.root ∨ r ∈ w.roots

/-- A tree is held that is the one in use. -/
theorem Installed.definition (d : Definition) (roots : w'.roots = w.roots) :
    Installed d w w' { w' with definition := some d } := by
  refine ⟨rfl, ?_, fun r hr => ?_⟩
  · simp [World.roots]
  · rw [← roots]
    simp only [World.roots, List.mem_append, Option.map_some, Option.toList_some,
      List.mem_cons] at hr ⊢
    tauto

end World

/-- Each node that is reached has an element, with the elements of its child nodes for children, and
the ids of all nodes but the root are listed with the element of the last node of that id. -/
structure Definition.Mirrors (ctx : BuildContext κ ρ) (doc : Node) (w : World κ ρ)
    (d : Definition) (w' : World κ ρ) (place : Path → ElementId) : Prop where
  root : place [] = d.root
  built : ∀ p m, doc.Reaches p m → m.BuiltAs ctx w' (fun s => place (p ++ [s])) (place p)
  distinct : ∀ p m q k, doc.Reaches p m → doc.Reaches q k → place p = place q → p = q
  added : ∀ e, (∃ p m, doc.Reaches p m ∧ place p = e) ↔
    w.elements.size ≤ e.index ∧ e.index < w'.elements.size
  younger : ∀ p m, doc.Reaches p m → ∀ kid ∈ m.kids, (place p).index < (place (p ++ [kid.1])).index
  /-- Layouts of one child keep the last, other containers all of them, in order. -/
  held : ∀ p m, doc.Reaches p m → ∃ type make plan, m.text? "type" = some type ∧
    ctx.registry.find? type = some make ∧ make ctx.lookup m = .ok plan ∧
    w'.childrenOf (place p) =
      if plan.body.single then
        (m.kids.getLast?.map fun kid => [place (p ++ [kid.1])]).getD plan.body.children
      else plan.body.children ++ m.kids.map fun kid => place (p ++ [kid.1])
  older : ∀ e : ElementId, e.index < w.elements.size → w'.form? e = w.form? e
  roots : w'.roots = w.roots
  ids : ∀ id, id ∈ d.index.map (·.1) ↔
    ∃ p m, p ≠ [] ∧ doc.Reaches p m ∧ Build.idOf m = some id
  apart : (d.index.map (·.1)).Nodup
  listed : ∀ id, d.index.lookup id =
    (Build.named (Node.placesBelow doc.kids) id).getLast?.map fun entry => place entry.1
  rootless : ∀ id, d.index.lookup id ≠ some d.root

namespace Definition

variable {ctx : BuildContext κ ρ} {doc : Node} {w w' v : World κ ρ} {d : Definition}
  {place : Path → ElementId}

theorem mem_placesBelow_kids {p : Path} {m : Node} :
    (p, m) ∈ Node.placesBelow doc.kids ↔ p ≠ [] ∧ doc.Reaches p m := by
  cases p with
  | nil => simp [Node.nil_not_mem_placesBelow]
  | cons s p => simp [Node.cons_mem_placesBelow, Node.reaches_cons, Node.mem_places]

/-- The last node of an id, where there is one, is not the root. -/
theorem getLast?_named {id : String} {p : Path} {m : Node}
    (h : (Build.named (Node.placesBelow doc.kids) id).getLast? = some (p, m)) :
    p ≠ [] ∧ doc.Reaches p m ∧ Build.idOf m = some id := by
  obtain ⟨hmem, hid⟩ := List.mem_filter.mp (List.mem_of_getLast? h)
  obtain ⟨hne, hreach⟩ := mem_placesBelow_kids.mp hmem
  exact ⟨hne, hreach, of_decide_eq_true hid⟩

/-- The elements of a node hold those of its child nodes. -/
theorem held_of_built {p : Path} {m : Node}
    (h : m.BuiltAs ctx w' (fun s => place (p ++ [s])) (place p)) :
    ∃ type make plan, m.text? "type" = some type ∧ ctx.registry.find? type = some make ∧
      make ctx.lookup m = .ok plan ∧ w'.childrenOf (place p) =
        if plan.body.single then
          (m.kids.getLast?.map fun kid => [place (p ++ [kid.1])]).getD plan.body.children
        else plan.body.children ++ m.kids.map fun kid => place (p ++ [kid.1]) := by
  obtain ⟨type, make, plan, id, body, htype, hfind, hmake, hbody, hform, -⟩ := h
  refine ⟨type, make, plan, htype, hfind, hmake, ?_⟩
  rw [World.childrenOf_of_form hform, Body.children_addChildren hbody, Node.offered,
    List.getLast?_map, List.map_map, Option.map_map, Option.map_map]
  rfl

/-- A tree that has grown mirrors its document. -/
theorem mirrors_of_grown (h : Build.Grown ctx [] doc place w (d.root, d.index) w') :
    Mirrors ctx doc w d w' place := by
  have hindex : d.index = Build.listAll place [] (Node.placesBelow doc.kids) := h.listed
  have hlookup (id : String) : d.index.lookup id =
      (Build.named (Node.placesBelow doc.kids) id).getLast?.map fun entry => place entry.1 := by
    rw [hindex, Build.lookup_listAll]
    exact Option.or_none
  have hbuilt (p : Path) (m : Node) (hreach : doc.Reaches p m) :
      m.BuiltAs ctx w' (fun s => place (p ++ [s])) (place p) :=
    h.placed.built p m (Node.mem_places.mpr hreach)
  have hdistinct (p : Path) (m : Node) (q : Path) (k : Node) (hp : doc.Reaches p m)
      (hq : doc.Reaches q k) (heq : place p = place q) : p = q := by
    have := List.inj_on_of_nodup_map h.placed.distinct (Node.mem_places.mpr hp)
      (Node.mem_places.mpr hq) heq
    exact congrArg Prod.fst this
  have hyounger (p : Path) (m : Node) (hreach : doc.Reaches p m) :=
    h.placed.younger p m (Node.mem_places.mpr hreach)
  refine ⟨h.root, hbuilt, hdistinct, fun e => ?_, hyounger,
    fun p m hreach => held_of_built (hbuilt p m hreach), h.older, h.roots, fun id => ?_, ?_,
    hlookup, fun id hid => ?_⟩
  · rw [← h.placed.added, List.mem_map]
    constructor
    · rintro ⟨p, m, hreach, rfl⟩
      exact ⟨(p, m), Node.mem_places.mpr hreach, rfl⟩
    · rintro ⟨⟨p, m⟩, hmem, rfl⟩
      exact ⟨p, m, Node.mem_places.mp hmem, rfl⟩
  · rw [Index.mem_keys, hlookup, Option.isSome_map]
    constructor
    · intro hsome
      obtain ⟨⟨p, m⟩, hlast⟩ := Option.isSome_iff_exists.mp hsome
      exact ⟨p, m, getLast?_named hlast⟩
    · rintro ⟨p, m, hne, hreach, hid⟩
      have hmem : (p, m) ∈ Build.named (Node.placesBelow doc.kids) id :=
        List.mem_filter.mpr ⟨mem_placesBelow_kids.mpr ⟨hne, hreach⟩, decide_eq_true hid⟩
      exact List.getLast?_isSome.mpr (List.ne_nil_of_mem hmem)
  · have hnil : (([] : Index).map (·.1)).Nodup := List.nodup_nil
    rw [hindex]
    exact Build.nodup_listAll hnil _
  · -- what is listed is in the place of a path that is not empty
    rw [hlookup] at hid
    obtain ⟨⟨p, m⟩, hlast, hplace⟩ := Option.map_eq_some_iff.mp hid
    obtain ⟨hne, hreach, -⟩ := getLast?_named hlast
    exact hne (hdistinct p m [] doc hreach .here (hplace.trans h.root.symm))

/-- Elements that were there before keep their children. -/
theorem Mirrors.childrenOf_older (h : Mirrors ctx doc w d w' place)
    (installed : World.Installed d w w' v) (e : ElementId) (old : e.index < w.elements.size) :
    v.childrenOf e = w.childrenOf e := by
  rw [World.childrenOf_eq w, ← h.older e old, ← World.childrenOf_eq]
  rw [World.childrenOf, World.childrenOf, World.element?, World.element?, installed.elements]

/-- Building refers to nothing that is not there, unless a constructor does. -/
theorem Mirrors.closed (h : Mirrors ctx doc w d w' place) (closed : w.Closed)
    (plain : ∀ type make n plan, ctx.registry.find? type = some make →
      make ctx.lookup n = .ok plan → ∀ c ∈ plan.body.children, c.index < w.elements.size) :
    w'.Closed := by
  have hadded (p : Path) (m : Node) (hreach : doc.Reaches p m) :=
    (h.added (place p)).mp ⟨p, m, hreach, rfl⟩
  have hgrown := hadded [] doc .here
  refine ⟨fun r hr => ?_, fun e c hc => ?_⟩
  · rw [h.roots] at hr
    have := closed.roots r hr
    omega
  by_cases hold : e.index < w.elements.size
  · rw [World.childrenOf_eq, h.older e hold, ← World.childrenOf_eq] at hc
    have := closed.children e c hc
    omega
  by_cases hnew : e.index < w'.elements.size
  · obtain ⟨p, m, hreach, rfl⟩ := (h.added e).mpr ⟨by omega, hnew⟩
    obtain ⟨type, make, plan, -, hfind, hmake, hheld⟩ := h.held p m hreach
    have hplain := plain type make m plan hfind hmake c
    -- a child of the element is one of the constructor's or in the place of a child node
    have hchild : c ∈ plan.body.children ∨ ∃ kid ∈ m.kids, place (p ++ [kid.1]) = c := by
      rw [hheld] at hc
      split at hc
      · cases hlast : m.kids.getLast? with
        | none =>
            rw [hlast] at hc
            exact .inl hc
        | some kid =>
            rw [hlast] at hc
            exact .inr ⟨kid, List.mem_of_getLast? hlast, (List.mem_singleton.mp hc).symm⟩
      · rcases List.mem_append.mp hc with hc | hc
        · exact .inl hc
        · exact .inr (List.mem_map.mp hc)
    rcases hchild with hc | ⟨kid, hkid, rfl⟩
    · have := hplain hc
      omega
    · exact (hadded _ kid.2 (hreach.snoc hkid)).2
  · have hnone : w'.element? e = none := Array.getElem?_eq_none (by omega)
    rw [World.childrenOf, hnone] at hc
    cases hc

/-- Elements that were built are held by nothing but the tree. -/
theorem Mirrors.elementAlive_iff (h : Mirrors ctx doc w d w' place) (closed : w.Closed)
    (installed : World.Installed d w w' v) {p : Path} {m : Node} (hreach : doc.Reaches p m) :
    v.elementAlive (place p) = true ↔ v.Owns d.root (place p) := by
  rw [World.elementAlive_iff]
  refine ⟨?_, fun howns => ⟨d.root, installed.root, howns⟩⟩
  rintro ⟨r, hr, howns⟩
  rcases installed.others r hr with rfl | hold
  · exact howns
  · -- what was held before owns nothing that is new
    have hnew := ((h.added (place p)).mp ⟨p, m, hreach, rfl⟩).1
    have hlt := closed.lt_of_owns (h.childrenOf_older installed) howns (closed.roots r hold)
    exact absurd hlt (Nat.not_lt.mpr hnew)

/-- A document that builds is mirrored by its elements. -/
theorem exists_mirrors (run : build ctx doc w = .ok (.ok d, w')) :
    ∃ place, Mirrors ctx doc w d w' place := by
  have hyields := build_yields ctx doc w
  cases hflaws : flaws ctx [] doc with
  | cons first later =>
      rw [hflaws] at hyields
      -- a flaw would have ended the run
      obtain ⟨w₁, hrun⟩ := hyields
      rw [run] at hrun
      cases hrun
  | nil =>
      rw [hflaws] at hyields
      obtain ⟨d₁, w₁, hrun, place, hgrown⟩ := hyields
      rw [run] at hrun
      cases hrun
      exact ⟨place, mirrors_of_grown hgrown⟩

/-- A document that builds is mirrored by its elements. Looking an id up finds the element of the
last node of that id, in post-order and the root excepted, if the tree still owns it. -/
theorem build_mirrors (closed : w.Closed) (run : build ctx doc w = .ok (.ok d, w')) :
    ∃ place, Mirrors ctx doc w d w' place ∧ ∀ v, World.Installed d w w' v → ∀ id e,
      v.find? d.index id = some e ↔
        ((Build.named (Node.placesBelow doc.kids) id).getLast?.map fun entry => place entry.1) =
          some e ∧ v.Owns d.root e := by
  obtain ⟨place, hmirrors⟩ := exists_mirrors run
  refine ⟨place, hmirrors, fun v hv id e => ?_⟩
  rw [World.find?, Option.filter_eq_some_iff, hmirrors.listed]
  refine and_congr_right fun hlast => ?_
  obtain ⟨⟨p, m⟩, hpm, rfl⟩ := Option.map_eq_some_iff.mp hlast
  exact hmirrors.elementAlive_iff closed hv (getLast?_named hpm).2.1

/-- A child is found by its id in the tree of its parent. -/
theorem build_mirrors_child :
    let ctx : BuildContext Unit Unit := {
      registry := ⟨[("box", fun _ _ => .ok { body := .stack (fun _ _ => none) [] })]⟩
      lookup := .none
      window := none }
    let kid : Node := [("type", .text "box"), ("id", .text "a")]
    let doc : Node := [("type", .text "box"), ("child", .mapping kid)]
    ∃ d w' place, build ctx doc {} = .ok (.ok d, w') ∧ Mirrors ctx doc {} d w' place ∧
      World.find? { w' with definition := some d } d.index "a" = some (place [.child]) := by
  intro ctx kid doc
  have hkids : doc.kids = [(.child, kid)] := rfl
  have hkid : flaws ctx [.child] kid = [] := by
    rw [flaws_eq]
    rfl
  have hdoc : flaws ctx [] doc = [] := by
    rw [flaws_eq, hkids, flawsBelow_cons, List.nil_append, hkid]
    rfl
  have hyields := build_yields ctx doc {}
  rw [hdoc] at hyields
  obtain ⟨d, w', run, -⟩ := hyields
  have hclosed : World.Closed ({} : World Unit Unit) := by
    refine ⟨fun r hr => ?_, fun e c hc => ?_⟩
    · cases hr
    · cases hc
  obtain ⟨place, hmirrors, hfind⟩ := build_mirrors hclosed run
  refine ⟨d, w', place, run, hmirrors, ?_⟩
  have hplaces : Node.placesBelow doc.kids = [([.child], kid)] := by
    rw [hkids, Node.placesBelow_cons, Node.places_eq]
    rfl
  obtain ⟨type, make, plan, htype, hmake, hplan, hheld⟩ := hmirrors.held [] doc .here
  have hinstalled := World.Installed.definition d hmirrors.roots
  refine (hfind _ hinstalled "a" (place [.child])).mpr ⟨?_, .single ⟨?_, ?_⟩⟩
  · rw [hplaces]
    rfl
  · cases htype
    cases hmake
    cases hplan
    rw [← hmirrors.root]
    show place [.child] ∈ w'.childrenOf (place [])
    rw [hheld, hkids]
    exact List.mem_singleton.mpr rfl
  · rw [← hmirrors.root]
    exact hmirrors.younger [] doc .here (.child, kid) (List.mem_singleton.mpr rfl)

end Definition

end Trellis
