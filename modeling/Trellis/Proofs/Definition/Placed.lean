import Trellis.Proofs.Definition.Making

/-!
# Elements in the place of nodes

A built tree has one element for each node of its document. A placement says which.

* `Node.BuiltAs` — an element is what is made of a node.
* `Placed` — nodes have elements, one each, that have been added between two states;
  `Placed.append` puts two lists of nodes together.
* `Build.listAll` — the ids that nodes are listed under, one node after the other.
-/

namespace Trellis

variable {κ ρ : Type}

/-- An element has the body that the constructor made of a node, with the children added that are
in the place of the child nodes, and has the id of the node if that has one. -/
def Node.BuiltAs (ctx : BuildContext κ ρ) (w : World κ ρ) (n : Node) (childAt : Step → ElementId)
    (e : ElementId) : Prop :=
  ∃ type make plan id body, n.text? "type" = some type ∧ ctx.registry.find? type = some make ∧
    make ctx.lookup n = .ok plan ∧ plan.body.addChildren (offered ctx n.kids childAt) = .ok body ∧
    w.form? e = some (id, body) ∧ ∀ own, Build.idOf n = some own → id = own

/-- A container is told of the element of a node what the node says. -/
theorem Node.BuiltAs.offer {ctx : BuildContext κ ρ} {w : World κ ρ} {n : Node}
    {childAt : Step → ElementId} {e : ElementId} (h : n.BuiltAs ctx w childAt e) :
    w.offer e (n.single? "weight") = n.offer ctx := by
  obtain ⟨type, make, plan, id, body, htype, hfind, hmake, hbody, hform, -⟩ := h
  obtain ⟨el, hel, heq⟩ := Option.map_eq_some_iff.mp hform
  cases heq
  have hplan : planOf ctx [] n = .ok (type, plan) := planOf_eq_ok.mpr ⟨make, htype, hfind, hmake⟩
  rw [World.offer, Node.offer, hel, hplan]
  show Offer.mk _ (some el.body.kind) = Offer.mk _ (some plan.body.kind)
  rw [Body.kind_addChildren hbody]

/-- The elements in the place of some nodes, and no others, have been added. -/
structure Placed (ctx : BuildContext κ ρ) (place : Path → ElementId) (w w' : World κ ρ)
    (nodes : List (Path × Node)) : Prop where
  built : ∀ p m, (p, m) ∈ nodes → m.BuiltAs ctx w' (fun s => place (p ++ [s])) (place p)
  distinct : (nodes.map fun entry => place entry.1).Nodup
  added : ∀ e, e ∈ nodes.map (fun entry => place entry.1) ↔
    w.elements.size ≤ e.index ∧ e.index < w'.elements.size
  grown : w.elements.size ≤ w'.elements.size
  younger : ∀ p m, (p, m) ∈ nodes → ∀ kid ∈ m.kids, (place p).index < (place (p ++ [kid.1])).index

variable {ctx : BuildContext κ ρ} {place place' : Path → ElementId} {w v v' w' : World κ ρ}
  {nodes later : List (Path × Node)}

theorem Node.BuiltAs.of_form {n : Node} {childAt : Step → ElementId} {e : ElementId}
    (h : n.BuiltAs ctx w childAt e) (same : w'.form? e = w.form? e) :
    n.BuiltAs ctx w' childAt e := by
  obtain ⟨type, make, plan, id, body, htype, hfind, hmake, hbody, hform, hid⟩ := h
  exact ⟨type, make, plan, id, body, htype, hfind, hmake, hbody, same.trans hform, hid⟩

namespace Placed

theorem nil (h : w'.elements.size = w.elements.size) : Placed ctx place w w' [] where
  built := fun _ _ hmem => absurd hmem List.not_mem_nil
  distinct := List.nodup_nil
  added := by
    intro e
    rw [List.map_nil, h]
    constructor
    · intro hmem
      exact absurd hmem List.not_mem_nil
    · omega
  grown := Nat.le_of_eq h.symm
  younger := fun _ _ hmem => absurd hmem List.not_mem_nil

/-- It matters only where the nodes are placed, and what is below them. -/
theorem congr (h : Placed ctx place w w' nodes)
    (same : ∀ p m, (p, m) ∈ nodes → ∀ q, place' (p ++ q) = place (p ++ q)) :
    Placed ctx place' w w' nodes := by
  have hsame (p : Path) (m : Node) (hmem : (p, m) ∈ nodes) : place' p = place p := by
    have := same p m hmem []
    rwa [List.append_nil] at this
  have hmap : (nodes.map fun entry => place' entry.1) = nodes.map fun entry => place entry.1 :=
    List.map_congr_left fun (p, m) hmem => hsame p m hmem
  refine ⟨fun p m hmem => ?_, ?_, ?_, h.grown, fun p m hmem kid hkid => ?_⟩
  · have hchild : (fun s => place' (p ++ [s])) = fun s => place (p ++ [s]) :=
      funext fun s => same p m hmem [s]
    rw [hsame p m hmem, hchild]
    exact h.built p m hmem
  · rw [hmap]
    exact h.distinct
  · rw [hmap]
    exact h.added
  · rw [hsame p m hmem, same p m hmem [kid.1]]
    exact h.younger p m hmem kid hkid

/-- Nodes that are reached by one step more. -/
theorem under (s : Step) (h : Placed ctx place w w' nodes)
    (same : ∀ p, place' (s :: p) = place p) :
    Placed ctx place' w w' (nodes.map fun entry => (s :: entry.1, entry.2)) := by
  have hmap : ((nodes.map fun entry => (s :: entry.1, entry.2)).map fun entry => place' entry.1) =
      nodes.map fun entry => place entry.1 := by
    rw [List.map_map]
    exact List.map_congr_left fun entry _ => same entry.1
  refine ⟨fun p m hmem => ?_, ?_, ?_, h.grown, fun p m hmem kid hkid => ?_⟩
  · obtain ⟨⟨q, k⟩, hq, heq⟩ := List.mem_map.mp hmem
    cases heq
    have hchild : (fun t => place' (s :: q ++ [t])) = fun t => place (q ++ [t]) :=
      funext fun t => same (q ++ [t])
    rw [same, hchild]
    exact h.built q k hq
  · rw [hmap]
    exact h.distinct
  · rw [hmap]
    exact h.added
  · obtain ⟨⟨q, k⟩, hq, heq⟩ := List.mem_map.mp hmem
    cases heq
    rw [same, List.cons_append, same]
    exact h.younger q k hq kid hkid

/-- Nodes that are placed after others, where the elements of these keep their forms. -/
theorem append (h : Placed ctx place w v nodes) (h' : Placed ctx place v' w' later)
    (size : v'.elements.size = v.elements.size)
    (kept : ∀ e : ElementId, w.elements.size ≤ e.index → e.index < v.elements.size →
      w'.form? e = v.form? e) : Placed ctx place w w' (nodes ++ later) := by
  have hgrown := h.grown
  have hgrown' := h'.grown
  refine ⟨fun p m hmem => ?_, ?_, fun e => ?_, by omega, fun p m hmem => ?_⟩
  · rcases List.mem_append.mp hmem with hmem | hmem
    · -- the earlier elements are in the range that has been left alone since
      have hrange := (h.added (place p)).mp (List.mem_map.mpr ⟨(p, m), hmem, rfl⟩)
      exact (h.built p m hmem).of_form (kept _ hrange.1 hrange.2)
    · exact h'.built p m hmem
  · rw [List.map_append, List.nodup_append]
    -- no element is in both, as the later ones are younger
    refine ⟨h.distinct, h'.distinct, fun e he d hd => ?_⟩
    have hrange := (h.added e).mp he
    have hrange' := (h'.added d).mp hd
    rintro rfl
    omega
  · rw [List.map_append, List.mem_append, h.added, h'.added]
    omega
  · rcases List.mem_append.mp hmem with hmem | hmem
    · exact h.younger p m hmem
    · exact h'.younger p m hmem

/-- A node whose element was added before those of the nodes below it. -/
theorem snoc {p : Path} {n : Node} (h : Placed ctx place v w' nodes)
    (size : v.elements.size = w.elements.size + 1) (first : place p = ⟨w.elements.size⟩)
    (below : ∀ kid ∈ n.kids, (p ++ [kid.1], kid.2) ∈ nodes)
    (built : n.BuiltAs ctx w' (fun s => place (p ++ [s])) (place p)) :
    Placed ctx place w w' (nodes ++ [(p, n)]) := by
  have hgrown := h.grown
  refine ⟨fun q m hmem => ?_, ?_, fun e => ?_, by omega, fun q m hmem kid hkid => ?_⟩
  · rcases List.mem_append.mp hmem with hmem | hmem
    · exact h.built q m hmem
    · cases List.mem_singleton.mp hmem
      exact built
  · rw [List.map_append, List.nodup_append]
    refine ⟨h.distinct, List.nodup_singleton _, fun e he d hd => ?_⟩
    have hrange := (h.added e).mp he
    rw [List.map_singleton, List.mem_singleton, first] at hd
    subst hd
    rintro rfl
    have hlow := hrange.1
    rw [size] at hlow
    exact absurd hlow (Nat.not_succ_le_self _)
  · rw [List.map_append, List.mem_append, h.added, List.map_singleton, List.mem_singleton, first]
    obtain ⟨i⟩ := e
    simp only [ElementId.mk.injEq]
    omega
  · rcases List.mem_append.mp hmem with hmem | hmem
    · exact h.younger q m hmem kid hkid
    · cases List.mem_singleton.mp hmem
      have hchild := List.mem_map_of_mem (f := fun entry => place entry.1) (below kid hkid)
      have hlow : v.elements.size ≤ (place (p ++ [kid.1])).index := ((h.added _).mp hchild).1
      rw [first]
      show w.elements.size < (place (p ++ [kid.1])).index
      omega

end Placed

namespace Build

/-- Lists the elements of nodes under their ids, one after the other. -/
def listAll (place : Path → ElementId) (index : Index) (nodes : List (Path × Node)) : Index :=
  nodes.foldl (fun index entry => list index entry.2 (place entry.1)) index

theorem listAll_append (index : Index) :
    listAll place index (nodes ++ later) = listAll place (listAll place index nodes) later :=
  List.foldl_append

theorem listAll_congr (same : ∀ p m, (p, m) ∈ nodes → place' p = place p) (index : Index) :
    listAll place' index nodes = listAll place index nodes :=
  List.foldl_ext _ _ _ fun _ entry hmem => by rw [same entry.1 entry.2 hmem]

theorem listAll_under (s : Step) (same : ∀ p, place' (s :: p) = place p) (index : Index) :
    listAll place' index (nodes.map fun entry => (s :: entry.1, entry.2)) =
      listAll place index nodes := by
  rw [listAll, List.foldl_map]
  simp only [same]
  rfl

end Build

end Trellis
