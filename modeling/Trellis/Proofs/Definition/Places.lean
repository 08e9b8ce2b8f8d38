import Mathlib.Data.List.Nodup
import Trellis.Definition.Build

/-!
# The nodes of a document

A document is a tree of nodes. Its places are told apart by the steps that lead to them.

* `Node.kids` — the child nodes of a node, in order; `Node.recOnKids` is induction along them.
* `Node.Reaches` — a path leads from one node to another.
* `Datum.resolve?` — the value that a path leads to, which need not be a node.
* `Node.places` — all nodes with their paths, each after the nodes below it.
-/

namespace Trellis

/-- What a step from a node leads to. A single child hides a sequence of children. -/
def Step.from? (n : Node) : Step → Option Datum
  | .child => n.get? "child"
  | .children => if (n.get? "child").isSome then none else n.get? "children"
  | .item i =>
      if (n.get? "child").isSome then none
      else ((n.get? "children").bind Datum.toList?).bind (·[i]?)

/-- What the steps of a path lead to, one after the other. -/
def Datum.resolve? (d : Datum) : Path → Option Datum
  | [] => some d
  | s :: p => (d.toNode?.bind s.from?).bind (·.resolve? p)

theorem Datum.resolve?_append (d : Datum) (p q : Path) :
    d.resolve? (p ++ q) = (d.resolve? p).bind (·.resolve? q) := by
  induction p generalizing d with
  | nil => rfl
  | cons s p ih =>
      rw [List.cons_append, resolve?, resolve?]
      cases d.toNode?.bind fun n => s.from? n with
      | none => rfl
      | some next => exact ih next

theorem Datum.toNode?_eq_some {d : Datum} {k : Node} : d.toNode? = some k ↔ d = .mapping k := by
  cases d <;> simp [toNode?]

namespace Node

/-- What a node holds for its children, with the steps there. -/
def entries (n : Node) : List (Step × Datum) :=
  match n.get? "child" with
  | some d => [(.child, d)]
  | none => (((n.get? "children").bind Datum.toList?).getD []).mapIdx fun i d => (.item i, d)

/-- The child nodes, with the steps there. Entries of another shape are passed over. -/
def kids (n : Node) : List (Step × Node) :=
  n.entries.filterMap fun entry => entry.2.toNode?.map (entry.1, ·)

theorem mem_entries {n : Node} {s : Step} {d : Datum} :
    (s, d) ∈ n.entries ↔ s ≠ .children ∧ s.from? n = some d := by
  unfold entries
  cases hchild : n.get? "child" with
  | some c => cases s <;> simp [Step.from?, hchild, eq_comm]
  | none =>
      cases hitems : (n.get? "children").bind Datum.toList? with
      | none => cases s <;> simp [Step.from?, hchild, hitems]
      | some items =>
          cases s with
          | child | children => simp [Step.from?, hchild]
          | item i =>
              simp only [Option.getD_some, List.mem_mapIdx, Prod.mk.injEq, Step.item.injEq,
                Step.from?, hchild, hitems, Option.bind_some]
              simp [List.getElem?_eq_some_iff]

theorem mem_kids {n k : Node} {s : Step} :
    (s, k) ∈ n.kids ↔ s ≠ .children ∧ s.from? n = some (.mapping k) := by
  rw [← mem_entries]
  simp only [kids, List.mem_filterMap, Option.map_eq_some_iff, Datum.toNode?_eq_some, Prod.mk.injEq,
    Prod.exists]
  constructor
  · rintro ⟨t, d, hmem, m, rfl, rfl, rfl⟩
    exact hmem
  · intro h
    exact ⟨s, .mapping k, h, k, rfl, rfl, rfl⟩

/-- The steps from a node lead to different places. -/
theorem nodup_entries (n : Node) : n.entries.Pairwise fun a b => a.1 ≠ b.1 := by
  unfold entries
  cases n.get? "child" with
  | some d => exact List.pairwise_singleton _ _
  | none =>
      rw [List.pairwise_iff_getElem]
      intro i j hi hj hij
      simp only [List.getElem_mapIdx, ne_eq, Step.item.injEq]
      omega

theorem nodup_kids (n : Node) : n.kids.Pairwise fun a b => a.1 ≠ b.1 := by
  refine n.nodup_entries.filterMap _ fun a a' hne b hb b' hb' => ?_
  obtain ⟨k, -, rfl⟩ := Option.map_eq_some_iff.mp hb
  obtain ⟨k', -, rfl⟩ := Option.map_eq_some_iff.mp hb'
  exact hne

/-- Child nodes are smaller than what holds them. -/
theorem sizeOf_lt_of_mem_kids {n k : Node} {s : Step} (h : (s, k) ∈ n.kids) :
    sizeOf k < sizeOf n := by
  obtain ⟨hs, hfrom⟩ := mem_kids.mp h
  cases s with
  | child =>
      have hlt := sizeOf_lt_of_get? hfrom
      rw [Datum.mapping.sizeOf_spec] at hlt
      omega
  | children => exact absurd rfl hs
  | item i =>
      rw [Step.from?, Option.ite_none_left_eq_some] at hfrom
      obtain ⟨items, hitems, hget⟩ := Option.bind_eq_some_iff.mp hfrom.2
      obtain ⟨d, hd, hlist⟩ := Option.bind_eq_some_iff.mp hitems
      cases d with
      | list found =>
          cases hlist
          have hlt := sizeOf_lt_of_get? hd
          have hmem := List.sizeOf_lt_of_mem (List.mem_of_getElem? hget)
          rw [Datum.list.sizeOf_spec] at hlt
          rw [Datum.mapping.sizeOf_spec] at hmem
          omega
      | null | flag | int | real | text | mapping => cases hlist

/-- Induction along the child nodes. -/
theorem recOnKids {P : Node → Prop} (n : Node)
    (step : ∀ n : Node, (∀ s k, (s, k) ∈ n.kids → P k) → P n) : P n := by
  induction hsize : sizeOf n using Nat.strongRecOn generalizing n with
  | _ size ih =>
      subst hsize
      exact step n fun s k hk => ih (sizeOf k) (sizeOf_lt_of_mem_kids hk) k rfl

/-! ## Reached nodes -/

/-- The steps of a path lead from a node to another. -/
inductive Reaches : Node → Path → Node → Prop
  | here {n : Node} : Reaches n [] n
  | step {n k m : Node} {s : Step} {p : Path} :
      (s, k) ∈ n.kids → Reaches k p m → Reaches n (s :: p) m

theorem reaches_nil {n m : Node} : n.Reaches [] m ↔ m = n := by
  constructor
  · intro h
    cases h
    rfl
  · rintro rfl
    exact .here

theorem reaches_cons {n m : Node} {s : Step} {p : Path} :
    n.Reaches (s :: p) m ↔ ∃ k, (s, k) ∈ n.kids ∧ k.Reaches p m := by
  constructor
  · intro h
    cases h with
    | step hk hreach => exact ⟨_, hk, hreach⟩
  · rintro ⟨k, hk, hreach⟩
    exact .step hk hreach

/-- One step more. -/
theorem Reaches.snoc {n m k : Node} {p : Path} {s : Step} (h : n.Reaches p m)
    (hk : (s, k) ∈ m.kids) : n.Reaches (p ++ [s]) k := by
  induction h with
  | here => exact .step hk .here
  | step hfirst _ ih => exact .step hfirst (ih hk)

/-- What is reached is what the path resolves to. -/
theorem Reaches.resolve? {n m : Node} {p : Path} (h : n.Reaches p m) :
    (Datum.mapping n).resolve? p = some (.mapping m) := by
  induction h with
  | here => rfl
  | @step n k m s p hk _ ih =>
      have hfrom := (mem_kids.mp hk).2
      rw [Datum.resolve?, show (Datum.mapping n).toNode?.bind s.from? = some (.mapping k) from hfrom]
      exact ih

/-! ## All nodes in order -/

/-- All nodes of a document with the paths to them, each after the nodes below it. -/
def places (n : Node) : List (Path × Node) :=
  (n.kids.attach.flatMap fun entry =>
    (places entry.1.2).map fun place => (entry.1.1 :: place.1, place.2)) ++ [([], n)]
termination_by sizeOf n
decreasing_by exact sizeOf_lt_of_mem_kids entry.2

/-- The nodes of a list of documents, each document after a step of its own. -/
def placesBelow (kids : List (Step × Node)) : List (Path × Node) :=
  kids.flatMap fun entry => entry.2.places.map fun place => (entry.1 :: place.1, place.2)

theorem places_eq (n : Node) : n.places = placesBelow n.kids ++ [([], n)] := by
  rw [places, placesBelow, List.flatMap_subtype (g := fun entry =>
    entry.2.places.map fun place => (entry.1 :: place.1, place.2)) fun _ _ => rfl,
    List.unattach_attach]

theorem placesBelow_cons (s : Step) (k : Node) (rest : List (Step × Node)) :
    placesBelow ((s, k) :: rest) =
      (k.places.map fun place => (s :: place.1, place.2)) ++ placesBelow rest := by
  rw [placesBelow, List.flatMap_cons]
  rfl

theorem cons_mem_placesBelow {kids : List (Step × Node)} {s : Step} {p : Path} {m : Node} :
    (s :: p, m) ∈ placesBelow kids ↔ ∃ k, (s, k) ∈ kids ∧ (p, m) ∈ k.places := by
  simp only [placesBelow, List.mem_flatMap, List.mem_map, Prod.exists, Prod.mk.injEq,
    List.cons.injEq]
  constructor
  · rintro ⟨t, k, hk, q, l, hplace, ⟨rfl, rfl⟩, rfl⟩
    exact ⟨k, hk, hplace⟩
  · rintro ⟨k, hk, hplace⟩
    exact ⟨s, k, hk, p, m, hplace, ⟨rfl, rfl⟩, rfl⟩

theorem nil_not_mem_placesBelow {kids : List (Step × Node)} {m : Node} :
    ([], m) ∉ placesBelow kids := by
  simp [placesBelow]

/-- The nodes listed are those reached. -/
theorem mem_places {n m : Node} {p : Path} : (p, m) ∈ n.places ↔ n.Reaches p m := by
  induction p generalizing n with
  | nil => rw [places_eq, reaches_nil]; simp [nil_not_mem_placesBelow]
  | cons s p ih =>
      rw [places_eq, List.mem_append, cons_mem_placesBelow, reaches_cons]
      simp [ih]

end Node

end Trellis
