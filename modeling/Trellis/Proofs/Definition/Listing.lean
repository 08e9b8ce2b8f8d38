import Trellis.Proofs.Definition.Placed

/-!
# Listing elements by id

Elements are listed under the ids of their nodes, one after the other. A later one takes the place
of an earlier one.

* `Index.lookup_insert` — what an insertion changes.
* `Build.lookup_listAll` — the element listed under an id is that of the last node of that id.
-/

namespace Trellis

variable {place : Path → ElementId}

namespace Index

theorem mem_keys {index : Index} {id : String} :
    id ∈ index.map (·.1) ↔ (index.lookup id).isSome := by
  rw [List.lookup_isSome_iff, List.mem_map]
  constructor
  · rintro ⟨entry, hmem, rfl⟩
    exact ⟨entry, hmem, beq_self_eq_true _⟩
  · rintro ⟨entry, hmem, hkey⟩
    exact ⟨entry, hmem, (eq_of_beq hkey).symm⟩

theorem lookup_filter_ne (index : Index) (id key : String) :
    List.lookup key (index.filter (·.1 ≠ id)) = if key = id then none else index.lookup key := by
  induction index with
  | nil => simp
  | cons entry rest ih =>
      obtain ⟨own, e⟩ := entry
      rw [List.filter_cons]
      by_cases hown : own = id
      · subst hown
        rw [if_neg (by simp), ih]
        by_cases hkey : key = own
        · rw [if_pos hkey, if_pos hkey]
        · have hbeq : (key == own) = false := beq_eq_false_iff_ne.mpr hkey
          rw [if_neg hkey, if_neg hkey, List.lookup_cons, hbeq]
      · rw [if_pos (by simpa using hown), List.lookup_cons, ih, List.lookup_cons]
        by_cases hkey : key = own
        · subst hkey
          rw [beq_self_eq_true]
          exact (if_neg hown).symm
        · have hbeq : (key == own) = false := beq_eq_false_iff_ne.mpr hkey
          rw [hbeq]

theorem lookup_insert (index : Index) (id key : String) (e : ElementId) :
    (index.insert id e).lookup key = if key = id then some e else index.lookup key := by
  rw [insert, List.lookup_append, lookup_filter_ne, List.lookup_cons]
  by_cases hkey : key = id
  · subst hkey
    rw [beq_self_eq_true, if_pos rfl, if_pos rfl]
    rfl
  · have hbeq : (key == id) = false := beq_eq_false_iff_ne.mpr hkey
    rw [hbeq, if_neg hkey, if_neg hkey]
    exact Option.or_none

theorem nodup_insert {index : Index} (h : (index.map (·.1)).Nodup) (id : String)
    (e : ElementId) : ((index.insert id e).map (·.1)).Nodup := by
  rw [insert, List.map_append, List.nodup_append]
  refine ⟨h.sublist (List.filter_sublist.map _), List.nodup_singleton _, ?_⟩
  intro own hown key hkey
  obtain ⟨entry, hentry, rfl⟩ := List.mem_map.mp hown
  rw [List.mem_singleton.mp hkey]
  simpa using (List.mem_filter.mp hentry).2

end Index

namespace Build

/-- The nodes of an id. -/
def named (nodes : List (Path × Node)) (id : String) : List (Path × Node) :=
  nodes.filter fun entry => idOf entry.2 = some id

theorem lookup_list (index : Index) (n : Node) (e : ElementId) (id : String) :
    (list index n e).lookup id = if idOf n = some id then some e else index.lookup id := by
  unfold list
  cases idOf n with
  | none => simp
  | some own => simp [Index.lookup_insert, eq_comm]

/-- The element listed under an id is that of the last node of that id. -/
theorem lookup_listAll (index : Index) (nodes : List (Path × Node)) (id : String) :
    (listAll place index nodes).lookup id =
      ((named nodes id).getLast?.map fun entry => place entry.1).or (index.lookup id) := by
  induction nodes generalizing index with
  | nil => rfl
  | cons entry rest ih =>
      show (listAll place (list index entry.2 (place entry.1)) rest).lookup id = _
      rw [ih, lookup_list, named, named, List.filter_cons]
      by_cases hid : idOf entry.2 = some id
      · simp only [hid, decide_true, if_true, List.getLast?_cons]
        cases (rest.filter fun entry => idOf entry.2 = some id).getLast? <;> rfl
      · simp only [hid, decide_false, Bool.false_eq_true, if_false]

theorem nodup_listAll {index : Index} (h : (index.map (·.1)).Nodup) (nodes : List (Path × Node)) :
    ((listAll place index nodes).map (·.1)).Nodup := by
  induction nodes generalizing index with
  | nil => exact h
  | cons entry rest ih =>
      have hnext : ((list index entry.2 (place entry.1)).map (·.1)).Nodup := by
        unfold list
        cases idOf entry.2 with
        | none => exact h
        | some id => exact Index.nodup_insert h id (place entry.1)
      exact ih hnext

end Build

end Trellis
