import Trellis.Proofs.Definition.Places
import Trellis.Proofs.Element.Children

/-!
# What can be wrong with a document

A node is flawed by itself — by its type, by what its constructor says of it, by the shape of its
entries — or by a child that its element does not take.

* `Flaw` — the flaws of a node; `Node.Sound` — a node without any.
* `flaws` — all flaws of a document, in the order in which building would meet them.
* `mem_flaws` — the flaws listed are those of the nodes reached.
-/

namespace Trellis

variable {κ ρ : Type}

/-- What is made of a node, by its type and constructor. -/
def planOf (ctx : BuildContext κ ρ) (path : Path) (n : Node) :
    Except BuildError (String × Blueprint κ ρ) :=
  match n.text? "type" with
  | none => .error (.missingType path)
  | some type =>
    match ctx.registry.find? type with
    | none => .error (.unknownType type path)
    | some make =>
      match make ctx.lookup n with
      | .error reason => .error (.constructor type path reason)
      | .ok plan => .ok (type, plan)

/-- What a container is told of the element of a node. -/
def Node.offer (ctx : BuildContext κ ρ) (n : Node) : Offer where
  weight := n.single? "weight"
  kind := (planOf ctx [] n).toOption.map (·.2.body.kind)

/-- What a container is told of the elements of child nodes. -/
def Node.offers (ctx : BuildContext κ ρ) (kids : List (Step × Node)) : List Offer :=
  kids.map fun kid => kid.2.offer ctx

/-- The elements in the place of child nodes, each with what a container is told of it. -/
def Node.offered (ctx : BuildContext κ ρ) (kids : List (Step × Node)) (childAt : Step → ElementId) :
    List (Offer × ElementId) :=
  kids.map fun kid => (kid.2.offer ctx, childAt kid.1)

/-- The flaws of the node at a path. -/
inductive Flaw (ctx : BuildContext κ ρ) (path : Path) (n : Node) : BuildError → Prop
  | missingType : n.text? "type" = none → Flaw ctx path n (.missingType path)
  | unknownType {type : String} :
      n.text? "type" = some type → ctx.registry.find? type = none →
      Flaw ctx path n (.unknownType type path)
  | constructor {type : String} {make : Constructor κ ρ} {reason : String} :
      n.text? "type" = some type → ctx.registry.find? type = some make →
      make ctx.lookup n = .error reason → Flaw ctx path n (.constructor type path reason)
  /-- The sequence of children is none. -/
  | children {d : Datum} :
      Step.children.from? n = some d → d.toList? = none →
      Flaw ctx path n (.malformed (path ++ [.children]) .children)
  /-- A child, single or in the sequence, is no node. -/
  | child {s : Step} {d : Datum} :
      s ≠ .children → s.from? n = some d → d.toNode? = none →
      Flaw ctx path n (.malformed (path ++ [s]) .child)
  /-- The element does not take a child after those before. -/
  | refused {type : String} {make : Constructor κ ρ} {plan : Blueprint κ ρ} {i : Nat} {s : Step}
      {k : Node} {refusal : Body.Refusal} :
      n.text? "type" = some type → ctx.registry.find? type = some make →
      make ctx.lookup n = .ok plan → n.kids[i]? = some (s, k) →
      plan.body.refusal? (Node.offers ctx (n.kids.take i)) (k.offer ctx) = some refusal →
      Flaw ctx path n (.childRejected type (path ++ [s]) refusal.message)

/-- A node that an element can be made of, with entries of the right shape and children that the
element takes in order. -/
structure Node.Sound (ctx : BuildContext κ ρ) (n : Node) : Prop where
  element : ∃ type make plan, n.text? "type" = some type ∧ ctx.registry.find? type = some make ∧
    make ctx.lookup n = .ok plan ∧
    ∀ childAt, ∃ body, plan.body.addChildren (Node.offered ctx n.kids childAt) = .ok body
  child : ∀ d, n.get? "child" = some d → ∃ k, d = .mapping k
  children : n.get? "child" = none → ∀ d, n.get? "children" = some d →
    ∃ items, d = .list items ∧ ∀ item ∈ items, ∃ k, item = .mapping k

/-- The place that is reported with a flaw is one of the document. -/
theorem Flaw.resolves {ctx : BuildContext κ ρ} {root n : Node} {path : Path} {e : BuildError}
    (reach : root.Reaches path n) (h : Flaw ctx path n e) :
    ∃ place d, e.path? = some place ∧ (Datum.mapping root).resolve? place = some d := by
  have hnode := reach.resolve?
  have hentry (s : Step) (d : Datum) (hfrom : s.from? n = some d) :
      (Datum.mapping root).resolve? (path ++ [s]) = some d := by
    rw [Datum.resolve?_append, hnode]
    show ((s.from? n).bind fun d => some d) = some d
    rw [hfrom]
    rfl
  cases h with
  | missingType | unknownType | constructor => exact ⟨path, _, rfl, hnode⟩
  | children hfrom => exact ⟨_, _, rfl, hentry _ _ hfrom⟩
  | child _ hfrom => exact ⟨_, _, rfl, hentry _ _ hfrom⟩
  | refused _ _ _ hkid =>
      exact ⟨_, _, rfl, hentry _ _ (Node.mem_kids.mp (List.mem_of_getElem? hkid)).2⟩

/-! ## The order of flaws -/

/-- The flaw in the type of a node or by its constructor. -/
def unfit? (ctx : BuildContext κ ρ) (path : Path) (n : Node) : Option BuildError :=
  match planOf ctx path n with
  | .error e => some e
  | .ok _ => none

/-- The flaws in the shape of entries. -/
def malformedIn (path : Path) (entries : List (Step × Datum)) : List BuildError :=
  entries.filterMap fun entry =>
    if entry.2.toNode?.isNone then some (.malformed (path ++ [entry.1]) .child) else none

/-- The flaws in the shape of what a node holds for its children. -/
def misshapen (path : Path) (n : Node) : List BuildError :=
  (if (Step.children.from? n).any (·.toList?.isNone) then
    [.malformed (path ++ [.children]) .children] else []) ++ malformedIn path n.entries

/-- The flaw that an element does not take a child after the `i` before it. -/
def refused? (ctx : BuildContext κ ρ) (path : Path) (n : Node) (i : Nat) (kid : Step × Node) :
    Option BuildError :=
  match planOf ctx path n with
  | .error _ => none
  | .ok (type, plan) =>
    (plan.body.refusal? (Node.offers ctx (n.kids.take i)) (kid.2.offer ctx)).map fun refusal =>
      .childRejected type (path ++ [kid.1]) refusal.message

/-- All flaws of a document in the order of building: those of a node by its type, then those of its
entries by their shape, then for each child all flaws below and the refusal of it. -/
def flaws (ctx : BuildContext κ ρ) (path : Path) (n : Node) : List BuildError :=
  (unfit? ctx path n).toList ++ misshapen path n ++
    n.kids.zipIdx.attach.flatMap fun entry =>
      flaws ctx (path ++ [entry.1.1.1]) entry.1.1.2 ++
        (refused? ctx path n entry.1.2 entry.1.1).toList
termination_by sizeOf n
decreasing_by exact Node.sizeOf_lt_of_mem_kids (List.fst_mem_of_mem_zipIdx entry.2)

/-- The flaws below a node and by its refusals, for children that come after `i` others. -/
def flawsBelow (ctx : BuildContext κ ρ) (path : Path) (n : Node) (i : Nat)
    (kids : List (Step × Node)) : List BuildError :=
  (kids.zipIdx i).flatMap fun entry =>
    flaws ctx (path ++ [entry.1.1]) entry.1.2 ++ (refused? ctx path n entry.2 entry.1).toList

variable {ctx : BuildContext κ ρ} {path : Path} {n : Node} {e : BuildError}

theorem flaws_eq : flaws ctx path n =
    (unfit? ctx path n).toList ++ misshapen path n ++ flawsBelow ctx path n 0 n.kids := by
  rw [flaws, flawsBelow, List.flatMap_subtype (g := fun entry =>
    flaws ctx (path ++ [entry.1.1]) entry.1.2 ++ (refused? ctx path n entry.2 entry.1).toList)
    fun _ _ => rfl, List.unattach_attach]

theorem flawsBelow_cons (i : Nat) (s : Step) (k : Node) (rest : List (Step × Node)) :
    flawsBelow ctx path n i ((s, k) :: rest) =
      flaws ctx (path ++ [s]) k ++ (refused? ctx path n i (s, k)).toList ++
        flawsBelow ctx path n (i + 1) rest := by
  rw [flawsBelow, List.zipIdx_cons, List.flatMap_cons]
  rfl

/-! ## Completeness -/

theorem planOf_eq_ok {type : String} {plan : Blueprint κ ρ} :
    planOf ctx path n = .ok (type, plan) ↔ ∃ make, n.text? "type" = some type ∧
      ctx.registry.find? type = some make ∧ make ctx.lookup n = .ok plan := by
  constructor
  · intro h
    unfold planOf at h
    split at h
    · cases h
    · next found htype =>
        split at h
        · cases h
        · next make hfind =>
            split at h
            · cases h
            · next made hmake =>
                cases h
                exact ⟨make, htype, hfind, hmake⟩
  · rintro ⟨make, htype, hfind, hmake⟩
    simp only [planOf, htype, hfind, hmake]

theorem Flaw.of_unfit (h : unfit? ctx path n = some e) : Flaw ctx path n e := by
  unfold unfit? planOf at h
  split at h
  · next fault hplan =>
      cases h
      split at hplan
      · next htype =>
          cases hplan
          exact .missingType htype
      · next type htype =>
          split at hplan
          · next hfind =>
              cases hplan
              exact .unknownType htype hfind
          · next make hfind =>
              split at hplan
              · next reason hmake =>
                  cases hplan
                  exact .constructor htype hfind hmake
              · cases hplan
  · cases h

theorem mem_malformedIn {entries : List (Step × Datum)} :
    e ∈ malformedIn path entries ↔ ∃ s d, (s, d) ∈ entries ∧ d.toNode? = none ∧
      e = .malformed (path ++ [s]) .child := by
  simp only [malformedIn, List.mem_filterMap, Option.isNone_iff_eq_none, Prod.exists,
    Option.ite_none_right_eq_some, Option.some.injEq]
  constructor
  · rintro ⟨s, d, hmem, hnode, rfl⟩
    exact ⟨s, d, hmem, hnode, rfl⟩
  · rintro ⟨s, d, hmem, hnode, rfl⟩
    exact ⟨s, d, hmem, hnode, rfl⟩

theorem mem_misshapen :
    e ∈ misshapen path n ↔
      (∃ d, Step.children.from? n = some d ∧ d.toList? = none ∧
        e = .malformed (path ++ [.children]) .children) ∨
      ∃ s d, s ≠ .children ∧ s.from? n = some d ∧ d.toNode? = none ∧
        e = .malformed (path ++ [s]) .child := by
  rw [misshapen, List.mem_append, mem_malformedIn]
  refine or_congr ?_ ?_
  · cases Step.children.from? n with
    | none => simp
    | some d => cases hlist : d.toList? <;> simp [hlist]
  · simp only [Node.mem_entries, and_assoc]

theorem refused?_eq_some {s : Step} {k : Node} {i : Nat} :
    refused? ctx path n i (s, k) = some e ↔ ∃ type plan refusal,
      planOf ctx path n = .ok (type, plan) ∧
      plan.body.refusal? (Node.offers ctx (n.kids.take i)) (k.offer ctx) = some refusal ∧
      e = .childRejected type (path ++ [s]) refusal.message := by
  unfold refused?
  cases planOf ctx path n with
  | error fault => simp
  | ok made =>
      obtain ⟨type, plan⟩ := made
      simp only [Option.map_eq_some_iff, Except.ok.injEq, Prod.mk.injEq]
      constructor
      · rintro ⟨refusal, hrefusal, rfl⟩
        exact ⟨type, plan, refusal, ⟨rfl, rfl⟩, hrefusal, rfl⟩
      · rintro ⟨_, _, refusal, ⟨rfl, rfl⟩, hrefusal, rfl⟩
        exact ⟨refusal, hrefusal, rfl⟩

/-- The flaws of a node are those by its type, by the shape of its entries, and by refusals. -/
theorem flaw_iff :
    Flaw ctx path n e ↔ unfit? ctx path n = some e ∨ e ∈ misshapen path n ∨
      ∃ i s k, n.kids[i]? = some (s, k) ∧ refused? ctx path n i (s, k) = some e := by
  constructor
  · intro h
    cases h with
    | missingType htype => exact .inl (by simp only [unfit?, planOf, htype])
    | unknownType htype hfind => exact .inl (by simp only [unfit?, planOf, htype, hfind])
    | constructor htype hfind hmake =>
        exact .inl (by simp only [unfit?, planOf, htype, hfind, hmake])
    | children hfrom hlist => exact .inr (.inl (mem_misshapen.mpr (.inl ⟨_, hfrom, hlist, rfl⟩)))
    | child hs hfrom hnode =>
        exact .inr (.inl (mem_misshapen.mpr (.inr ⟨_, _, hs, hfrom, hnode, rfl⟩)))
    | refused htype hfind hmake hkid hrefusal =>
        have hplan : planOf ctx path n = .ok (_, _) := planOf_eq_ok.mpr ⟨_, htype, hfind, hmake⟩
        exact .inr (.inr ⟨_, _, _, hkid, refused?_eq_some.mpr ⟨_, _, _, hplan, hrefusal, rfl⟩⟩)
  · rintro (h | h | ⟨i, s, k, hkid, h⟩)
    · exact .of_unfit h
    · rcases mem_misshapen.mp h with ⟨d, hfrom, hlist, rfl⟩ | ⟨s, d, hs, hfrom, hnode, rfl⟩
      · exact .children hfrom hlist
      · exact .child hs hfrom hnode
    · obtain ⟨type, plan, refusal, hplan, hrefusal, rfl⟩ := refused?_eq_some.mp h
      obtain ⟨make, htype, hfind, hmake⟩ := planOf_eq_ok.mp hplan
      exact .refused htype hfind hmake hkid hrefusal

/-- Every flaw listed is one of the node or of a document below. -/
theorem mem_flaws_step : e ∈ flaws ctx path n ↔
    Flaw ctx path n e ∨ ∃ s k, (s, k) ∈ n.kids ∧ e ∈ flaws ctx (path ++ [s]) k := by
  rw [flaw_iff, flaws_eq]
  simp only [flawsBelow, List.mem_flatMap, List.mem_append, Option.mem_toList, Prod.exists,
    List.mk_mem_zipIdx_iff_getElem?]
  constructor
  · rintro ((h | h) | ⟨s, k, i, hkid, h | h⟩)
    · exact .inl (.inl h)
    · exact .inl (.inr (.inl h))
    · exact .inr ⟨s, k, List.mem_of_getElem? hkid, h⟩
    · exact .inl (.inr (.inr ⟨i, s, k, hkid, h⟩))
  · rintro ((h | h | ⟨i, s, k, hkid, h⟩) | ⟨s, k, hkid, h⟩)
    · exact .inl (.inl h)
    · exact .inl (.inr h)
    · exact .inr ⟨s, k, i, hkid, .inr h⟩
    · obtain ⟨i, hi⟩ := List.getElem?_of_mem hkid
      exact .inr ⟨s, k, i, hi, .inl h⟩

/-- The flaws listed are those of the nodes that are reached. -/
theorem mem_flaws :
    e ∈ flaws ctx path n ↔ ∃ p m, n.Reaches p m ∧ Flaw ctx (path ++ p) m e := by
  induction n using Node.recOnKids generalizing path with
  | _ n ih =>
      rw [mem_flaws_step]
      constructor
      · rintro (h | ⟨s, k, hk, h⟩)
        · refine ⟨[], n, .here, ?_⟩
          rw [List.append_nil]
          exact h
        · obtain ⟨p, m, hreach, hflaw⟩ := (ih s k hk).mp h
          rw [List.append_assoc] at hflaw
          exact ⟨s :: p, m, .step hk hreach, hflaw⟩
      · rintro ⟨p, m, hreach, hflaw⟩
        -- a flaw of the node itself, or one further down
        cases hreach with
        | here =>
            rw [List.append_nil] at hflaw
            exact .inl hflaw
        | @step _ k _ s p hk hreach =>
            refine .inr ⟨s, k, hk, (ih s k hk).mpr ⟨p, m, hreach, ?_⟩⟩
            rw [List.append_assoc]
            exact hflaw

theorem Node.map_offered (kids : List (Step × Node)) (childAt : Step → ElementId) :
    (offered ctx kids childAt).map (·.1) = offers ctx kids := by
  rw [offered, List.map_map]
  rfl

/-- A child is offered after those before it. -/
theorem Node.offers_split {kids : List (Step × Node)} {childAt : Step → ElementId} {i : Nat}
    {s : Step} {k : Node} (hkid : kids[i]? = some (s, k)) :
    (offered ctx kids childAt).map (·.1) =
      offers ctx (kids.take i) ++ k.offer ctx :: offers ctx (kids.drop (i + 1)) := by
  obtain ⟨hi, hget⟩ := List.getElem?_eq_some_iff.mp hkid
  have hkids : kids = kids.take i ++ (s, k) :: kids.drop (i + 1) := by
    rw [← hget, List.getElem_cons_drop, List.take_append_drop]
  rw [map_offered]
  conv_lhs => rw [hkids]
  rw [offers, List.map_append]
  rfl

/-- What is offered after others is a child. -/
theorem Node.exists_kid_of_split {kids : List (Step × Node)} {childAt : Step → ElementId}
    {taken later : List Offer} {offer : Offer}
    (h : (offered ctx kids childAt).map (·.1) = taken ++ offer :: later) :
    ∃ (i : ℕ) (s : Step) (k : Node), kids[i]? = some (s, k) ∧ taken = offers ctx (kids.take i) ∧
      offer = k.offer ctx := by
  rw [map_offered, offers, List.map_eq_append_iff] at h
  obtain ⟨before, rest, rfl, rfl, h⟩ := h
  obtain ⟨kid, after, rfl, rfl, -⟩ := List.map_eq_cons_iff.mp h
  exact ⟨before.length, kid.1, kid.2, by simp, by simp [offers], rfl⟩

/-- What a step from a sound node leads to is a node, or the sequence of the children. -/
theorem Node.Sound.shape (h : n.Sound ctx) {s : Step} {d : Datum} (hs : s ≠ .children)
    (hfrom : s.from? n = some d) : ∃ k, d = .mapping k := by
  cases s with
  | child => exact h.child d hfrom
  | children => exact absurd rfl hs
  | item i =>
      rw [Step.from?, Option.ite_none_left_eq_some] at hfrom
      obtain ⟨found, hfound, hget⟩ := Option.bind_eq_some_iff.mp hfrom.2
      obtain ⟨l, hl, hlist⟩ := Option.bind_eq_some_iff.mp hfound
      obtain ⟨items, rfl, hitems⟩ := h.children (by simpa using hfrom.1) l hl
      cases hlist
      exact hitems d (List.mem_of_getElem? hget)

theorem Node.Sound.no_flaw (h : n.Sound ctx) : ¬ Flaw ctx path n e := by
  obtain ⟨type, make, plan, htype, hfind, hmake, htakes⟩ := h.element
  have hplan : planOf ctx path n = .ok (type, plan) := planOf_eq_ok.mpr ⟨make, htype, hfind, hmake⟩
  rw [flaw_iff, unfit?, hplan, mem_misshapen]
  rintro (hunfit | (⟨d, hfrom, hlist, -⟩ | ⟨s, d, hs, hfrom, hnode, -⟩) | ⟨i, s, k, hkid, hrefused⟩)
  · cases hunfit
  · rw [Step.from?, Option.ite_none_left_eq_some] at hfrom
    obtain ⟨items, rfl, -⟩ := h.children (by simpa using hfrom.1) d hfrom.2
    cases hlist
  · obtain ⟨k, rfl⟩ := h.shape hs hfrom
    cases hnode
  · obtain ⟨type', plan', refusal, hplan', hrefusal, -⟩ := refused?_eq_some.mp hrefused
    rw [hplan] at hplan'
    cases hplan'
    -- which elements the children get does not matter here
    have htaken := Body.addChildren_eq_ok.mp (htakes fun _ => ⟨0⟩) _ _ _ (offers_split hkid)
    rw [htaken] at hrefusal
    cases hrefusal

theorem Node.Sound.of_no_flaw (path : Path) (h : ∀ e, ¬ Flaw ctx path n e) : n.Sound ctx where
  element := by
    cases hplan : planOf ctx path n with
    | error fault =>
        have hunfit : unfit? ctx path n = some fault := by rw [unfit?, hplan]
        exact absurd (.of_unfit hunfit) (h fault)
    | ok made =>
        obtain ⟨type, plan⟩ := made
        obtain ⟨make, htype, hfind, hmake⟩ := planOf_eq_ok.mp hplan
        -- a child that is not taken would be a flaw by its position
        refine ⟨type, make, plan, htype, hfind, hmake, fun childAt => ?_⟩
        rw [Body.addChildren_eq_ok]
        intro taken offer later heq
        cases hrefusal : plan.body.refusal? taken offer with
        | none => rfl
        | some refusal =>
            obtain ⟨i, s, k, hkid, rfl, rfl⟩ := exists_kid_of_split heq
            exact absurd (.refused htype hfind hmake hkid hrefusal) (h _)
  child := by
    intro d hd
    cases hnode : d.toNode? with
    | none =>
        have hfrom : Step.child.from? n = some d := hd
        exact absurd (.child (by simp) hfrom hnode) (h _)
    | some k => exact ⟨k, Datum.toNode?_eq_some.mp hnode⟩
  children := by
    intro hchild d hd
    cases hlist : d.toList? with
    | none =>
        have hfrom : Step.children.from? n = some d := by
          rw [Step.from?, hchild]
          exact hd
        exact absurd (.children hfrom hlist) (h _)
    | some items =>
        have hd' : d = .list items := by
          cases d <;> cases hlist
          rfl
        refine ⟨items, hd', fun item hitem => ?_⟩
        cases hnode : item.toNode? with
        | none =>
            obtain ⟨i, hi⟩ := List.getElem?_of_mem hitem
            have hfrom : (Step.item i).from? n = some item := by
              rw [Step.from?, hchild, hd, hd']
              exact hi
            exact absurd (.child (by simp) hfrom hnode) (h _)
        | some k => exact ⟨k, Datum.toNode?_eq_some.mp hnode⟩

/-- All nodes that are reached are sound if and only if there is no flaw to list. -/
theorem flaws_eq_nil : flaws ctx path n = [] ↔ ∀ p m, n.Reaches p m → m.Sound ctx := by
  rw [List.eq_nil_iff_forall_not_mem]
  simp only [mem_flaws, not_exists, not_and]
  constructor
  · intro h p m hreach
    exact .of_no_flaw (path ++ p) fun e hflaw => h e p m hreach hflaw
  · intro h e p m hreach
    exact (h p m hreach).no_flaw

end Trellis
