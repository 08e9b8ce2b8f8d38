import Trellis.Proofs.Definition.Placed

/-!
# Building a tree

Building follows the order of flaws: it ends with the first that is listed, or else with an element
in the place of each node. The induction is along the child nodes, and for each node along the list
of those it still has to take.

* `Build.children_cons` — building child nodes is building one, taking it, and building the others.
* `Build.Grown` — the tree of a node has been built.
* `Build.node_yields` — what building a node ends with.
-/

namespace Trellis.Build

variable {κ ρ : Type} {ctx : BuildContext κ ρ} {path : Path} {n : Node}

/-! ## The steps of building -/

/-- The child nodes with the paths to them. -/
def located (path : Path) (kids : List (Step × Node)) : List (Path × Node) :=
  kids.map fun kid => (path ++ [kid.1], kid.2)

theorem mapM_childNode (path : Path) (entries : List (Step × Datum)) :
    (entries.map fun entry => (path ++ [entry.1], entry.2)).mapM childNode =
      match malformedIn path entries with
      | e :: _ => .error e
      | [] => .ok (located path (entries.filterMap fun entry =>
          entry.2.toNode?.map (entry.1, ·))) := by
  induction entries with
  | nil => rfl
  | cons entry rest ih =>
      obtain ⟨s, d⟩ := entry
      rw [List.map_cons, List.mapM_cons, ih]
      cases d with
      | mapping k =>
          show (Except.bind (match malformedIn path rest with
            | e :: _ => _
            | [] => _) _ : Except BuildError (List (Path × Node))) =
              match malformedIn path rest with
              | e :: _ => _
              | [] => _
          cases malformedIn path rest <;> rfl
      | null | flag | int | real | text | list => rfl

theorem entries_eq : entries path n =
    if (Step.children.from? n).any (·.toList?.isNone) then
      .error (.malformed (path ++ [.children]) .children)
    else .ok (n.entries.map fun entry => (path ++ [entry.1], entry.2)) := by
  unfold entries Node.entries Step.from?
  cases n.get? "child" with
  | some d => rfl
  | none =>
      cases n.get? "children" with
      | none => rfl
      | some d =>
          cases d with
          | list items =>
              refine congrArg Except.ok (List.ext_getElem? fun i => ?_)
              simp [Datum.toList?, Function.comp_def]
          | null | flag | int | real | text | mapping => rfl

/-- Child nodes are found unless the shape of an entry is wrong. -/
theorem childNodes_eq : childNodes path n =
    match misshapen path n with
    | e :: _ => .error e
    | [] => .ok (located path n.kids) := by
  rw [childNodes, entries_eq, misshapen]
  split
  · rfl
  · exact mapM_childNode path n.entries

/-- Building child nodes is building one, taking it, and building the others. -/
theorem children_cons (type : String) (parent : ElementId) (index : Index) (p : Path)
    (rest : List (Path × Node)) :
    children ctx type parent index ((p, n) :: rest) = (do
      let (e, index) ← node ctx p index n
      attachChild type p parent e (n.single? "weight")
      children ctx type parent (list index n e) rest) := by
  rw [children, node, bind_assoc]
  refine bind_congr fun made => ?_
  obtain ⟨ownType, e⟩ := made
  dsimp only
  split
  · next fault h =>
      simp only [h]
      rfl
  · next nodes h =>
      simp only [h, bind_assoc, pure_bind]

/-! ## What has been built -/

/-- The trees of child nodes have been built, and their elements added to a parent. -/
structure Attached (ctx : BuildContext κ ρ) (parent : ElementId) (id : String) (body : Body κ)
    (index : Index) (kids : List (Step × Node)) (place : Path → ElementId) (w : World κ ρ)
    (index' : Index) (w' : World κ ρ) : Prop where
  root : place [] = parent
  listed : index' = listAll place index (Node.placesBelow kids)
  placed : Placed ctx place w w' (Node.placesBelow kids)
  taken : ∃ body', body.addChildren (Node.offered ctx kids fun s => place [s]) = .ok body' ∧
    w'.form? parent = some (id, body')
  others : ∀ e : ElementId, e.index < w.elements.size → e ≠ parent → w'.form? e = w.form? e
  roots : w'.roots = w.roots

/-- The tree of a node has been built. -/
structure Grown (ctx : BuildContext κ ρ) (index : Index) (n : Node) (place : Path → ElementId)
    (w : World κ ρ) (made : ElementId × Index) (w' : World κ ρ) : Prop where
  root : place [] = made.1
  first : made.1 = ⟨w.elements.size⟩
  listed : made.2 = listAll place index (Node.placesBelow n.kids)
  placed : Placed ctx place w w' n.places
  older : ∀ e : ElementId, e.index < w.elements.size → w'.form? e = w.form? e
  roots : w'.roots = w.roots

variable {parent : ElementId} {id : String} {body : Body κ} {index : Index}
  {place place' : Path → ElementId} {w v w' : World κ ρ}

theorem Attached.nil (h : w.form? parent = some (id, body)) :
    Attached ctx parent id body index [] (fun _ => parent) w index w where
  root := rfl
  listed := rfl
  placed := .nil rfl
  taken := ⟨body, rfl, h⟩
  others := fun _ _ _ => rfl
  roots := rfl

/-- The first step tells which of two placements counts. -/
def graft (parent : ElementId) (s : Step) (place later : Path → ElementId) : Path → ElementId
  | [] => parent
  | t :: p => if t = s then place p else later (t :: p)

theorem graft_self (s : Step) (later : Path → ElementId) (p : Path) :
    graft parent s place later (s :: p) = place p := if_pos rfl

theorem graft_of_ne {s t : Step} (h : t ≠ s) (later : Path → ElementId) (p : Path) :
    graft parent s place later (t :: p) = later (t :: p) := if_neg h

/-- Nodes that are reached by other steps keep their places. -/
theorem graft_append {s : Step} {rest : List (Step × Node)} (apart : ∀ kid ∈ rest, kid.1 ≠ s)
    (later : Path → ElementId) (p : Path) (m : Node) (h : (p, m) ∈ Node.placesBelow rest)
    (q : Path) : graft parent s place later (p ++ q) = later (p ++ q) := by
  cases p with
  | nil => exact absurd h Node.nil_not_mem_placesBelow
  | cons t p =>
      obtain ⟨k, hk, -⟩ := Node.cons_mem_placesBelow.mp h
      exact graft_of_ne (apart (t, k) hk) later (p ++ q)

theorem offered_graft {s : Step} {rest : List (Step × Node)} (apart : ∀ kid ∈ rest, kid.1 ≠ s)
    (later : Path → ElementId) :
    (Node.offered ctx rest fun t => graft parent s place later [t]) =
      Node.offered ctx rest fun t => later [t] :=
  List.map_congr_left fun kid hkid =>
    congrArg (Prod.mk _) (graft_of_ne (apart kid hkid) later [])

theorem listAll_graft {s : Step} {rest : List (Step × Node)} (apart : ∀ kid ∈ rest, kid.1 ≠ s)
    (later : Path → ElementId) (index : Index) :
    listAll (graft parent s place later) index (Node.placesBelow rest) =
      listAll later index (Node.placesBelow rest) := by
  refine listAll_congr (fun p m hmem => ?_) index
  have hsame : graft parent s place later (p ++ []) = later (p ++ []) :=
    graft_append apart later p m hmem []
  rwa [List.append_nil] at hsame

/-- What a grown tree has listed, its own root included. -/
theorem Grown.listAll_places {k : Node} {e : ElementId} {index₁ : Index}
    (h : Grown ctx index k place w (e, index₁) v) : listAll place index k.places = list index₁ k e := by
  rw [Node.places_eq, listAll_append, ← h.listed]
  show list index₁ k (place []) = _
  rw [h.root]

/-- A child has been built and taken, and then the others. -/
theorem Attached.cons {s : Step} {k : Node} {rest : List (Step × Node)} {e : ElementId}
    {index₁ index' : Index} {later : Path → ElementId} {next : Body κ} {v' : World κ ρ}
    (apart : ∀ kid ∈ rest, kid.1 ≠ s) (old : parent.index < w.elements.size)
    (first : Grown ctx index k place w (e, index₁) v)
    (add : body.addChild e (k.offer ctx) = .ok next)
    (size : v'.elements.size = v.elements.size)
    (others : ∀ d, d ≠ parent → v'.form? d = v.form? d) (roots : v'.roots = v.roots)
    (after : Attached ctx parent id next (list index₁ k e) rest later v' index' w') :
    Attached ctx parent id body index ((s, k) :: rest) (graft parent s place later) w index' w' := by
  have hunder : ∀ p, graft parent s place later (s :: p) = place p := graft_self s later
  have hgrown := first.placed.grown
  refine ⟨rfl, ?_, ?_, ?_, fun d hd hne => ?_, ?_⟩
  · rw [after.listed, Node.placesBelow_cons, listAll_append, listAll_under s hunder,
      first.listAll_places, listAll_graft apart]
  · rw [Node.placesBelow_cons]
    refine (first.placed.under s hunder).append
      (after.placed.congr (graft_append apart later)) size fun d hlow hhigh => ?_
    -- the parent is older, so that nothing of the first tree has been changed since
    have hne : d ≠ parent := by
      rintro rfl
      omega
    rw [after.others d (by omega) hne, others d hne]
  · obtain ⟨body', htaken, hform⟩ := after.taken
    refine ⟨body', ?_, hform⟩
    show Body.addChildren body ((k.offer ctx, graft parent s place later [s]) ::
      Node.offered ctx rest fun t => graft parent s place later [t]) = _
    rw [offered_graft apart, hunder, first.root, Body.addChildren, add]
    exact htaken
  · rw [after.others d (by omega) hne, others d hne, first.older d hd]
  · rw [after.roots, roots, first.roots]

/-! ## What building ends with -/

theorem form?_lt {e : ElementId} {form : String × Body κ} (h : w.form? e = some form) :
    e.index < w.elements.size := by
  obtain ⟨el, hel, -⟩ := Option.map_eq_some_iff.mp h
  exact (Array.getElem?_eq_some_iff.mp hel).1

/-- A container is told of the element of a grown tree what its node says. -/
theorem Grown.offer {k : Node} {e : ElementId} {index₁ : Index}
    (h : Grown ctx index k place w (e, index₁) v) :
    v.offer e (k.single? "weight") = k.offer ctx := by
  have hbuilt := h.placed.built [] k (Node.mem_places.mpr .here)
  rw [h.root] at hbuilt
  exact hbuilt.offer

/-- Child nodes are built in order, each with its flaws and then with the refusal of it. The refusals
of the body at hand are those of the plan after the children that it has taken. -/
theorem children_yields {type : String} {plan : Blueprint κ ρ}
    (hplan : planOf ctx path n = .ok (type, plan)) (kids : List (Step × Node))
    (distinct : kids.Pairwise fun a b => a.1 ≠ b.1)
    (ih : ∀ s k, (s, k) ∈ kids → ∀ path index (w : World κ ρ), (node ctx path index k).Yields w
      (fun made w' => ∃ place, Grown ctx index k place w made w') (flaws ctx path k))
    (i : Nat) (hkids : n.kids.drop i = kids) (body : Body κ) (index : Index) (w : World κ ρ)
    (hparent : w.form? parent = some (id, body))
    (hrefusal : ∀ taken offer, body.refusal? taken offer =
      plan.body.refusal? (Node.offers ctx (n.kids.take i) ++ taken) offer) :
    (children ctx type parent index (located path kids)).Yields w
      (fun index' w' => ∃ place, Attached ctx parent id body index kids place w index' w')
      (flawsBelow ctx path n i kids) := by
  induction kids generalizing i body index w with
  | nil =>
      refine ⟨index, w, ?_, fun _ => parent, .nil hparent⟩
      rw [located, List.map_nil, children]
      rfl
  | cons kid rest ihrest =>
      obtain ⟨s, k⟩ := kid
      rw [List.pairwise_cons] at distinct
      -- the body at hand refuses now what the plan refuses after `i` children
      have hrefused : (refused? ctx path n i (s, k)) = (body.refusal? [] (k.offer ctx)).map
          fun refusal => .childRejected type (path ++ [s]) refusal.message := by
        rw [refused?, hplan, hrefusal, List.append_nil]
      rw [flawsBelow_cons, List.append_assoc, hrefused, located, List.map_cons, children_cons]
      refine (ih s k List.mem_cons_self (path ++ [s]) index w).bind fun made v hmade => ?_
      obtain ⟨e, index₁⟩ := made
      obtain ⟨place, hgrown⟩ := hmade
      have hold := form?_lt hparent
      have hv : v.form? parent = some (id, body) := (hgrown.older parent hold).trans hparent
      rw [← hgrown.offer]
      refine (attachChild_yields hv).bind fun _ v' hv' => ?_
      rw [hgrown.offer] at hv'
      obtain ⟨next, hadd, hsize, hnext, hothers, hroots⟩ := hv'
      have hkid : n.kids[i]? = some (s, k) := by rw [← List.head?_drop, hkids]; rfl
      have hlater : n.kids.drop (i + 1) = rest := by rw [← List.tail_drop, hkids]; rfl
      refine (ihrest distinct.2 (fun s k hk => ih s k (List.mem_cons_of_mem _ hk)) (i + 1) hlater
        next _ v' hnext fun taken offer => ?_).mono fun index' w' hrest => ?_
      · rw [Body.refusal?_addChild hadd, hrefusal, List.take_add_one, hkid, Node.offers,
          Node.offers, List.map_append, List.append_assoc]
        rfl
      · obtain ⟨later, hafter⟩ := hrest
        exact ⟨_, .cons (fun kid hkid => (distinct.1 kid hkid).symm) hold hgrown hadd hsize hothers
          hroots hafter⟩

/-- Building a node ends with the first of its flaws, or with its tree. -/
theorem node_yields (path : Path) (index : Index) (w : World κ ρ) :
    (node ctx path index n).Yields w
      (fun made w' => ∃ place, Grown ctx index n place w made w') (flaws ctx path n) := by
  induction n using Node.recOnKids generalizing path index w with
  | _ n ih =>
      rw [flaws_eq, List.append_assoc, node]
      refine (element_yields w).bind fun made v hmade => ?_
      obtain ⟨type, e⟩ := made
      obtain ⟨plan, id, hplan, rfl, hmade, hid⟩ := hmade
      -- the shape of all entries is looked at before any of them is built
      dsimp only
      rw [childNodes_eq]
      cases misshapen path n with
      | cons fault others => exact ⟨v, rfl⟩
      | nil =>
          have hbelow := children_yields hplan n.kids n.nodup_kids ih 0 rfl plan.body index v
            hmade.new fun _ _ => rfl
          -- after the children there is nothing left to fail
          rw [List.nil_append, ← List.append_nil (flawsBelow ctx path n 0 n.kids)]
          refine hbelow.bind fun index' w' hattached => ?_
          obtain ⟨place, hattached⟩ := hattached
          obtain ⟨make, htype, hfind, hmake⟩ := planOf_eq_ok.mp hplan
          obtain ⟨body', htaken, hform⟩ := hattached.taken
          refine ⟨_, w', rfl, place, hattached.root, rfl, hattached.listed, ?_, fun d hd => ?_, ?_⟩
          · rw [Node.places_eq]
            refine hattached.placed.snoc hmade.size hattached.root (fun kid hkid => ?_) ?_
            · exact Node.cons_mem_placesBelow.mpr ⟨kid.2, hkid, Node.mem_places.mpr .here⟩
            rw [hattached.root]
            exact ⟨type, make, plan, id, body', htype, hfind, hmake, htaken, hform, hid⟩
          · have hsize := hmade.size
            have hne : d ≠ ⟨w.elements.size⟩ := by
              rintro rfl
              exact absurd hd (Nat.lt_irrefl _)
            rw [hattached.others d (by omega) hne]
            exact hmade.others d (by omega)
          · rw [hattached.roots, hmade.roots]

end Trellis.Build
