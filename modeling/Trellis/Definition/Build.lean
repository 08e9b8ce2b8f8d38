import Trellis.Definition.Error
import Trellis.Document.Format
import Trellis.Machine.Basic
import Trellis.Registry.Basic

/-!
# Building element trees

A document is a tree of mappings. Each names the type of its element, and may have an id, a weight
and children: a single one under `child`, which goes first, or a sequence under `children`. Building
stops at the first fault. Elements with an id of their own are listed, the root excepted.

* `Build.node` — builds the tree of a node.
* `Definition.build`, `Definition.parse`, `Definition.load` — build a node, a text or a document of
  a source.
-/

namespace Trellis

/-- What a tree is built with. -/
structure BuildContext (κ ρ : Type) where
  registry : Registry κ ρ
  lookup : Lookup κ
  window : Option WindowId

/-- Building, which may fail. What has been done until then stays done. -/
abbrev Build (κ ρ : Type) := ExceptT BuildError (Machine κ ρ)

/-- Elements by their ids. -/
abbrev Index := List (String × ElementId)

/-- Lists an element under an id, in place of one listed before. -/
def Index.insert (index : Index) (id : String) (e : ElementId) : Index :=
  index.filter (·.1 ≠ id) ++ [(id, e)]

theorem Node.sizeOf_lt_of_get? {node : Node} {key : String} {d : Datum}
    (h : node.get? key = some d) : sizeOf d < sizeOf node := by
  induction node with
  | nil => simp [Node.get?] at h
  | cons entry rest ih =>
    obtain ⟨k, v⟩ := entry
    unfold Node.get? at h ih
    rw [List.lookup_cons] at h
    split at h
    · cases h
      simp only [List.cons.sizeOf_spec, Prod.mk.sizeOf_spec]
      omega
    · have := ih h
      simp only [List.cons.sizeOf_spec]
      omega

namespace Build

variable {κ ρ : Type}

/-- The id of a node, if it has one. -/
def idOf (node : Node) : Option String := (node.text? "id").filter fun id => !id.isEmpty

/-- Makes the element of a node, without its children, and gives it its id. -/
def instantiate (ctx : BuildContext κ ρ) (type : String) (path : Path) (node : Node) :
    Build κ ρ ElementId := do
  let some constructor := ctx.registry.find? type | throw (.unknownType type path)
  match constructor ctx.lookup node with
  | .error reason => throw (.constructor type path reason)
  | .ok plan => Machine.create ctx.window plan

/-- Makes the element of a node, without its children. Answers its type, too. -/
def element (ctx : BuildContext κ ρ) (path : Path) (n : Node) : Build κ ρ (String × ElementId) := do
  let some type := n.text? "type" | throw (.missingType path)
  let e ← instantiate ctx type path n
  if let some id := idOf n then
    modifyThe (World κ ρ) (·.setId e id)
  pure (type, e)

/-- Adds a child to its parent. -/
def attachChild (type : String) (path : Path) (parent child : ElementId) (weight : Option Float) :
    Build κ ρ Unit := do
  let w ← getThe (World κ ρ)
  let some element := w.element? parent | pure ()
  match element.body.addChild child (w.offer child weight) with
  | .ok body => modifyThe (World κ ρ) (·.modifyElement parent ({ · with body := body }))
  | .error refusal => throw (.childRejected type path refusal.message)

/-- Lists an element under the id of its node, if that has one. -/
def list (index : Index) (node : Node) (e : ElementId) : Index :=
  match idOf node with
  | some id => index.insert id e
  | none => index

/-- What a node holds for its children, with the places. A single child goes before a sequence. -/
def entries (path : Path) (n : Node) : Except BuildError (List (Path × Datum)) :=
  match n.get? "child" with
  | some child => .ok [(path ++ [.child], child)]
  | none =>
    match n.get? "children" with
    | none => .ok []
    | some (.list items) => .ok (items.mapIdx fun i item => (path ++ [.item i], item))
    | some _ => .error (.malformed (path ++ [.children]) .children)

/-- The node that an entry is. -/
def childNode (entry : Path × Datum) : Except BuildError (Path × Node) :=
  match entry.2 with
  | .mapping n => .ok (entry.1, n)
  | _ => .error (.malformed entry.1 .child)

/-- The child nodes of a node with their places. -/
def childNodes (path : Path) (n : Node) : Except BuildError (List (Path × Node)) := do
  (← entries path n).mapM childNode

/-- The size of child nodes, which bounds that of the trees below them. -/
noncomputable def sizeOfNodes (nodes : List (Path × Node)) : Nat :=
  (nodes.map fun entry => 1 + sizeOf entry.2).foldr (· + ·) 0

theorem sizeOfNodes_mapM {entries : List (Path × Datum)} {nodes : List (Path × Node)}
    (h : entries.mapM childNode = .ok nodes) :
    sizeOfNodes nodes ≤ (entries.map fun entry => sizeOf entry.2).foldr (· + ·) 0 := by
  induction entries generalizing nodes with
  | nil =>
      cases h
      exact Nat.le_refl _
  | cons entry rest ih =>
      obtain ⟨path, d⟩ := entry
      rw [List.mapM_cons] at h
      cases d with
      | mapping n =>
          cases hrest : rest.mapM childNode with
          | error fault => rw [hrest] at h; cases h
          | ok later =>
              rw [hrest] at h
              cases h
              have hle := ih hrest
              simp only [sizeOfNodes, List.map_cons, List.foldr_cons, Datum.mapping.sizeOf_spec]
                at hle ⊢
              omega
      | null | flag | int | real | text | list => cases h

theorem sum_sizeOf_le (items : List Datum) :
    (items.map fun item => sizeOf item).foldr (· + ·) 0 ≤ sizeOf items := by
  induction items with
  | nil => simp
  | cons item rest ih =>
      simp only [List.map_cons, List.foldr_cons, List.cons.sizeOf_spec]
      omega

theorem sum_sizeOf_mapIdx (items : List Datum) (path : Path) :
    ((items.mapIdx fun i item => (path ++ [Step.item i], item)).map
      fun entry => sizeOf entry.2).foldr (· + ·) 0 ≤ sizeOf items := by
  have hitems : ((items.mapIdx fun i item => (path ++ [Step.item i], item)).map
      fun entry => sizeOf entry.2) = items.map fun item => sizeOf item := by
    apply List.ext_getElem?
    intro i
    simp [List.getElem?_mapIdx, Function.comp_def]
  rw [hitems]
  exact sum_sizeOf_le items

theorem sizeOfNodes_childNodes {path : Path} {n : Node} {nodes : List (Path × Node)}
    (h : childNodes path n = .ok nodes) : sizeOfNodes nodes < 1 + sizeOf n := by
  unfold childNodes at h
  cases hentries : entries path n with
  | error fault => rw [hentries] at h; cases h
  | ok found =>
      rw [hentries] at h
      have hle := sizeOfNodes_mapM h
      unfold entries at hentries
      split at hentries
      · next child hchild =>
          cases hentries
          have hlt := Node.sizeOf_lt_of_get? hchild
          simp only [List.map_cons, List.map_nil, List.foldr_cons, List.foldr_nil] at hle
          omega
      · split at hentries
        · cases hentries
          simp only [List.map_nil, List.foldr_nil] at hle
          omega
        · next items hitems =>
            cases hentries
            have hlt := Node.sizeOf_lt_of_get? hitems
            have hsum := sum_sizeOf_mapIdx items path
            simp only [Datum.list.sizeOf_spec] at hlt
            omega
        · cases hentries

/-- Builds the trees of child nodes, and adds each to its parent before the next. `index` lists the
elements that have been built before. -/
def children (ctx : BuildContext κ ρ) (type : String) (parent : ElementId) (index : Index) :
    List (Path × Node) → Build κ ρ Index
  | [] => pure index
  | (path, n) :: rest => do
    let (ownType, e) ← element ctx path n
    match _h : childNodes path n with
    | .error fault => throw fault
    | .ok nodes =>
      let index ← children ctx ownType e index nodes
      attachChild type path parent e (n.single? "weight")
      children ctx type parent (list index n e) rest
termination_by nodes => sizeOfNodes nodes
decreasing_by
  · have := sizeOfNodes_childNodes _h
    simp only [sizeOfNodes, List.map_cons, List.foldr_cons] at this ⊢
    omega
  · simp only [sizeOfNodes, List.map_cons, List.foldr_cons]
    omega

/-- Builds the tree of a node. -/
def node (ctx : BuildContext κ ρ) (path : Path) (index : Index) (n : Node) :
    Build κ ρ (ElementId × Index) := do
  let (type, e) ← element ctx path n
  match childNodes path n with
  | .error fault => throw fault
  | .ok nodes => pure (e, ← children ctx type e index nodes)

end Build

namespace Definition

variable {κ ρ : Type}

/-- Builds the tree of a node. -/
def build (ctx : BuildContext κ ρ) (node : Node) : Build κ ρ Definition := do
  let (root, index) ← Build.node ctx [] [] node
  pure { root, index, window := ctx.window }

/-- Builds the tree of a text. -/
def parse (ctx : BuildContext κ ρ) (format : Format) (text : String) : Build κ ρ Definition := do
  match format.read? text with
  | none => throw (.malformed [] .unreadable)
  | some (.mapping node) => build ctx node
  | some _ => throw (.malformed [] .document)

/-- Builds the tree of a document of a source. -/
def load (ctx : BuildContext κ ρ) (source : Source) (name : String) : Build κ ρ Definition := do
  match source.read name with
  | .error .notFound => throw (.sourceNotFound name)
  | .error .other => throw (.unreadable name)
  | .ok bytes =>
    match String.fromUTF8? bytes with
    | none => throw (.malformed [] .unreadable)
    | some text => parse ctx (.ofName name) text

end Definition

end Trellis
