import Trellis.Host.Views
import Trellis.Proofs.Definition.Making
import Trellis.Proofs.Machine.Permissive

/-!
# The calls on views

What views do when they are prepared, handle events, draw or are destroyed is within the reach of
callbacks, and so are the deferred tasks.

* `Machine.handleEvents_respects`, `Machine.draw_respects` — the frame of a tree.
* `Definition.load_respects` — building a document.
* `Machine.prepareView_respects` and its like — the calls on a view.
-/

namespace Trellis

variable {κ ρ : Type} {R : World κ ρ → World κ ρ → Prop}

open World (Tolerant Liberal Permissive)

/-! ## Events -/

namespace Machine

/-- Once its state has changed, a pressable widget at most sets its value, asks for a frame and
reports. -/
theorem react_respects [IsPreorder (World κ ρ) R] [Ordered ρ] {r : Reentry κ ρ} {e : ElementId}
    (sets : ∀ value, Respects R (setValue e value)) (asks : ∀ window, Respects R (invalidate window))
    (reports : Respects R (report r e)) (element : Element κ) (before now : PointerState)
    (clicks : Nat) : Respects R (react r e element before now clicks) := by
  unfold react
  split
  · split
    · refine .bind (valueOf_respects e) fun value => ?_
      split
      · exact .bind (sets _) fun _ => reports
      · exact reports
    · exact reports
  · split
    · exact asks _
    · exact .pure _

section Liberal

variable [Liberal R]

section Events

variable [Ordered ρ] {r : Reentry κ ρ} (hr : r.Respectful R)

include hr

theorem runHandlers_respects (app : App κ ρ) (ctx : EventContext) (id : String) (codes : List κ) :
    Respects R (runHandlers app r ctx id codes) :=
  .forM_list codes fun code => (app.handler code ctx id).run_respects hr

theorem handlePointer_respects (app : App κ ρ) (ctx : EventContext) (e : ElementId)
    (element : Element κ) (handlers : PointerHandlers κ) (before : PointerState) :
    Respects R (handlePointer app r ctx e element handlers before) := by
  refine .bind (.modify fun w => World.Tolerant.refitted w e _ fun _ _ => ⟨rfl, rfl⟩) fun _ => ?_
  exact .bind (react_respects (setValue_respects e) invalidate_respects (report_respects hr e) _ _ _ _)
    fun _ => runHandlers_respects hr app ctx element.id _

omit [Ordered ρ] hr in
theorem acceptFrom_respects {allowed : List Char → Machine κ ρ (List Char)}
    (h : ∀ taken, Respects R (allowed taken)) (multiLine : Bool) (maxLength : Nat)
    (taken edited : List Char) :
    Respects R (acceptFrom allowed multiLine maxLength taken edited) := by
  induction edited generalizing taken with
  | nil => exact .pure _
  | cons c rest ih =>
      rw [acceptFrom]
      split
      · exact .pure _
      · split
        · exact ih _
        · refine .bind (h taken) fun filter => ?_
          split <;> exact ih _

theorem enterText_respects (app : App κ ρ) (ctx : EventContext) (e : ElementId) (id : String)
    (input : Input κ) (edited : String) :
    Respects R (enterText app r ctx e id input edited) := by
  have hallowed (taken : List Char) : Respects R (do
      pure (← (filterAfter app ctx id input (String.ofList taken)).run r).toList) :=
    .bind (Program.run_respects hr _) fun _ => .pure _
  exact .bind (acceptFrom_respects hallowed _ _ _ _) fun _ => setValue_respects e _

theorem handleInput_respects (app : App κ ρ) (ctx : EventContext) (e : ElementId) (id : String)
    (input : Input κ) : Respects R (handleInput app r ctx e id input) := by
  refine .bind (.forM_list _ fun event => ?_) fun _ => .bind (report_respects hr e) fun _ =>
    runHandlers_respects hr app ctx id _
  unfold takeEvent
  split
  · split
    · exact .pure _
    · exact enterText_respects hr app ctx e id input _
  · exact .pure _

theorem handleSlider_respects (ctx : EventContext) (e : ElementId) (id : String) :
    Respects R (handleSlider r ctx e id) := by
  unfold handleSlider
  dsimp only
  split
  · exact .bind (setValue_respects e _) fun _ => report_respects hr e
  · exact report_respects hr e

theorem handleItems_respects (app : App κ ρ) (ctx : EventContext) (element : Element κ)
    (list : ItemList κ) : Respects R (handleItems app r ctx element list) := by
  unfold handleItems
  split
  · exact .get_bind fun w => .forM_list _ fun i => Program.run_respects hr _
  · exact .pure _

theorem handleLeaf_respects (app : App κ ρ) (ctx : EventContext) (e : ElementId)
    (element : Element κ) : Respects R (handleLeaf app r ctx e element) := by
  unfold handleLeaf
  split
  · exact handlePointer_respects hr app ctx e element _ _
  · exact handlePointer_respects hr app ctx e element _ _
  · exact handlePointer_respects hr app ctx e element _ _
  · exact handleInput_respects hr app ctx e _ _
  · exact handleSlider_respects hr ctx e _
  · exact report_respects hr e
  · exact report_respects hr e
  · exact handleItems_respects hr app ctx element _
  · exact .modify fun w => World.Tolerant.refitted w e _ fun _ _ => ⟨rfl, rfl⟩
  · exact .pure _

theorem handleWithin_respects (app : App κ ρ) (ctx : EventContext) (depth : Nat) (e : ElementId) :
    Respects R (handleWithin app r ctx depth e) := by
  induction depth generalizing e with
  | zero => exact .stop _
  | succ depth ih =>
      refine locking_respects e (.get_bind fun _ => ?_)
      split
      · split
        all_goals first
          | exact .forM_list _ ih
          | exact handleLeaf_respects hr app ctx e _
      · exact .pure _

theorem handleEvents_respects (app : App κ ρ) (ctx : EventContext) (e : ElementId) :
    Respects R (handleEvents app r ctx e) :=
  .get_bind fun _ => handleWithin_respects hr app ctx _ e

end Events

/-! ## Drawing -/

theorem figureWithin_respects (app : App κ ρ) (depth : Nat) (e : ElementId) :
    Respects R (figureWithin app depth e) := by
  induction depth generalizing e with
  | zero => exact .stop _
  | succ depth ih =>
      refine .get_bind fun w => ?_
      split
      · exact .pure _
      · split
        · exact .stop _
        · split
          · exact .bind (.mapM_list _ fun child => .bind (ih child.2) fun _ => .pure _) fun _ =>
              .pure _
          · exact .bind (.mapM_option _ ih) fun _ => .pure _
          · exact .bind (.mapM_option _ ih) fun _ => .pure _
          · exact .bind (.mapM_list _ fun child => ih child.2) fun _ => .pure _
          · exact .bind (valueOf_respects e) fun _ => .pure _

theorem draw_respects [Ordered ρ] {r : Reentry κ ρ} (hr : r.Respectful R) (app : App κ ρ)
    (e : ElementId) (canvas : Canvas Float (Request κ)) : Respects R (draw app r e canvas) := by
  have hgrant (request : Request κ) : Respects R (grant r request) := by
    cases request with
    | note line => exact note_respects line
    | invalidate window => exact invalidate_respects _
    | defer window code => exact defer_respects hr window _
  have hfigure : Respects R (figure app e) := .get_bind fun w => figureWithin_respects app _ e
  exact .bind hfigure fun figure => .bind (.forM_list _ hgrant) fun _ => .pure _

end Liberal

end Machine

variable [Permissive R]

/-! ## Building -/

namespace Build

variable {α β : Type}

/-- Every run of a part of building is in the relation, also of one that fails. -/
def Respects (R : World κ ρ → World κ ρ → Prop) (m : Build κ ρ α) : Prop :=
  Machine.Respects R m.run

theorem Respects.pure (a : α) : Respects R (pure a : Build κ ρ α) := Machine.Respects.pure _

theorem Respects.throw (e : BuildError) : Respects R (throw e : Build κ ρ α) :=
  Machine.Respects.pure _

theorem Respects.bind {m : Build κ ρ α} {f : α → Build κ ρ β} (hm : Respects R m)
    (hf : ∀ a, Respects R (f a)) : Respects R (m >>= f) := by
  refine Machine.Respects.bind hm fun outcome => ?_
  cases outcome with
  | error e => exact .pure _
  | ok a => exact hf a

theorem Respects.lift {m : Machine κ ρ α} (h : Machine.Respects R m) :
    Respects R (liftM m : Build κ ρ α) :=
  Machine.Respects.bind h fun _ => .pure _

theorem Respects.modify {f : World κ ρ → World κ ρ} (h : ∀ w, R w (f w)) :
    Respects R (modifyThe (World κ ρ) f : Build κ ρ PUnit) :=
  Respects.lift (.modify h)

variable (ctx : BuildContext κ ρ)

theorem element_respects (path : Path) (n : Node) : Respects R (element ctx path n) := by
  rw [element_eq]
  split
  · exact .throw _
  · refine .bind (.lift (Machine.create_respects _ _)) fun e => ?_
    split
    · exact .bind (.modify fun w => Machine.setId_permitted w e _) fun _ => .pure _
    · exact .pure _

theorem attachChild_respects (type : String) (path : Path) (parent child : ElementId)
    (weight : Option Float) :
    Respects R (attachChild type path parent child weight : Build κ ρ Unit) := by
  refine .bind (.lift .get) fun w => ?_
  split
  · split
    · exact .modify fun w => Permissive.elements w _
    · exact .throw _
  · exact .pure _

/-- The induction is on the nodes that are left, and those below them. -/
theorem children_respects (type : String) (parent : ElementId) (index : Index)
    (nodes : List (Path × Node)) : Respects R (children ctx type parent index nodes) := by
  induction type, parent, index, nodes using children.induct with
  | case1 type parent index =>
      rw [children]
      exact .pure _
  | case2 type parent index path n rest below after =>
      rw [children]
      refine .bind (element_respects ctx path n) fun made => ?_
      obtain ⟨ownType, e⟩ := made
      dsimp only
      split
      · exact .throw _
      · next nodes hnodes =>
          refine .bind (below _ _ nodes hnodes) fun index => ?_
          exact .bind (attachChild_respects _ _ _ _ _) fun _ => after _ _

theorem node_respects (path : Path) (index : Index) (n : Node) :
    Respects R (node ctx path index n) := by
  refine .bind (element_respects ctx path n) fun made => ?_
  obtain ⟨type, e⟩ := made
  dsimp only
  split
  · exact .throw _
  · exact .bind (children_respects ctx _ _ _ _) fun _ => .pure _

end Build

namespace Definition

variable (ctx : BuildContext κ ρ)

theorem build_respects (n : Node) : Build.Respects R (build ctx n) :=
  .bind (Build.node_respects ctx [] [] n) fun _ => .pure _

theorem parse_respects (format : Format) (text : String) :
    Build.Respects R (parse ctx format text) := by
  unfold parse
  split
  · exact .throw _
  · exact build_respects ctx _
  · exact .throw _

theorem load_respects (source : Source) (name : String) :
    Build.Respects R (load ctx source name) := by
  unfold load
  split
  · exact .throw _
  · exact .throw _
  · split
    · exact .throw _
    · exact parse_respects ctx _ _

end Definition

/-! ## Views -/

namespace Machine

section Views

variable [Ordered ρ] (s : Setting κ ρ)

theorem reentry_respects : s.reentry.Respectful R := Reentry.ofFuel_respects s.app s.fuel

theorem prepareModel_respects (model : Model κ) : Respects R (prepareModel s model) := by
  cases model with
  | table bindings => exact .pure _
  | scripted code => exact Program.run_respects (reentry_respects s) _

theorem prepareView_respects (window : WindowId) (view : View κ) :
    Respects R (prepareView s window view) := by
  refine .bind (prepareModel_respects s _) fun failure => ?_
  dsimp only
  split
  · exact .pure _
  · split
    · exact .pure _
    · refine .get_bind fun w => .bind (Definition.load_respects _ _ _) fun outcome => ?_
      cases outcome with
      | error e => exact .pure _
      | ok definition => exact .bind (.modify fun w => Tolerant.scope w _) fun _ => .pure _

theorem destroyView_respects (view : View κ) : Respects R (destroyView s view) := by
  unfold destroyView
  split
  · exact .pure _
  · exact .bind (Program.run_respects (reentry_respects s) _) fun _ => .pure _

theorem viewEvents_respects (ctx : EventContext) (view : View κ) :
    Respects R (viewEvents s ctx view) := by
  have hroot (root : ElementId) : Respects R (handleEvents s.app s.reentry ctx root) :=
    handleEvents_respects (reentry_respects s) s.app ctx root
  unfold viewEvents
  cases view.hook with
  | none =>
      cases view.root with
      | none => exact .pure _
      | some root => exact hroot root
  | some hook =>
      refine .bind (Program.run_respects (reentry_respects s) _) fun _ => ?_
      cases view.root with
      | none => exact .pure _
      | some root => exact hroot root

theorem viewOps_respects (size : Size Float) (view : View κ) :
    Respects R (viewOps s size view) := by
  unfold viewOps
  split
  · exact .pure _
  · exact .bind (draw_respects (reentry_respects s) s.app _ _) fun _ => .pure _

end Views

end Machine

end Trellis
