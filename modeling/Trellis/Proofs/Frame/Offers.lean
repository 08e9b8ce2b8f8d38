import Trellis.Proofs.Frame.Acts
import Trellis.Proofs.Machine.Permissive

/-!
# What elements leave to do

An element that handles events changes its looks and its copy of a value and asks for frames. What
it leaves to do is of a few sorts. So what is to be shown of all that elements do need only be shown of
these changes and these sorts.

* `World.Handled` — relations that allow elements to handle events; `World.Shows` — relations that
  allow an element to show another value meanwhile.
* `Act.Offered` — what holds of the acts that elements leave to do.
* `Machine.elementActs_answers` — an element that handles events keeps the one and answers the
  other.
-/

namespace Trellis

open Machine

variable {κ ρ : Type}

/-- A preorder that allows the changes that elements make when they handle events, unless they show
another value. Each element stays one of its type. -/
class World.Handled (R : World κ ρ → World κ ρ → Prop) : Prop extends IsPreorder (World κ ρ) R where
  asked : ∀ window, Respects R (invalidate window : Machine κ ρ Unit)
  rebodied : ∀ (w : World κ ρ) e (f : Body κ → Body κ),
    (∀ el, w.element? e = some el → (f el.body).kind = el.body.kind) →
      R w (w.modifyElement e fun el => { el with body := f el.body })

/-- A relation that allows an element to show another value. -/
class World.Shows (R : World κ ρ → World κ ρ → Prop) (e : ElementId) : Prop where
  shown : ∀ value, Respects R (setValue e value : Machine κ ρ Unit)

open World (Handled Shows Tolerant)

variable {R : World κ ρ → World κ ρ → Prop}

instance [Tolerant R] : Handled R where
  asked := invalidate_respects
  rebodied w e _ _ := Tolerant.refitted w e _ fun _ _ => ⟨rfl, rfl⟩

instance [Tolerant R] (e : ElementId) : Shows R e where
  shown := setValue_respects e

/-- What holds of the acts that elements leave to do. -/
structure Act.Offered (app : App κ ρ) (ctx : EventContext) (P : Act κ ρ → Prop) : Prop where
  visit : ∀ depth e, P (.visit depth e)
  enter : ∀ e id input edited, P (.enter e id input edited)
  report : ∀ e, P (.report e)
  handler : ∀ code id, P (.run (app.handler code ctx id))
  itemHandler : ∀ code i b, P (.run (app.itemHandler code ctx i b))

theorem Body.kind_withPointer (body : Body κ) (pointer : PointerState) :
    (body.withPointer pointer).kind = body.kind := by
  cases body <;> rfl

namespace Machine

variable [Handled R] {app : App κ ρ} {ctx : EventContext} {P : Act κ ρ → Prop} {e : ElementId}
  [Shows R e] {element : Element κ}

theorem pointerActs_answers (h : Act.Offered app ctx P) (handlers : PointerHandlers κ)
    (before : PointerState) :
    Answers R (∀ act ∈ ·, P act) (pointerActs app ctx e element handlers before) := by
  unfold pointerActs
  dsimp only
  have hcalls (codes : List κ) :
      ∀ act ∈ codes.map fun code => Act.run (app.handler code ctx element.id), P act :=
    List.forall_mem_map.mpr fun code _ => h.handler code element.id
  have hreport (codes : List κ) : ∀ act ∈ .report e ::
      codes.map fun code => Act.run (app.handler code ctx element.id), P act :=
    List.forall_mem_cons.mpr ⟨h.report e, hcalls codes⟩
  refine .bind (.modify fun w => ?_) fun _ => ?_
  · exact Handled.rebodied w e (·.withPointer _) fun el _ => el.body.kind_withPointer _
  · split
    · split
      · refine .bind (valueOf_respects e) fun value => ?_
        split
        · exact .bind (Shows.shown _) fun _ => .pure (hreport _)
        · exact .pure (hreport _)
      · exact .pure (hreport _)
    · split
      · exact .bind (Handled.asked _) fun _ => .pure (hcalls _)
      · exact .pure (hcalls _)

omit [Handled R] [Shows R e] in
theorem inputActs_offered (h : Act.Offered app ctx P) (id : String) (input : Input κ) :
    ∀ act ∈ inputActs app ctx e id input, P act := by
  refine List.forall_mem_append.mpr ⟨fun act hact => ?_, List.forall_mem_cons.mpr ⟨h.report e, ?_⟩⟩
  · obtain ⟨event, -, hact⟩ := List.mem_flatMap.mp hact
    split at hact
    · split at hact
      · cases hact
      · rw [List.mem_singleton.mp hact]
        exact h.enter e id input _
    · cases hact
  · exact List.forall_mem_map.mpr fun code _ => h.handler code id

theorem sliderActs_answers (h : Act.Offered app ctx P) (id : String) :
    Answers R (∀ act ∈ ·, P act) (sliderActs ctx e id : Machine κ ρ (List (Act κ ρ))) := by
  have hreport : ∀ act ∈ [Act.report e], P act := List.forall_mem_singleton.mpr (h.report e)
  unfold sliderActs
  dsimp only
  split
  · exact .bind (Shows.shown _) fun _ => .pure hreport
  · exact .pure hreport

omit [Shows R e] in
theorem itemActs_answers (h : Act.Offered app ctx P) (list : ItemList κ) :
    Answers R (∀ act ∈ ·, P act) (itemActs app ctx element list) := by
  unfold itemActs
  split
  · exact .get_bind fun _ => .pure (List.forall_mem_map.mpr fun i _ => h.itemHandler _ i _)
  · exact .pure (List.forall_mem_nil _)

/-- An element without children, which is the one of that id. -/
theorem leafActs_answers (h : Act.Offered app ctx P) {w w' : World κ ρ} {left : List (Act κ ρ)}
    (found : w.element? e = some element)
    (run : leafActs app ctx e element w = .ok (left, w')) : R w w' ∧ ∀ act ∈ left, P act := by
  have hnothing : Answers R (∀ act ∈ ·, P act) (pure [] : Machine κ ρ (List (Act κ ρ))) :=
    .pure (List.forall_mem_nil _)
  have hreport : Answers R (∀ act ∈ ·, P act)
      (pure [.report e] : Machine κ ρ (List (Act κ ρ))) :=
    .pure (List.forall_mem_singleton.mpr (h.report e))
  unfold leafActs at run
  cases hbody : element.body with
  | button s | checkbox s | iconButton s =>
      simp only [hbody] at run
      exact pointerActs_answers h _ _ run
  | input input =>
      simp only [hbody] at run
      obtain ⟨rfl, rfl⟩ := pure_eq_ok.mp run
      exact ⟨refl_of R w, inputActs_offered h _ _⟩
  | slider axis color =>
      simp only [hbody] at run
      exact sliderActs_answers h _ run
  | label s | progressBar color =>
      simp only [hbody] at run
      exact hreport run
  | list list =>
      simp only [hbody] at run
      exact itemActs_answers h list run
  | block size frames =>
      simp only [hbody] at run
      obtain ⟨_, v, hcount, run⟩ := bind_eq_ok.mp run
      obtain ⟨rfl, rfl⟩ := pure_eq_ok.mp run
      rw [← modify_eq_ok.mp hcount]
      refine ⟨Handled.rebodied w e (fun _ => .block size (frames + 1)) fun el hel => ?_,
        List.forall_mem_nil _⟩
      rw [found, Option.some.injEq] at hel
      rw [← hel, hbody]
      rfl
  | flex | inset | minSize | graphic | loader | spacer | stack =>
      simp only [hbody] at run
      exact hnothing run

theorem elementActs_answers (h : Act.Offered app ctx P) (depth : Nat) (e : ElementId) [Shows R e] :
    Answers R (∀ act ∈ ·, P act) (elementActs app ctx depth e) := by
  intro w left w' run
  replace run := get_bind_eq_ok.mp run
  cases helement : w.element? e with
  | none =>
      simp only [helement] at run
      obtain ⟨rfl, rfl⟩ := pure_eq_ok.mp run
      exact ⟨refl_of R w, List.forall_mem_nil _⟩
  | some element =>
      cases hbody : element.body with
      | flex | inset | minSize | stack =>
          simp only [helement, hbody] at run
          obtain ⟨rfl, rfl⟩ := pure_eq_ok.mp run
          exact ⟨refl_of R w, List.forall_mem_map.mpr fun child _ => h.visit depth child⟩
      | _ =>
          simp only [helement, hbody] at run
          exact leafActs_answers h helement run

end Machine

end Trellis
