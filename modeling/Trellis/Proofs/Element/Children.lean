import Trellis.Element.Body

/-!
# Adding several children

A body takes its children one at a time. Whether it takes a further one depends on what it is told
of that and of those before.

* `Body.addChildren` — adds children in order.
* `Body.refusal?` — why a body does not take a child after others.
* `Body.addChildren_eq_ok` — children are taken if none of them is refused.
* `Body.children_addChildren` — what a body holds then; `Body.kind_addChildren` — its type stays.
-/

namespace Trellis.Body

variable {κ : Type} {body body' : Body κ} {child : ElementId} {offer : Offer}

/-- Adds children one after another, with what is told of each. -/
def addChildren (body : Body κ) : List (Offer × ElementId) → Except Refusal (Body κ)
  | [] => .ok body
  | (offer, child) :: rest =>
      match body.addChild child offer with
      | .ok body => body.addChildren rest
      | .error refusal => .error refusal

/-- Why a body does not take a child after others that it has been offered. -/
def refusal? (body : Body κ) (taken : List Offer) (offer : Offer) : Option Refusal :=
  match body with
  | .flex .. | .inset .. | .minSize .. => none
  | .stack rule _ => (rule taken offer).map .rejected
  | _ => some .noContainer

theorem addChild_eq_error {refusal : Refusal} :
    body.addChild child offer = .error refusal ↔ body.refusal? [] offer = some refusal := by
  cases body with
  | stack rule children =>
      rw [addChild, refusal?]
      cases rule [] offer <;> simp
  | _ => simp [addChild, refusal?]

theorem refusal?_nil (h : body.addChild child offer = .ok body') :
    body.refusal? [] offer = none := by
  cases hrefused : body.refusal? [] offer with
  | none => rfl
  | some refusal =>
      rw [addChild_eq_error.mpr hrefused] at h
      cases h

/-- A stack that has taken a child judges the next ones after it. -/
theorem addChild_stack {rule : List Offer → Offer → Option String} {held : List WeightedChild}
    (h : (stack rule held : Body κ).addChild child offer = .ok body') :
    body' = .stack (fun taken => rule (offer :: taken)) (held ++ [(offer.weight, child)]) := by
  rw [addChild] at h
  cases hrule : rule [] offer with
  | some reason => rw [hrule] at h; cases h
  | none =>
      rw [hrule] at h
      cases h
      rfl

/-- A body that has taken a child goes on as one that had it before. -/
theorem refusal?_addChild (h : body.addChild child offer = .ok body') (taken : List Offer)
    (next : Offer) : body'.refusal? taken next = body.refusal? (offer :: taken) next := by
  cases body with
  | stack rule held =>
      rw [addChild_stack h]
      rfl
  | flex | inset | minSize =>
      cases h
      rfl
  | _ => cases h

/-- All children are taken if and only if none of them is refused after those before. -/
theorem addChildren_eq_ok {l : List (Offer × ElementId)} :
    (∃ body', body.addChildren l = .ok body') ↔
      ∀ taken offer later, l.map (·.1) = taken ++ offer :: later →
        body.refusal? taken offer = none := by
  induction l generalizing body with
  | nil => simp [addChildren]
  | cons entry rest ih =>
      obtain ⟨offer, child⟩ := entry
      rw [addChildren]
      cases hadd : body.addChild child offer with
      | error refusal =>
          have hrefused := addChild_eq_error.mp hadd
          constructor
          · rintro ⟨body', h⟩
            cases h
          · intro h
            rw [h [] offer _ rfl] at hrefused
            cases hrefused
      | ok next =>
          show (∃ body', next.addChildren rest = .ok body') ↔ _
          rw [ih]
          constructor
          · intro h taken later rest' heq
            cases taken with
            | nil =>
                cases heq
                exact refusal?_nil hadd
            | cons first taken =>
                obtain ⟨rfl, hrest⟩ := List.cons.inj heq
                rw [← refusal?_addChild hadd]
                exact h taken later rest' hrest
          · intro h taken later rest' heq
            rw [refusal?_addChild hadd]
            exact h (offer :: taken) later rest' (congrArg (offer :: ·) heq)

/-! ## What is held -/

/-- Whether the element is a layout that holds a single child. -/
def single : Body κ → Bool
  | .inset .. | .minSize .. => true
  | _ => false

theorem single_addChild (h : body.addChild child offer = .ok body') :
    body'.single = body.single := by
  cases body with
  | stack rule held =>
      rw [addChild_stack h]
      rfl
  | flex | inset | minSize =>
      cases h
      rfl
  | _ => cases h

theorem kind_addChild (h : body.addChild child offer = .ok body') : body'.kind = body.kind := by
  cases body with
  | stack rule held =>
      rw [addChild_stack h]
      rfl
  | flex | inset | minSize =>
      cases h
      rfl
  | _ => cases h

theorem children_addChild (h : body.addChild child offer = .ok body') :
    body'.children = if body.single then [child] else body.children ++ [child] := by
  cases body with
  | stack rule held =>
      rw [addChild_stack h]
      simp [children, single]
  | flex settings held =>
      cases h
      simp [children, single]
  | inset | minSize =>
      cases h
      rfl
  | _ => cases h

/-- Taking children does not change the type. -/
theorem kind_addChildren {l : List (Offer × ElementId)} (h : body.addChildren l = .ok body') :
    body'.kind = body.kind := by
  induction l generalizing body with
  | nil =>
      cases h
      rfl
  | cons entry rest ih =>
      rw [addChildren] at h
      cases hadd : body.addChild entry.2 entry.1 with
      | error refusal => rw [hadd] at h; cases h
      | ok next =>
          rw [hadd] at h
          rw [ih h, kind_addChild hadd]

/-- A layout of one child holds the last that was added; other containers hold all, in order, after
those they had. -/
theorem children_addChildren {l : List (Offer × ElementId)}
    (h : body.addChildren l = .ok body') :
    body'.children =
      if body.single then ((l.getLast?.map (·.2)).map ([·])).getD body.children
      else body.children ++ l.map (·.2) := by
  induction l generalizing body with
  | nil =>
      cases h
      simp
  | cons entry rest ih =>
      rw [addChildren] at h
      cases hadd : body.addChild entry.2 entry.1 with
      | error refusal => rw [hadd] at h; cases h
      | ok next =>
          rw [hadd] at h
          rw [ih h, single_addChild hadd, children_addChild hadd]
          cases body.single with
          | false => simp
          | true =>
              cases hlast : rest.getLast? with
              | none => simp [List.getLast?_cons, hlast]
              | some last => simp [List.getLast?_cons, hlast]

end Trellis.Body
