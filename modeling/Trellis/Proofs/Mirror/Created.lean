import Trellis.Proofs.Mirror.Equipped
import Trellis.Proofs.Mirror.Following

/-!
# Widgets that are created

A widget is created with a mirror of its own, to which nothing refers yet. If it is to follow a
binding from the start, it is bound like any other widget.

* `World.withWidget` — an element and its mirror are added.
* `Machine.create_eq_ok` — how a widget is created.
* `Machine.create_current` — a widget is current when it has been created.
-/

namespace Trellis

open Machine

variable {κ ρ : Type} {e : ElementId} {w w' : World κ ρ}

namespace World

/-- The state after an element was added, with a mirror of its own. -/
def withWidget (w : World κ ρ) (element : Element κ) (value : Scalar ρ) : World κ ρ :=
  World.modifyElement
    { w with
      elements := w.elements.push element
      watchers := w.watchers.push
        { watcher := .mirror { value, window := element.window },
          owner := some ⟨w.elements.size⟩ } }
    ⟨w.elements.size⟩ ({ · with follower := some ⟨w.watchers.size⟩ })

theorem element?_withWidget (w : World κ ρ) (element : Element κ) (value : Scalar ρ) :
    (w.withWidget element value).element? ⟨w.elements.size⟩ =
      some { element with follower := some ⟨w.watchers.size⟩ } :=
  element?_equipped w element _

theorem watcher?_withWidget (w : World κ ρ) (element : Element κ) (value : Scalar ρ) :
    (w.withWidget element value).watcher? ⟨w.watchers.size⟩ =
      some { watcher := .mirror { value, window := element.window },
             owner := some ⟨w.elements.size⟩ } :=
  watcher?_equipped w element _

/-- Its mirror is its own if the followers of the other elements are older. -/
theorem follower?_withWidget (followers : ∀ d el y, w.element? d = some el → el.follower = some y →
      y.index < w.watchers.size) (element : Element κ) (value : Scalar ρ) (d : ElementId) :
    (w.withWidget element value).follower? d = some ⟨w.watchers.size⟩ ↔ d = ⟨w.elements.size⟩ :=
  follower?_equipped followers element _ d

/-- It is a widget if nothing referred to a watcher that was not there yet. -/
theorem withWidget_widget {element : Element κ} {value : Scalar ρ}
    (followers : ∀ d el y, w.element? d = some el → el.follower = some y →
      y.index < w.watchers.size)
    (listed : ∀ b y, w.Registered b y → y.index < w.watchers.size) (free : element.binding = none)
    (follows : element.body.follows = fun shape => decide (shape = .one value.kind)) :
    (w.withWidget element value).Widget ⟨w.elements.size⟩ ⟨w.watchers.size⟩ value.kind := by
  have hfree : (w.withWidget element value).followed? ⟨w.elements.size⟩ = none := by
    rw [followed?, element?_withWidget]
    exact free
  refine ⟨follower?_withWidget followers element value, ?_, ?_, fun b => ?_, fun b hb => ?_⟩
  · rw [element?_withWidget]
    exact congrArg some follows
  · rw [copy?, watcher?_withWidget]
    rfl
  · rw [hfree]
    refine iff_of_false (fun hregistered => ?_) (by simp)
    exact absurd (listed b _ hregistered) (Nat.lt_irrefl _)
  · rw [hfree] at hb
    cases hb

/-- The state after a widget was made that shows a value and does not follow a binding yet. -/
def created (w : World κ ρ) (window : Option WindowId) (body : Body κ) (value : Scalar ρ) :
    World κ ρ :=
  { w with madeUp := w.madeUp + 1 }.withWidget { id := idText w.madeUp, window, body } value

end World

/-- A widget is made, and then bound if it is to follow a binding from the start. -/
theorem Machine.create_eq_ok {window : Option WindowId} {plan : Blueprint κ ρ} {value : Scalar ρ}
    (follower : plan.follower = some (some value)) (run : create window plan w = .ok (e, w')) :
    e = ⟨w.elements.size⟩ ∧ (plan.binding = none ∧ w' = w.created window plan.body value ∨
      ∃ b, plan.binding = some b ∧
        Machine.bind e (some b) (w.created window plan.body value) = .ok ((), w')) := by
  obtain ⟨rfl, _, rfl, hbind⟩ := create_follower_eq_ok follower run
  exact ⟨rfl, hbind⟩

variable [Ordered ρ]

/-- A widget is current when it has been created, if nothing referred to its mirror before. -/
theorem Machine.create_current {window : Option WindowId} {plan : Blueprint κ ρ} {value : Scalar ρ}
    (followers : ∀ d el y, w.element? d = some el → el.follower = some y →
      y.index < w.watchers.size)
    (listed : ∀ b y, w.Registered b y → y.index < w.watchers.size)
    (follower : plan.follower = some (some value))
    (follows : plan.body.follows = fun shape => decide (shape = .one value.kind))
    (fits : ∀ b, plan.binding = some b → w.Fits value.kind b)
    (run : create window plan w = .ok (e, w')) : w'.Current e ⟨w.watchers.size⟩ value.kind := by
  have hwidget : (w.created window plan.body value).Widget ⟨w.elements.size⟩ ⟨w.watchers.size⟩
      value.kind :=
    World.withWidget_widget followers listed rfl follows
  obtain ⟨rfl, ⟨-, rfl⟩ | ⟨b, hbinding, hbind⟩⟩ := create_eq_ok follower run
  · refine ⟨hwidget, fun b copy hb => ?_⟩
    exact absurd (listed b _ ((hwidget.registered b).mpr hb)) (Nat.lt_irrefl _)
  · have hbound := hwidget.bind (fun c hc => fits c (hbinding.trans hc)) hbind
    refine ⟨hbound.widget, fun c copy hc _ hshown hedited => ?_⟩
    exact hbound.shows c copy (hbound.followed.symm.trans hc) hshown hedited

end Trellis
