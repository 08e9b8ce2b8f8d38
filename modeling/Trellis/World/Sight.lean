import Trellis.World.Basic

/-!
# Looking at elements and trees

What can be seen of an element from outside, and of a built tree.

* `World.sight` — an element as it is now; one that is locked cannot be looked at.
* `World.describe` — a tree with its listed elements.
-/

namespace Trellis

/-- What is seen of an element that is free. -/
structure ElementView (κ ρ : Type) where
  element : Element κ
  /-- The title of its window. -/
  window : Option String
  /-- The value of its mirror. -/
  value : Option (Scalar ρ)
  /-- The number of items of the binding it follows. -/
  items : Nat
  /-- The ids of its children, as far as they are free. -/
  children : List (Option String)

/-- An element as it is seen. -/
inductive Sight (κ ρ : Type)
  | busy
  | free (view : ElementView κ ρ)

/-- A built tree as it is seen: its root and the listed elements, as far as they are alive. -/
structure Description (κ ρ : Type) where
  root : Sight κ ρ
  elements : List (String × Option (Sight κ ρ))

namespace World

variable {κ ρ : Type}

/-- The title of a window. -/
def titleOf (w : World κ ρ) (window : Option WindowId) : Option String :=
  (window.bind w.window?).map (·.title)

/-- The value of the mirror of an element. -/
def valueOf? (w : World κ ρ) (element : Element κ) : Option (Scalar ρ) :=
  match element.follower.bind w.watcher? with
  | some { watcher := .mirror copy, .. } => some copy.value
  | _ => none

/-- An element as it is now. -/
def sight (w : World κ ρ) (e : ElementId) : Option (Sight κ ρ) :=
  (w.element? e).map fun element =>
    if element.locked then .busy
    else
      let items := (element.binding.bind w.binding?).bind fun b => b.content.items?
      .free
        { element
          window := w.titleOf element.window
          value := w.valueOf? element
          items := (items.map List.length).getD 0
          children := element.body.children.map fun child =>
            ((w.element? child).filter fun c => !c.locked).map (·.id) }

/-- A tree as it is now. -/
def describe (w : World κ ρ) (definition : Definition) : Description κ ρ where
  root := (w.sight definition.root).getD .busy
  elements := definition.index.map fun entry =>
    (entry.1, if w.elementAlive entry.2 then w.sight entry.2 else none)

end World

end Trellis
