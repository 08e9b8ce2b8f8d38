import Trellis.Observable.Value

/-!
# Bindings and those who watch them

A binding is a named observable content. It lists its watchers without keeping them alive; who is
alive is known to the `World` only, so pruning takes it as a parameter.

* `Binding.watch`, `Binding.unwatch` — the list of watchers; nobody is listed twice.
* `Binding.prune` — the watchers that are alive, in order, the others being dropped.
* `Mirror` — a local copy of a binding's value that remembers whether it was edited.
-/

namespace Trellis

structure BindingId where
  index : Nat
  deriving DecidableEq

structure WatcherId where
  index : Nat
  deriving DecidableEq

structure ElementId where
  index : Nat
  deriving DecidableEq

structure WindowId where
  index : Nat
  deriving DecidableEq

/-- A named observable content. -/
structure Binding (ρ : Type) where
  name : String
  content : Content ρ
  /-- Who is told of changes, in the order of registration. Some may be gone already. -/
  watchers : List WatcherId := []
  /-- Whether a round of calls to the watchers is under way. -/
  notifying : Bool := false
  /-- Whether a change has not been told of yet. -/
  pending : Bool := false

namespace Binding

variable {ρ : Type}

/-- Registers a watcher, unless it is registered already. -/
def watch (b : Binding ρ) (w : WatcherId) : Binding ρ :=
  if w ∈ b.watchers then b else { b with watchers := b.watchers ++ [w] }

/-- Removes a watcher. -/
def unwatch (b : Binding ρ) (w : WatcherId) : Binding ρ :=
  { b with watchers := b.watchers.filter (· ≠ w) }

/-- Drops the watchers that are gone. -/
def prune (b : Binding ρ) (alive : WatcherId → Bool) : Binding ρ :=
  { b with watchers := b.watchers.filter alive }

theorem nodup_watch {b : Binding ρ} (h : b.watchers.Nodup) (w : WatcherId) :
    (b.watch w).watchers.Nodup := by
  unfold watch
  split
  · exact h
  · next hw => simpa [List.nodup_append, h] using fun a ha (e : a = w) => hw (e ▸ ha)

theorem nodup_unwatch {b : Binding ρ} (h : b.watchers.Nodup) (w : WatcherId) :
    (b.unwatch w).watchers.Nodup := h.filter _

theorem nodup_prune {b : Binding ρ} (h : b.watchers.Nodup) (alive : WatcherId → Bool) :
    (b.prune alive).watchers.Nodup := h.filter _

end Binding

/-- A local copy of a binding's value. -/
structure Mirror (ρ : Type) where
  value : Scalar ρ
  /-- Whether the copy was edited since the binding last changed. -/
  edited : Bool := false
  /-- The window that is asked for a new frame when the binding changes. -/
  window : Option WindowId := none

namespace Mirror

variable {ρ : Type}

/-- Takes over the value of a binding; a content of another shape leaves the copy alone. -/
def takeOver (m : Mirror ρ) (content : Content ρ) : Mirror ρ :=
  match content with
  | .one v => if v.kind = m.value.kind then { m with value := v, edited := false } else m
  | .many _ _ => m

/-- Edits the copy without touching the binding; a value of another kind is refused. -/
def edit (m : Mirror ρ) (value : Scalar ρ) : Mirror ρ :=
  if value.kind = m.value.kind then { m with value := value, edited := true } else m

end Mirror

/-- Who is told of the changes of a binding. `κ` is the type of the application's codes. -/
inductive Watcher (κ ρ : Type)
  | mirror (copy : Mirror ρ)
  /-- Asks a window for a new frame. -/
  | invalidator (window : Option WindowId)
  /-- Runs a callback of the application. -/
  | callback (code : κ)

namespace Watcher

variable {κ ρ : Type}

/-- The copy of a mirror. -/
def copy? : Watcher κ ρ → Option (Mirror ρ)
  | .mirror copy => some copy
  | _ => none

/-- Changes the copy of a mirror. -/
def modifyCopy (f : Mirror ρ → Mirror ρ) : Watcher κ ρ → Watcher κ ρ
  | .mirror copy => .mirror (f copy)
  | watcher => watcher

end Watcher

end Trellis
