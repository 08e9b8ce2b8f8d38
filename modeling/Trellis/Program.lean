import Trellis.World.Basic

/-!
# What callbacks may do

A callback of the application is a program: a tree of steps, each with what follows it for every
answer the step can give. Nothing else reaches the state while callbacks run.

* `Program` — the programs, with `Program.bind` to put one after another.
* `App` — the application: what its codes stand for.
-/

namespace Trellis

/-- A callback that ends with an answer of type `α`. -/
inductive Program (κ ρ α : Type)
  | done (answer : α)
  /-- Writes a line. -/
  | note (line : String) (next : Program κ ρ α)
  /-- Reads the name and the content of a binding. -/
  | read (b : BindingId) (next : Option (String × Content ρ) → Program κ ρ α)
  /-- Sets a binding; the answer is whether it changed. -/
  | set (b : BindingId) (content : Content ρ) (next : Bool → Program κ ρ α)
  | watch (w : WatcherId) (b : BindingId) (next : Program κ ρ α)
  | unwatch (w : WatcherId) (b : BindingId) (next : Program κ ρ α)
  /-- Lets go of a watcher. -/
  | drop (w : WatcherId) (next : Program κ ρ α)
  /-- Asks whether the application still has a watcher of its own. -/
  | keeps (w : WatcherId) (next : Bool → Program κ ρ α)
  /-- Has a mirror follow a binding and take over its value. -/
  | attach (m : WatcherId) (b : BindingId) (next : Program κ ρ α)
  /-- Edits the copy of a mirror. -/
  | edit (m : WatcherId) (value : Scalar ρ) (next : Program κ ρ α)
  /-- Sets a binding to the copy of a mirror if that was edited; the answer is whether the binding
  changed. -/
  | writeBack (m : WatcherId) (b : BindingId) (next : Bool → Program κ ρ α)
  /-- Asks a window for a new frame. -/
  | invalidate (window : WindowId) (next : Program κ ρ α)
  | title (window : WindowId) (next : String → Program κ ρ α)
  /-- Has a window run a callback later. -/
  | defer (window : WindowId) (code : κ) (next : Program κ ρ α)
  /-- Sends an event to the host. -/
  | send (event : Event) (next : Program κ ρ α)
  /-- Finds an element by its id. -/
  | find (id : String) (next : Option ElementId → Program κ ρ α)
  /-- Makes a handle on an element; none if it is known to be of another type. -/
  | handle (element : ElementId) (kind : Kind) (next : Option Handle → Program κ ρ α)
  /-- Tries to lock an element; the answer is whether that succeeded. It is unlocked at once. -/
  | tryLock (handle : Handle) (next : Bool → Program κ ρ α)
  /-- Makes a call on an element, now or when it is free, and reports the answer. -/
  | update (handle : Handle) (call : Call κ BindingId) (reply : κ) (next : Program κ ρ α)

namespace Program

variable {κ ρ α β : Type}

/-- Runs a program and then what follows from its answer. -/
def bind (p : Program κ ρ α) (f : α → Program κ ρ β) : Program κ ρ β :=
  match p with
  | .done answer => f answer
  | .note line next => .note line (next.bind f)
  | .read b next => .read b fun a => (next a).bind f
  | .set b content next => .set b content fun a => (next a).bind f
  | .watch w b next => .watch w b (next.bind f)
  | .unwatch w b next => .unwatch w b (next.bind f)
  | .drop w next => .drop w (next.bind f)
  | .keeps w next => .keeps w fun a => (next a).bind f
  | .attach m b next => .attach m b (next.bind f)
  | .edit m value next => .edit m value (next.bind f)
  | .writeBack m b next => .writeBack m b fun a => (next a).bind f
  | .invalidate window next => .invalidate window (next.bind f)
  | .title window next => .title window fun a => (next a).bind f
  | .defer window code next => .defer window code (next.bind f)
  | .send event next => .send event (next.bind f)
  | .find id next => .find id fun a => (next a).bind f
  | .handle element kind next => .handle element kind fun a => (next a).bind f
  | .tryLock h next => .tryLock h fun a => (next a).bind f
  | .update h call reply next => .update h call reply (next.bind f)

instance : Monad (Program κ ρ) where
  pure := .done
  bind := bind

/-- Runs programs one after another. -/
def sequence : List (Program κ ρ Unit) → Program κ ρ Unit
  | [] => .done ()
  | p :: rest => p.bind fun _ => sequence rest

end Program

/-- What drawing asks of the outside. -/
inductive Request (κ : Type)
  | note (line : String)
  | invalidate (window : WindowId)
  | defer (window : WindowId) (code : κ)

/-- The drawings of a user interface. -/
abbrev Painting (κ : Type) : Type → Type := Draw Float (Request κ)

/-- An application: what each of its codes stands for, in each of the roles a code can have. -/
structure App (κ ρ : Type) where
  /-- Called with the events of the frame and the id of the element. -/
  handler : κ → EventContext → String → Program κ ρ Unit
  /-- Called with the id of the element and the text so far; answers the characters accepted. -/
  filter : κ → EventContext → String → String → Program κ ρ String
  /-- Draws for the element of an id. -/
  painter : κ → String → Painting κ (Size Float)
  /-- Draws the item at an index. -/
  itemRenderer : κ → Nat → List (Scalar ρ) → Painting κ (Size Float)
  /-- Called with the index of an item and the binding of the list. -/
  itemHandler : κ → EventContext → Nat → BindingId → Program κ ρ Unit
  /-- Called when a watched binding changed. -/
  watcher : κ → BindingId → Program κ ρ Unit
  /-- Called later by a window. -/
  task : κ → Program κ ρ Unit
  /-- Called with the answer of an element. -/
  reply : κ → Answer → Program κ ρ Unit
  /-- Called before a view handles the events of a frame. -/
  hook : κ → EventContext → Program κ ρ Unit
  /-- Prepares a model; the answer is the reason if that failed. -/
  prepareModel : κ → Program κ ρ (Option String)
  /-- Ends a model; the answer is the reason if that failed. -/
  destroyModel : κ → Program κ ρ (Option String)
  /-- The binding of a name in a model. -/
  modelBinding : κ → String → Option BindingId

/-- An application that does nothing. -/
def App.idle {κ ρ : Type} : App κ ρ where
  handler _ _ _ := .done ()
  filter _ _ _ text := .done text
  painter _ _ := pure ⟨0, 0⟩
  itemRenderer _ _ _ := pure ⟨0, 0⟩
  itemHandler _ _ _ _ := .done ()
  watcher _ _ := .done ()
  task _ := .done ()
  reply _ _ := .done ()
  hook _ _ := .done ()
  prepareModel _ := .done none
  destroyModel _ := .done none
  modelBinding _ _ := none

end Trellis
