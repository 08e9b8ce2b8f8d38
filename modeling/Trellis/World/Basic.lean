import Trellis.Config
import Trellis.Document.Source
import Trellis.Element.Call
import Trellis.Host.Stage

/-!
# The state of a user interface

All that bindings, elements, windows and hosts remember, in one value. Bindings, watchers, elements
and windows are told apart by ids, and refer to each other by them. Who owns whom decides what is
still alive: an element is as long as something that holds it is reachable, a watcher as long as its
owner is or a round that has yet to call it.

* `World` — the state.
* `World.elementAlive`, `World.watcherAlive` — who is alive.
* `World.history` — what happened, in order.
-/

namespace Trellis

/-- A handle on an element that is expected to be of some type. -/
structure Handle where
  element : ElementId
  kind : Kind
  /-- The window that changes wait in while the element is busy. -/
  window : Option WindowId
  deriving DecidableEq

/-- The handle with a window for its changes to wait in, if the element named none. -/
def Handle.withWindow (h : Handle) (window : Option WindowId) : Handle :=
  { h with window := h.window <|> window }

/-- Work that waits until no element is locked. -/
inductive Task (κ : Type)
  /-- Runs a callback of the application. -/
  | run (code : κ)
  /-- Makes a call on an element, if it is of the expected type, and reports the answer. -/
  | edit (element : ElementId) (kind : Kind) (call : Call κ BindingId) (reply : κ)

/-- The elements a task holds on to. -/
def Task.holds {κ : Type} : Task κ → List ElementId
  | .run _ => []
  | .edit element _ _ _ => [element]

/-- A window. -/
structure Window (κ : Type) where
  title : String
  /-- Whether deferred tasks wait in the window; otherwise they run at once. -/
  queues : Bool := true
  /-- Whether deferring a task asks for a new frame. -/
  asksOnDefer : Bool := false
  tasks : List (Task κ) := []
  /-- How often a new frame was asked for. -/
  invalidations : Nat := 0
  /-- Whether a new frame was asked for since this was last looked at. -/
  requested : Bool := false

/-- A function that an application exports, by what it is called for. -/
inductive Function (κ : Type)
  | handler (code : κ)
  | filter (code : κ)
  | painter (code : κ)
  | itemRenderer (code : κ)
  | itemHandler (code : κ)

namespace Function

variable {κ : Type}

/-- The kind in words. -/
def kind : Function κ → String
  | .handler _ => "handler"
  | .filter _ => "filter"
  | .painter _ => "painter"
  | .itemRenderer _ => "item renderer"
  | .itemHandler _ => "item handler"

def handler? : Function κ → Option κ
  | .handler code => some code
  | _ => none

def filter? : Function κ → Option κ
  | .filter code => some code
  | _ => none

def painter? : Function κ → Option κ
  | .painter code => some code
  | _ => none

def itemRenderer? : Function κ → Option κ
  | .itemRenderer code => some code
  | _ => none

def itemHandler? : Function κ → Option κ
  | .itemHandler code => some code
  | _ => none

end Function

/-- A built element tree with the elements that have an id of their own. -/
structure Definition where
  root : ElementId
  index : List (String × ElementId)
  window : Option WindowId

/-- A document that a view is built from. -/
structure Screen where
  source : Source
  name : String

/-- What a view displays: named bindings, or an application's own code. -/
inductive Model (κ : Type)
  | table (bindings : List (String × BindingId))
  | scripted (code : κ)

/-- A view: a model, a document or a root element, and the functions it exports. -/
structure View (κ : Type) where
  id : String
  window : Option WindowId := none
  model : Model κ
  screen : Option Screen := none
  definition : Option Definition := none
  root : Option ElementId := none
  exports : List (String × Function κ) := []
  /-- What runs before the view handles the events of a frame. -/
  hook : Option κ := none

/-- The elements a view holds on to. -/
def View.holds {κ : Type} (view : View κ) : List ElementId :=
  view.root.toList ++ (view.definition.map (·.root)).toList

/-- A host with its window and the events that have arrived for it. -/
structure Session (κ : Type) where
  config : Config
  window : WindowId
  events : List Event := []
  host : Host (View κ) κ := {}

/-- A watcher with what keeps it alive. -/
structure WatcherCell (κ ρ : Type) where
  watcher : Watcher κ ρ
  /-- The element it belongs to; none if the application holds it. -/
  owner : Option ElementId := none
  /-- Whether the application has let go of it. -/
  dropped : Bool := false

/-- Something that happened. -/
inductive Entry
  /-- A line of the application. -/
  | note (line : String)
  /-- A binding took on a content that differs. -/
  | changed (b : BindingId)
  /-- A round of calls to the watchers of a binding began. -/
  | round (b : BindingId) (watchers : List WatcherId)
  /-- A watcher was called for a binding. -/
  | called (w : WatcherId) (b : BindingId)
  /-- The call of a watcher for a binding came to its end. -/
  | returned (w : WatcherId) (b : BindingId)
  /-- The rounds of a binding came to an end. -/
  | settled (b : BindingId)
  /-- The copy of a mirror was edited. -/
  | edited (m : WatcherId)
  deriving DecidableEq

/-- The state of a user interface. `κ` are the codes that the application's callbacks go by, `ρ` its
records. -/
structure World (κ ρ : Type) where
  bindings : Array (Binding ρ) := #[]
  watchers : Array (WatcherCell κ ρ) := #[]
  elements : Array (Element κ) := #[]
  windows : Array (Window κ) := #[]
  /-- Watchers that rounds under way have yet to call, or are calling. -/
  awaiting : List WatcherId := []
  /-- Elements that are held from outside any tree. -/
  pinned : List ElementId := []
  /-- The tree in use without a host. -/
  definition : Option Definition := none
  session : Option (Session κ) := none
  /-- The elements that callbacks find by id. -/
  scope : List (String × ElementId) := []
  /-- How many ids have been made up. -/
  madeUp : Nat := 0
  /-- What happened, the latest first. -/
  trail : List Entry := []

namespace World

variable {κ ρ : Type}

def binding? (w : World κ ρ) (b : BindingId) : Option (Binding ρ) := w.bindings[b.index]?

def watcher? (w : World κ ρ) (x : WatcherId) : Option (WatcherCell κ ρ) := w.watchers[x.index]?

def element? (w : World κ ρ) (e : ElementId) : Option (Element κ) := w.elements[e.index]?

def window? (w : World κ ρ) (x : WindowId) : Option (Window κ) := w.windows[x.index]?

def modifyBinding (w : World κ ρ) (b : BindingId) (f : Binding ρ → Binding ρ) : World κ ρ :=
  { w with bindings := w.bindings.modify b.index f }

def modifyWatcher (w : World κ ρ) (x : WatcherId) (f : WatcherCell κ ρ → WatcherCell κ ρ) :
    World κ ρ :=
  { w with watchers := w.watchers.modify x.index f }

def modifyElement (w : World κ ρ) (e : ElementId) (f : Element κ → Element κ) : World κ ρ :=
  { w with elements := w.elements.modify e.index f }

def modifyWindow (w : World κ ρ) (x : WindowId) (f : Window κ → Window κ) : World κ ρ :=
  { w with windows := w.windows.modify x.index f }

/-- What a container is told of an element. -/
def offer (w : World κ ρ) (child : ElementId) (weight : Option Float) : Offer :=
  { weight, kind := (w.element? child).map (·.body.kind) }

/-- The copy of a mirror. -/
def copy? (w : World κ ρ) (x : WatcherId) : Option (Mirror ρ) :=
  (w.watcher? x).bind (·.watcher.copy?)

/-- Changes the copy of a mirror. -/
def modifyCopy (w : World κ ρ) (x : WatcherId) (f : Mirror ρ → Mirror ρ) : World κ ρ :=
  w.modifyWatcher x fun cell => { cell with watcher := cell.watcher.modifyCopy f }

/-- Adds a binding. -/
def addBinding (w : World κ ρ) (name : String) (content : Content ρ) : BindingId × World κ ρ :=
  (⟨w.bindings.size⟩, { w with bindings := w.bindings.push { name, content } })

/-- Adds a watcher. -/
def addWatcher (w : World κ ρ) (cell : WatcherCell κ ρ) : WatcherId × World κ ρ :=
  (⟨w.watchers.size⟩, { w with watchers := w.watchers.push cell })

/-- Adds a window. -/
def addWindow (w : World κ ρ) (window : Window κ) : WindowId × World κ ρ :=
  (⟨w.windows.size⟩, { w with windows := w.windows.push window })

/-- Records that something happened. -/
def record (w : World κ ρ) (entry : Entry) : World κ ρ := { w with trail := entry :: w.trail }

/-- What happened, in order. -/
def history (w : World κ ρ) : List Entry := w.trail.reverse

/-- The lines of the application, in order, that came after the first `seen` entries. -/
def notesSince (w : World κ ρ) (seen : Nat) : List String :=
  (w.history.drop seen).filterMap fun
    | .note line => some line
    | _ => none

/-! ## Who is alive -/

/-- The children of an element. -/
def childrenOf (w : World κ ρ) (e : ElementId) : List ElementId :=
  ((w.element? e).map (·.body.children)).getD []

/-- The elements that are held other than by a parent. -/
def roots (w : World κ ρ) : List ElementId :=
  w.pinned ++ (w.definition.map (·.root)).toList ++
    (match w.session with
      | some s => (s.host.view.toList ++ s.host.next.toList).flatMap View.holds
      | none => []) ++
    w.windows.toList.flatMap fun window => window.tasks.flatMap Task.holds

/-- Whether the element of an index is held by a root, or by an element that is held itself. Parents
are older than their children, so their indices are smaller. -/
def heldAt (w : World κ ρ) (n : Nat) : Bool :=
  w.roots.contains ⟨n⟩ ||
    (List.finRange n).any fun p => (w.childrenOf ⟨p⟩).contains ⟨n⟩ && heldAt w p
termination_by n

/-- Whether something holds the element. -/
def elementAlive (w : World κ ρ) (e : ElementId) : Bool := w.heldAt e.index

/-- Whether the application still has a watcher of its own. -/
def keeps (w : World κ ρ) (x : WatcherId) : Bool :=
  (w.watcher? x).any fun cell => cell.owner.isNone && !cell.dropped

/-- Whether the watcher is held by its element or the application. -/
def watcherHeld (w : World κ ρ) (x : WatcherId) : Bool :=
  match w.watcher? x with
  | none => false
  | some cell =>
    match cell.owner with
    | some e => w.elementAlive e
    | none => !cell.dropped

/-- Whether something holds the watcher: its element or the application, or a round under way. -/
def watcherAlive (w : World κ ρ) (x : WatcherId) : Bool :=
  w.awaiting.contains x || w.watcherHeld x

/-- The watchers of a binding that are alive, in the order of registration. -/
def listeners (w : World κ ρ) (b : BindingId) : List WatcherId :=
  (((w.binding? b).map (·.watchers)).getD []).filter w.watcherAlive

/-- The element of an id among those listed, if it is alive. -/
def find? (w : World κ ρ) (index : List (String × ElementId)) (id : String) : Option ElementId :=
  (index.lookup id).filter w.elementAlive

/-! ## Ids -/

/-- A made-up id, which no other element has: five groups of hexadecimal digits. -/
def idText (n : Nat) : String :=
  let digits := Text.toHex 20 n
  String.ofList (digits.take 8 ++ '-' :: (digits.drop 8).take 4 ++ "-4000-8000-".toList ++
    "0000".toList ++ digits.drop 12)

/-- A fresh id. -/
def freshId (w : World κ ρ) : String × World κ ρ :=
  (idText w.madeUp, { w with madeUp := w.madeUp + 1 })

/-- Sets the id of an element; an empty one is replaced by a fresh one. -/
def setId (w : World κ ρ) (e : ElementId) (id : String) : World κ ρ :=
  let (id, w) := if id.isEmpty then w.freshId else (id, w)
  w.modifyElement e fun el => { el with id := id }

end World

end Trellis
