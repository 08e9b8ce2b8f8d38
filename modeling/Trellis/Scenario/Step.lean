import Trellis.Host.Views
import Trellis.Script.Action
import Trellis.World.Sight

/-!
# Steps of a scenario

A scenario plays a user interface from outside, step by step: it sets bindings, builds trees, sends
events, draws frames and looks at the result.

* `ScenarioStep` — the steps.
* `Reply` — what comes of a step.
-/

namespace Trellis

/-- What a tree is built from. -/
inductive Document
  | node (node : Node)
  | stored (source : Source) (name : String)
  | text (text : String) (format : Format)

/-- A binding to be made, with the key that steps use for it. -/
structure BindingPlan where
  name : String
  key : String
  content : Content Interval

/-- A view to be made. -/
structure ViewPlan where
  screen : Option Screen := none
  /-- A node to build the root element from. -/
  root : Option Node := none
  hook : Option (List Action) := none
  id : Option String := none
  /-- Whether the model is a table of the bindings, rather than a scripted one. -/
  table : Bool := false

/-- How a tree is drawn. -/
structure DrawPlan where
  constraints : Constraints Float
  metrics : Option (TextMetrics Float) := none
  offset : Option (Vec Float) := none

/-- One step of a scenario. -/
inductive ScenarioStep
  | set (key : String) (value : Datum)
  | get (key : String)
  | name (key : String)
  | getAt (key : String) (index : Nat)
  | asList (key : String)
  | watchers (key : String)
  | watcher (name : String) (actions : List Action)
  | watch (watcher key : String)
  | unwatch (watcher key : String)
  | dropWatcher (name : String)
  | mirror (name : String) (value : Scalar Interval)
  | attach (mirror key : String)
  | detach (mirror key : String)
  | mirrorGet (name : String)
  | mirrorSet (name : String) (value : Datum)
  | writeBack (mirror key : String)
  | dropMirror (name : String)
  | binding (plan : BindingPlan)
  | table (name : String)
  | act (actions : List Action)
  | build (document : Document)
  | drop
  | events (events : List Event)
  | draw (plan : DrawPlan)
  | query (id : String)
  | call (id : String) (call : Call String String)
  | findAs (id : String) (kind : Kind)
  | addChild (id : String) (node : Node)
  /-- Locks an element while other steps are taken. -/
  | hold (id : String) (steps : List ScenarioStep)
  | runTasks
  | host (config : Config)
  | dropHost
  | view (plan : ViewPlan)
  | send (events : List Event)
  | frame (size : Size Float)
  | invalidated
  | setTitle (title : String)
  | onClose (line : String)
  | close
  | viewInfo (function binding : Option String)
  | prepareAgain
  | prepareFault (reason : Option String)
  | destroyFault (reason : Option String)

/-- What is seen of the view that a host shows. -/
structure ViewInfo where
  id : String
  window : Option String
  root : Option (Sight Script Interval)
  definition : Option (Description Script Interval)
  /-- The kind of a function that the view exports. -/
  function : Option String
  binding : Option (Content Interval)
  /-- The name of a binding that the model has. -/
  modelBinding : Option String

/-- What comes of a step. -/
inductive Reply
  | nothing
  | flag (b : Bool)
  | text (s : String)
  | count (n : Nat)
  | content (content : Content Interval)
  | scalar (value : Option (Scalar Interval))
  /-- The length of a sequence, and its items, asked for one place too far. -/
  | items (length : Nat) (items : List (Option (Scalar Interval)))
  /-- The number of bindings in the table and the content of one. -/
  | table (length : Nat) (content : Option (Content Interval))
  | buildFailure (error : BuildError)
  | viewFailure (error : ViewError)
  | rejection (reason : String)
  | description (description : Description Script Interval)
  | sight (sight : Option (Sight Script Interval))
  | answer (answer : Answer)
  /-- Whether an element could be locked, and its type unless it is busy. -/
  | found (locked : Bool) (kind : Option Kind)
  | drawing (size : Size Float) (ops : List (DrawOp Float))
  /-- The titles of the configuration and of the window. -/
  | titles (config window : String)
  | view (info : ViewInfo)
  /-- What came of several steps, each with the lines written and the frames asked for. -/
  | steps (outcomes : List (Reply × List String × Nat))

end Trellis
