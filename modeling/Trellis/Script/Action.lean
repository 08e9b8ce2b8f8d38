import Trellis.Element.Call
import Trellis.Program
import Trellis.Script.Sketch
import Trellis.Script.Value

/-!
# Scripted callbacks

An application whose callbacks are lists of actions, given as data. Actions name bindings and
watchers by keys and elements by their ids.

* `Action` — what a callback does, step by step.
* `Script` — the codes of a scripted application.
* `Script.app` — what they stand for.
-/

namespace Trellis

/-- One step of a scripted callback. -/
inductive Action
  | set (key : String) (value : Datum)
  | copy (source target : String)
  | toggle (key : String)
  /-- Appends the text of one binding to a sequence of texts. -/
  | append (key source : String)
  /-- Sets a binding to the value of another one, or its own, plus an amount, up to a limit. -/
  | add (key : String) (amount : Datum) (source : Option String) (most : Option Datum)
  | clamp (key : String) (low high : Datum)
  | log (line : String)
  /-- Writes the value of a binding. -/
  | get (key : String)
  | watch (watcher key : String)
  | unwatch (watcher key : String)
  | dropWatcher (watcher : String)
  | invalidate
  /-- Writes how many events there are for an element. -/
  | events (id : String)
  | tryLock (id : String) (kind : Kind)
  /-- Makes a call on an element, with the current window to wait in if the flag is set. -/
  | update (id : String) (kind : Kind) (call : Call String String) (window : Bool)
  | defer (actions : List Action)
  | send (event : Event)

/-- What a scripted function does, by its kind. -/
inductive FunctionBody
  | handler (actions : List Action)
  /-- Accepts characters by the length of the text so far; the last set goes on. -/
  | filter (sets : List String)
  | painter (sketch : List Instruction) (size : Pick)
  | itemRenderer (size : Size Float) (empty perChar : Option (Size Float)) (constrain : Bool)
  | itemHandler (actions : List Action)

/-- The codes of a scripted application. -/
inductive Script
  | function (name : String) (body : FunctionBody)
  | watcher (name : String) (actions : List Action)
  /-- Runs actions later. -/
  | later (actions : List Action)
  | hook (actions : List Action)
  /-- Writes the answer to a call on the element of an id. -/
  | reply (id : String)
  | model

/-- The exported function of a name, by the kind of its body. -/
def FunctionBody.export (body : FunctionBody) (name : String) : Function Script :=
  let code := Script.function name body
  match body with
  | .handler _ => .handler code
  | .filter _ => .filter code
  | .painter .. => .painter code
  | .itemRenderer .. => .itemRenderer code
  | .itemHandler _ => .itemHandler code

/-- What the names in scripts stand for at the moment. -/
structure Names where
  /-- Bindings by their keys. -/
  bindings : List (String × BindingId) := []
  watchers : List (String × WatcherId) := []
  functions : List (String × Function Script) := []
  /-- The current window. -/
  window : Option WindowId := none
  /-- The table that documents look bindings up in. -/
  table : List (String × BindingId) := []
  /-- Why models fail to be prepared, if they do. -/
  prepareFault : Option String := none
  /-- Why models fail to be destroyed, if they do. -/
  destroyFault : Option String := none

/-- A call with its keys and function names resolved. -/
def Names.call (names : Names) : Call String String → Call Script BindingId
  | .change change => .change change
  | .bind key => .bind (key.bind fun k => names.bindings.lookup k)
  | .renderer name => .renderer ((name.bind fun n => names.functions.lookup n).bind Function.itemRenderer?)
  | .handler name => .handler ((name.bind fun n => names.functions.lookup n).bind Function.itemHandler?)

namespace Scalar

/-- The sum of a number and an amount. -/
def plus? : Scalar Interval → Datum → Option (Scalar Interval)
  | .int n, .int d => some (.int (n + d))
  | .single x, d => d.toNumber?.map fun y => .single (Number.addSingle x (Number.single y))
  | .double x, d => d.toNumber?.map fun y => .double (x + y)
  | _, _ => none

/-- A number kept up to a limit. -/
def atMost? : Scalar Interval → Datum → Option (Scalar Interval)
  | .int n, .int d => some (.int (min n d))
  | .single x, d => d.toNumber?.map fun y => .single (Number.min x (Number.single y))
  | .double x, d => d.toNumber?.map fun y => .double (Number.min x y)
  | _, _ => none

/-- A number kept between two limits. -/
def clamp? : Scalar Interval → Datum → Datum → Option (Scalar Interval)
  | .int n, .int low, .int high => some (.int (min (max n low) high))
  | .single x, low, high => do
    pure (.single (clampReal x (Number.single (← low.toNumber?)) (Number.single (← high.toNumber?))))
  | .double x, low, high => do pure (.double (clampReal x (← low.toNumber?) (← high.toNumber?)))
  | _, _, _ => none
where
  /-- What is no number stays as it is. -/
  clampReal (x low high : Float) : Float := if x < low then low else if high < x then high else x

end Scalar

namespace Action

/-- The callbacks of scripts. -/
abbrev Callback (α : Type) := Program Script Interval α

/-- Writes a line. -/
def say (line : String) : Callback Unit := .note line (.done ())

/-- The content of the binding of a key. -/
def content (names : Names) (key : String) : Callback (Option (Content Interval)) :=
  match names.bindings.lookup key with
  | some b => .read b fun found => .done (found.map (·.2))
  | none => .done none

/-- Sets the binding of a key, if there is a content to set it to. -/
def assign (names : Names) (key : String) (content : Option (Content Interval)) : Callback Unit :=
  match names.bindings.lookup key, content with
  | some b, some content => .set b content fun _ => .done ()
  | _, _ => .done ()

/-- The single value of a content. -/
def single (found : Option (Content Interval)) : Option (Scalar Interval) :=
  found.bind Content.value?

/-- Writes how many of the events are for an element, and for which window they are. -/
def sayEvents (ctx : EventContext) (id : String) : Callback Unit :=
  let counts := s!"events {(ctx.addressedTo id).length}/{ctx.events.length} window "
  match ctx.window with
  | some window => .title window fun title => say (counts ++ title)
  | none => say (counts ++ "none")

/-- Does something with a watcher, unless it has been let go of, and a binding. -/
def withWatcher (names : Names) (watcher key : String)
    (part : WatcherId → BindingId → Callback Unit) : Callback Unit :=
  match names.watchers.lookup watcher, names.bindings.lookup key with
  | some w, some b => .keeps w fun kept => if kept then part w b else .done ()
  | _, _ => .done ()

/-- Runs one action. There are no events in watchers and tasks. -/
def run (names : Names) (ctx : Option EventContext) : Action → Callback Unit
  | .set key value => do
    let found ← content names key
    assign names key (found.bind fun c => Content.ofDatum? c.shape value)
  | .copy source target => do assign names target (← content names source)
  | .toggle key => do
    match single (← content names key) with
    | some (.flag b) => assign names key (some (.one (.flag !b)))
    | _ => pure ()
  | .append key source => do
    match ← content names key, single (← content names source) with
    | some (.many kind items), some v => assign names key (some (.many kind (items ++ [v])))
    | _, _ => pure ()
  | .add key amount source most => do
    let sum := (single (← content names (source.getD key))).bind (·.plus? amount)
    let sum := match most with
      | some limit => sum.bind (·.atMost? limit)
      | none => sum
    assign names key (sum.map .one)
  | .clamp key low high => do
    let kept := (single (← content names key)).bind (·.clamp? low high)
    assign names key (kept.map .one)
  | .log line => say line
  | .get key => do
    match ← content names key with
    | some c => say (key ++ "=" ++ c.written)
    | none => pure ()
  | .watch watcher key => withWatcher names watcher key fun w b => .watch w b (.done ())
  | .unwatch watcher key => withWatcher names watcher key fun w b => .unwatch w b (.done ())
  | .dropWatcher watcher =>
    match names.watchers.lookup watcher with
    | some w => .drop w (.done ())
    | none => .done ()
  | .invalidate =>
    match names.window with
    | some window => .invalidate window (.done ())
    | none => .done ()
  | .events id =>
    match ctx with
    | some ctx => sayEvents ctx id
    | none => say "no events"
  | .tryLock id kind => .find id fun
    | none => say s!"lock {id} missing"
    | some e => .handle e kind fun
      | none => say s!"lock {id} wrong type"
      | some h => .tryLock h fun locked =>
        say (s!"lock {id} " ++ if locked then "free" else "busy")
  | .update id kind call window => .find id fun
    | none => say s!"update {id} missing"
    | some e => .handle e kind fun
      | none => say s!"update {id} wrong type"
      | some h =>
        let h := if window then h.withWindow names.window else h
        .update h (names.call call) (.reply id) (.done ())
  | .defer actions =>
    match names.window with
    | some window => .defer window (.later actions) (.done ())
    | none => .done ()
  | .send event => .send event (.done ())

/-- Runs actions one after another. -/
def runAll (names : Names) (ctx : Option EventContext) (actions : List Action) : Callback Unit :=
  Program.sequence (actions.map (run names ctx))

end Action

/-- The written form of an answer. -/
def Answer.written : Answer → String
  | .done => Json.quote "ok"
  | .unsupported => Json.quote "no such method"
  | .text s => Json.quote s

namespace Script

open Trellis.Action

/-- The text of the item at an index, and its size with `perChar` for each of its characters. -/
def itemSize (size : Size Float) (empty perChar : Option (Size Float)) (text : String) :
    Size Float :=
  let base := if text.isEmpty then empty.getD size else size
  let n := Number.natural text.length
  match perChar with
  | some step => ⟨base.x + step.x * n, base.y + step.y * n⟩
  | none => base

/-- Draws an item as a text of a given size. -/
def drawItem (element : String) (size : Size Float) (constrain : Bool) (text : String) :
    Painting Script (Size Float) := do
  let limits ← Canvas.limits
  let size := if constrain then limits.constrain size else size
  Canvas.paint element size (.text text 10 .clear)
  pure size

/-- Draws a sketch for an element. -/
def drawSketch (name id : String) (sketch : List Instruction) (size : Pick) :
    Painting Script (Size Float) := do
  Canvas.request (.note (name ++ " " ++ id))
  let _ ← (Instruction.runAll id sketch).run {}
  pure (size.choose (← Canvas.limits))

/-- What the codes of a scripted application stand for. -/
def app (names : Names) : App Script Interval where
  handler code ctx id :=
    match code with
    | .function name (.handler actions) =>
      .note (name ++ " " ++ id) (runAll names (some ctx) actions)
    | _ => .done ()
  filter code _ id text :=
    match code with
    | .function name (.filter sets) =>
      .note (name ++ " " ++ id ++ " " ++ Json.quote text)
        (.done ((sets[min text.length (sets.length - 1)]?).getD ""))
    | _ => .done ""
  painter code id :=
    match code with
    | .function name (.painter sketch size) => drawSketch name id sketch size
    | _ => pure Vec.zero
  itemRenderer code i items :=
    match code with
    | .function name (.itemRenderer size empty perChar constrain) =>
      let text := Scalar.itemText items[i]?
      drawItem (name ++ toString i) (itemSize size empty perChar text) constrain text
    | _ => pure Vec.zero
  itemHandler code ctx i b :=
    match code with
    | .function name (.itemHandler actions) => .read b fun found =>
      let items := (found.bind (·.2.items?)).getD []
      .note s!"{name} {i} {Scalar.itemText items[i]?}/{items.length}"
        (runAll names (some ctx) actions)
    | _ => .done ()
  watcher code b :=
    match code with
    | .watcher name actions => .read b fun
      | some (binding, content) =>
        .note s!"watch {name} {binding}={content.written}" (runAll names none actions)
      | none => .done ()
    | _ => .done ()
  task code :=
    match code with
    | .later actions => runAll names none actions
    | _ => .done ()
  reply code answer :=
    match code with
    | .reply id => say s!"update {id} {answer.written}"
    | _ => .done ()
  hook code ctx :=
    match code with
    | .hook actions => .note s!"hook {ctx.events.length}" (runAll names (some ctx) actions)
    | _ => .done ()
  prepareModel _ := .note "model initialize" (.done names.prepareFault)
  destroyModel _ := .note "model destroy" (.done names.destroyFault)
  modelBinding _ name := names.table.lookup name

end Script

end Trellis
