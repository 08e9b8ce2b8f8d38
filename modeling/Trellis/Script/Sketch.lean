import Trellis.Canvas

/-!
# Sketches

Drawings given as instructions, with questions about the context in between.

* `Instruction` — one step of a sketch.
* `Instruction.run` — draws a step; what it notices is kept in a `Notebook`.
-/

namespace Trellis

/-- A size, or the smallest or the largest one allowed. -/
inductive Pick
  | size (size : Size Float)
  | least
  | most

def Pick.choose : Pick → Constraints Float → Size Float
  | .size s, _ => s
  | .least, limits => limits.min
  | .most, limits => limits.max

/-- One step of a sketch. -/
inductive Instruction
  | fill (pick : Pick) (color : Color Float)
  | stroke (pick : Pick) (width : Float) (color : Color Float)
  | text (text : String) (size : Float) (color : Color Float)
  | icon (pick : Pick) (name : String) (color : Color Float)
  | arc (pick : Pick) (start sweep width : Float) (color : Color Float)
  | offset (offset : Vec Float) (part : List Instruction)
  | constrain (constraints : Constraints Float) (part : List Instruction)
  | record (name : String) (constraints : Constraints Float) (part : List Instruction)
      (answer : Pick)
  | replay (name : String) (offset : Vec Float)
  /-- Asks whether two recordings are equal. -/
  | same (first second : String)
  | metrics (metrics : TextMetrics Float)
  | measure (text : String) (size : Float)
  | askOrigin
  | askConstraints
  /-- Asks how many ops there are. -/
  | count
  /-- Asks for the rectangles of all ops. -/
  | bounds

/-- An answer to a question of a sketch. -/
inductive Observation
  | size (size : Size Float)
  | constraints (constraints : Constraints Float)
  | count (n : Nat)
  | bounds (rects : List (Rect Float))
  | recorded (size : Size Float)
  | noRecording
  | same (equal : Bool)

/-- The recordings and the answers of a sketch so far. -/
structure Notebook where
  recordings : List (String × Recording Float) := []
  observations : List Observation := []

/-! ## Equality of recordings

Numbers are compared as numbers: zero equals its negative, and what is no number equals nothing. -/

def Vec.same (a b : Vec Float) : Bool := a.x == b.x && a.y == b.y

def Color.same (a b : Color Float) : Bool := a.r == b.r && a.g == b.g && a.b == b.b && a.a == b.a

def Ink.same : Ink Float → Ink Float → Bool
  | .fill c, .fill d => c.same d
  | .stroke v c, .stroke w d => v == w && c.same d
  | .text s x c, .text t y d => s == t && x == y && c.same d
  | .icon m c, .icon n d => m == n && c.same d
  | .arc p q v c, .arc r s w d => p == r && q == s && v == w && c.same d
  | _, _ => false

def DrawOp.same (a b : DrawOp Float) : Bool :=
  a.element == b.element && a.bounds.origin.same b.bounds.origin &&
    a.bounds.size.same b.bounds.size && a.ink.same b.ink

def Recording.same (a b : Recording Float) : Bool :=
  a.size.same b.size && a.ops.length == b.ops.length && (a.ops.zip b.ops).all fun p => p.1.same p.2

namespace Instruction

variable {ε : Type}

/-- Drawing that takes notes. -/
abbrev Sketching (ε : Type) := StateT Notebook (Draw Float ε)

/-- Writes down an answer. -/
def observe (o : Observation) : Sketching ε Unit :=
  modify fun n => { n with observations := n.observations ++ [o] }

/-- Puts ink into a rectangle of a picked size. -/
def paintPick (element : String) (pick : Pick) (ink : Ink Float) : Sketching ε Unit := do
  let size := pick.choose (← (Canvas.limits : Draw Float ε _))
  (Canvas.paint element size ink : Draw Float ε Unit)

mutual

/-- Draws one step for an element. -/
def run (element : String) : Instruction → Sketching ε Unit
  | .fill pick color => paintPick element pick (.fill color)
  | .stroke pick width color => paintPick element pick (.stroke width color)
  | .text s size color => do
    let metrics ← (Canvas.textMetrics : Draw Float ε _)
    (Canvas.paint element (metrics.measure s.toList size) (.text s size color) :
      Draw Float ε Unit)
  | .icon pick name color => paintPick element pick (.icon name color)
  | .arc pick start sweep width color => paintPick element pick (.arc start sweep width color)
  | .offset d part => fun notes => Canvas.withOffset d (runAll element part notes)
  | .constrain constraints part => fun notes =>
    Canvas.withConstraints constraints (runAll element part notes)
  | .record name constraints part answer => fun notes => do
    let ((size, notes), ops) ← Canvas.scratch constraints do
      let (_, notes) ← runAll element part notes
      pure (answer.choose (← Canvas.limits), notes)
    pure ((), { recordings := (name, ⟨size, ops⟩) :: notes.recordings
                observations := notes.observations ++ [.recorded size] })
  | .replay name d => do
    match (← get).recordings.lookup name with
    | some recording => (Canvas.replay recording d : Draw Float ε Unit)
    | none => observe .noRecording
  | .same first second => do
    let recordings := (← get).recordings
    let equal := match recordings.lookup first, recordings.lookup second with
      | some a, some b => a.same b
      | none, none => true
      | _, _ => false
    observe (.same equal)
  | .metrics m => (Canvas.setMetrics m : Draw Float ε Unit)
  | .measure s size => do
    let metrics ← (Canvas.textMetrics : Draw Float ε _)
    observe (.size (metrics.measure s.toList size))
  | .askOrigin => do
    let corner ← (Canvas.rect Vec.zero : Draw Float ε _)
    observe (.size corner.origin)
  | .askConstraints => do observe (.constraints (← (Canvas.limits : Draw Float ε _)))
  | .count => do observe (.count (← (Canvas.drawn : Draw Float ε _)).length)
  | .bounds => do observe (.bounds ((← (Canvas.drawn : Draw Float ε _)).map (·.bounds)))

/-- Draws steps one after another. -/
def runAll (element : String) : List Instruction → Sketching ε Unit
  | [] => pure ()
  | step :: rest => do
    run element step
    runAll element rest

end

end Instruction

end Trellis
