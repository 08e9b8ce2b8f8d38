import Trellis.Color
import Trellis.Document.Toml.Reader

/-!
# Window settings

* `Config` — how a window opens.
* `Config.ofToml?` — reads the settings of a document.
* `Config.initialSize` — the size it opens at, kept within its limits.
-/

namespace Trellis

/-- Initial settings of a window. -/
structure Config where
  title : String := "perch"
  size : Option (Size Float) := none
  minSize : Option (Size Float) := none
  maxSize : Option (Size Float) := none
  fullscreen : Bool := false
  /-- The colour of the system's status bar. -/
  statusColor : Option String := none
  /-- The colour of the system's navigation bar. -/
  navigationColor : Option String := none

namespace Config

/-- The size the window opens at: at least the minimum, then at most the maximum. -/
def initialSize (config : Config) : Option (Size Float) :=
  config.size.map fun size =>
    let size := match config.minSize with
      | some least => ⟨Number.max size.x least.x, Number.max size.y least.y⟩
      | none => size
    match config.maxSize with
    | some most => ⟨Number.min size.x most.x, Number.min size.y most.y⟩
    | none => size

/-- Whether two sizes are equal; one that is no number equals none. -/
def sameSize : Option (Size Float) → Option (Size Float) → Bool
  | none, none => true
  | some a, some b => a.x == b.x && a.y == b.y
  | _, _ => false

/-- Whether two settings are equal. -/
def same (a b : Config) : Bool :=
  a.title == b.title && sameSize a.size b.size && sameSize a.minSize b.minSize &&
    sameSize a.maxSize b.maxSize && a.fullscreen == b.fullscreen &&
    a.statusColor == b.statusColor && a.navigationColor == b.navigationColor

/-- A number, whole or not. -/
def number? : Datum → Option Float
  | .int n => some (Float.ofInt n)
  | .real x => some x
  | _ => none

/-- A size: a mapping with `width` and `height`, or a sequence that starts with the two. -/
def size? : Datum → Option (Size Float)
  | .mapping entries => do
    let side (key : String) : Option Float := (Node.get? entries key).bind number?
    pure ⟨← side "width", ← side "height"⟩
  | .list (width :: height :: _) => do pure ⟨← number? width, ← number? height⟩
  | _ => none

/-- The setting of a key, or `fallback` if the key is missing. A setting of another kind is a
fault. -/
def setting? {α : Type} (node : Node) (key : String) (read? : Datum → Option α) (fallback : α) :
    Option α :=
  match node.get? key with
  | none => some fallback
  | some d => read? d

/-- The settings of a mapping; keys that are no settings are passed over. -/
def ofNode? (node : Node) : Option Config := do
  let start : Config := {}
  let size? (key : String) := setting? node key (fun d => (size? d).map some) none
  let text? (key : String) := setting? node key (fun d => d.toText?.map some) none
  pure
    { title := ← setting? node "title" Datum.toText? start.title
      size := ← size? "size"
      minSize := ← size? "min_size"
      maxSize := ← size? "max_size"
      fullscreen := ← setting? node "fullscreen" Datum.toFlag? start.fullscreen
      statusColor := ← text? "status_color"
      navigationColor := ← text? "navigation_color" }

/-- Reads the settings of a document. -/
def ofToml? (text : String) : Option Config := (Toml.read? text.toList).bind ofNode?

end Config

end Trellis
