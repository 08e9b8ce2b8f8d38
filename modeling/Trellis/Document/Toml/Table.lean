import Trellis.Document.Datum

/-!
# Tables under construction

The lines of a document fill a tree of tables. A table that was only passed through on the way to
another one may still be opened once; one that a dotted key made grows by dotted keys only.

* `Toml.Item` — what a key of a table stands for so far.
* `Toml.reach?` — changes the table at the end of a path, making the tables on the way.
* `Toml.put?`, `Toml.open?`, `Toml.append?` — what the lines do.
-/

namespace Trellis.Toml

/-- What a key of a table stands for so far. -/
inductive Item
  /-- A value, which is complete. -/
  | value (value : Datum)
  /-- A table. It is implied if no line of its own has opened it, and dotted if a dotted key made
  it. -/
  | table (implied dotted : Bool) (entries : List (String × Item))
  /-- A sequence of tables, the latest apart. -/
  | tables (earlier : List (List (String × Item))) (latest : List (String × Item))

/-- The entries of a table, in order of first appearance. -/
abbrev Entries := List (String × Item)

/-- Replaces what a key stands for. -/
def Entries.replace (key : String) (item : Item) (entries : Entries) : Entries :=
  entries.map fun entry => if entry.1 = key then (key, item) else entry

/-- Changes the table at the end of a path; `change` is told whether a dotted key made that table.
Tables on the way are made if they are missing, `dotted` saying whether a dotted key leads there; a
dotted key does not lead into a table that was opened. -/
def reach? (dotted : Bool) (change : Bool → Entries → Option Entries) (made : Bool)
    (entries : Entries) : List String → Option Entries
  | [] => change made entries
  | key :: path =>
    match entries.lookup key with
    | none => do
      let inner ← reach? dotted change dotted [] path
      pure (entries ++ [(key, .table true dotted inner)])
    | some (.value _) => none
    | some (.tables earlier latest) => do
      let latest ← reach? dotted change false latest path
      pure (entries.replace key (.tables earlier latest))
    | some (.table implied made inner) =>
      if dotted && !implied then none
      else do
        let inner ← reach? dotted change made inner path
        pure (entries.replace key (.table implied made inner))

/-- Gives a value to a key at the end of a path of a dotted key. The key must be new. -/
def put? (path : List String) (key : String) (value : Datum) (entries : Entries) : Option Entries :=
  reach? true (fun made inner =>
    if made = path.isEmpty ∨ (inner.lookup key).isSome then none
    else some (inner ++ [(key, .value value)])) false entries path

/-- Opens the table of a path, which must be new or have been passed through only. -/
def open? (path : List String) (key : String) (entries : Entries) : Option Entries :=
  reach? false (fun _ inner =>
    match inner.lookup key with
    | none => some (inner ++ [(key, .table false false [])])
    | some (.table true false entries) => some (Entries.replace key (.table false false entries) inner)
    | some _ => none) false entries path

/-- Appends a table to the sequence of tables of a path. -/
def append? (path : List String) (key : String) (entries : Entries) : Option Entries :=
  reach? false (fun _ inner =>
    match inner.lookup key with
    | none => some (inner ++ [(key, .tables [] [])])
    | some (.tables earlier latest) =>
      some (Entries.replace key (.tables (earlier ++ [latest]) []) inner)
    | some _ => none) false entries path

mutual

/-- The value of an item. -/
def Item.datum : Item → Datum
  | .value v => v
  | .table _ _ entries => .mapping (nodeOf entries)
  | .tables earlier latest => .list (listOf earlier ++ [.mapping (nodeOf latest)])

/-- The mapping of a table. -/
def nodeOf : List (String × Item) → Node
  | [] => []
  | (key, item) :: rest => (key, item.datum) :: nodeOf rest

/-- The mappings of some tables. -/
def listOf : List (List (String × Item)) → List Datum
  | [] => []
  | entries :: rest => .mapping (nodeOf entries) :: listOf rest

end

end Trellis.Toml
