import Trellis.Document.Yaml.Token

/-!
# The YAML parser

The parser puts tokens together to a tree. Something may be marked by an anchor and repeated
elsewhere by an alias; in the tree an alias stands for itself, and the marked places are listed
beside it, because a place may contain an alias for itself.

* `Yaml.Tree` — values as they are written.
* `Yaml.Parsing` — reads trees off a list of tokens.
* `Yaml.stream?` — the tree of the only document of a stream, with the marked places.
-/

namespace Trellis.Yaml

/-- A value as it is written, with its tag. -/
inductive Tree
  | text (tag : Option Tag) (plain : Bool) (s : String)
  | list (tag : Option Tag) (items : List Tree)
  | mapping (tag : Option Tag) (entries : List (Tree × Tree))
  /-- A repetition of the place of that number. -/
  | alias (place : Nat)
  deriving Inhabited

/-- The tokens that are left, and what has been marked. -/
structure Marks where
  tokens : List Token
  /-- What the handles of tags stand for, latest first. -/
  handles : List (String × Tag) := []
  /-- The places by name. An anchor that occurs again takes as its number that of names so far, which
  a later name may take as well. -/
  names : List (String × Nat) := []
  /-- For the number of a place the latest node that was marked with it, latest first. -/
  places : List (Nat × Nat) := []
  /-- The trees of the marked nodes. -/
  trees : List (Nat × Tree) := []

/-- Reading off tokens. -/
abbrev Parsing := StateT Marks Option

namespace Parsing

def fail {α : Type} : Parsing α := fun _ => none

/-- The token that is next. -/
def next : Parsing (Option Token) := do pure (← get).tokens.head?

/-- Over one token. -/
def skip : Parsing Unit := modify fun m => { m with tokens := m.tokens.tail }

/-- Over the token if it is next; answers whether it was. -/
def accept (token : Token) : Parsing Bool := do
  if (← next) = some token then
    skip
    pure true
  else pure false

/-- Whether one of the tokens is next. -/
def among (tokens : List Token) : Parsing Bool := do pure ((← next).any (· ∈ tokens))

/-- No value at all. -/
def empty : Tree := .text none true ""

/-- A value, or none at all if one of the tokens is next. -/
def orEmpty (tokens : List Token) (part : Parsing Tree) : Parsing Tree := do
  if ← among tokens then pure empty else part

/-- Lists an anchor, which marks the node that comes next. Answers the number of the node. -/
def mark (name : String) : Parsing Nat := do
  let m ← get
  let place := m.names.length
  let node := m.places.length
  set { m with
    names := (name, place) :: m.names.filter (·.1 ≠ name)
    places := (place, node) :: m.places }
  pure node

/-- Reads the anchor of a node if it has one. -/
def anchor? : Parsing (Option String) := do
  match ← next with
  | some (.anchor name) => do
    skip
    pure (some name)
  | _ => pure none

/-- Reads the tag of a node if it has one. The handle has to be known. -/
def tag? : Parsing (Option Tag) := do
  match ← next with
  | some (.tag handle suffix) => do
    skip
    if handle.isEmpty then pure (some suffix)
    else match (← get).handles.lookup handle with
      | some full => pure (some (full ++ suffix))
      | none => fail
  | _ => pure none

/-- Where a node stands, which decides what it can be. -/
inductive Place
  | flow
  | block
  /-- In a block mapping, where a sequence needs no further indentation. -/
  | entry
  deriving DecidableEq

mutual

/-- Reads a node. -/
def node : Nat → Place → Parsing Tree
  | 0, _ => fail
  | fuel + 1, place => do
    match ← next with
    | some (.alias name) => do
      skip
      match (← get).names.lookup name with
      | some place => pure (.alias place)
      | none => fail
    | _ => do
      let before ← anchor?
      let tag ← tag?
      let name ← if before.isNone then anchor? else pure before
      match name with
      | none => content fuel place none tag
      | some name => do
        let number ← mark name
        let tree ← content fuel place number tag
        modify fun m => { m with trees := (number, tree) :: m.trees }
        pure tree

/-- Reads a node after its anchor and its tag. -/
def content : Nat → Place → Option Nat → Option Tag → Parsing Tree
  | 0, _, _, _ => fail
  | fuel + 1, place, number, tag => do
    match ← next with
    | some (.text s plain) => do
      skip
      pure (.text tag plain s)
    | some .openSequence => do
      skip
      pure (.list tag (← flowItems fuel true))
    | some .openMapping => do
      skip
      pure (.mapping tag (← flowEntries fuel true))
    | token =>
      if token = some .item ∧ place = .entry then do pure (.list tag (← looseItems fuel))
      else if token = some .blockSequence ∧ place ≠ .flow then do
        skip
        pure (.list tag (← blockItems fuel))
      else if token = some .blockMapping ∧ place ≠ .flow then do
        skip
        pure (.mapping tag (← blockEntries fuel))
      else if number.isSome ∨ tag.isSome then pure (.text tag true "")
      else fail

/-- Reads the items of a block sequence and its end. -/
def blockItems : Nat → Parsing (List Tree)
  | 0 => fail
  | fuel + 1 => do
    if ← accept .item then
      let item ← orEmpty [.item, .blockEnd] (node fuel .block)
      pure (item :: (← blockItems fuel))
    else if ← accept .blockEnd then pure []
    else fail

/-- Reads the items of a sequence that has no indentation of its own. -/
def looseItems : Nat → Parsing (List Tree)
  | 0 => fail
  | fuel + 1 => do
    if ← accept .item then
      let item ← orEmpty [.item, .key, .value, .blockEnd] (node fuel .block)
      pure (item :: (← looseItems fuel))
    else pure []

/-- Reads the entries of a block mapping and its end. -/
def blockEntries : Nat → Parsing (List (Tree × Tree))
  | 0 => fail
  | fuel + 1 => do
    let part := orEmpty [.key, .value, .blockEnd] (node fuel .entry)
    if ← accept .key then
      let key ← part
      let value ← if ← accept .value then part else pure empty
      pure ((key, value) :: (← blockEntries fuel))
    else if ← accept .blockEnd then pure []
    else fail

/-- Reads the items of a sequence in brackets and its end. Between two there is a comma, and after
the last one there may be one. -/
def flowItems : Nat → Bool → Parsing (List Tree)
  | 0, _ => fail
  | fuel + 1, first => do
    if ← accept .closeSequence then pure []
    else if !first && !(← accept .comma) then fail
    else if ← accept .key then
      let entry ← pair fuel
      pure (.mapping none [entry] :: (← flowItems fuel false))
    else if ← accept .closeSequence then pure []
    else
      let item ← node fuel .flow
      pure (item :: (← flowItems fuel false))

/-- Reads the only entry of a mapping that is an item in brackets. A key that is left out takes the
token after it along. -/
def pair : Nat → Parsing (Tree × Tree)
  | 0 => fail
  | fuel + 1 => do
    let key ←
      if ← among [.value, .comma, .closeSequence] then
        skip
        pure empty
      else node fuel .flow
    let value ←
      if ← accept .value then orEmpty [.comma, .closeSequence] (node fuel .flow) else pure empty
    pure (key, value)

/-- Reads the entries of a mapping in braces and its end. -/
def flowEntries : Nat → Bool → Parsing (List (Tree × Tree))
  | 0, _ => fail
  | fuel + 1, first => do
    if ← accept .closeMapping then pure []
    else if !first && !(← accept .comma) then fail
    else if ← accept .key then
      let key ← orEmpty [.value, .comma, .closeMapping] (node fuel .flow)
      let value ←
        if ← accept .value then orEmpty [.comma, .closeMapping] (node fuel .flow) else pure empty
      pure ((key, value) :: (← flowEntries fuel false))
    else if ← accept .closeMapping then pure []
    else
      let key ← node fuel .flow
      pure ((key, empty) :: (← flowEntries fuel false))

end

/-- Reads the directives before a document; `versioned` says whether one has named the version. -/
def directives (versioned : Bool) : Nat → Parsing Unit
  | 0 => fail
  | fuel + 1 => do
    match ← next with
    | some (.version major minor) => do
      if versioned ∨ major ≠ 1 ∨ (minor ≠ 1 ∧ minor ≠ 2) then fail
      else
        skip
        directives true fuel
    | some (.tagHandle handle full) => do
      if ((← get).handles.lookup handle).isSome then fail
      else
        modify fun m => { m with handles := (handle, full) :: m.handles }
        skip
        directives versioned fuel
    | _ => pure ()

/-- The handles that are known in every document. -/
def usualHandles : List (String × Tag) :=
  [("!", Tag.mark), ("!!", Tag.ofChars "tag:yaml.org,2002:".toList)]

/-- Over what may stand at the end of a stream with one document. -/
def ends : Nat → Parsing Unit
  | 0 => fail
  | fuel + 1 => do
    match ← next with
    | none => pure ()
    | some .documentEnd => do
      skip
      ends fuel
    | some _ => fail

/-- Reads the first document of a stream. -/
def document (fuel : Nat) : Parsing Tree := do
  let before := (← get).tokens.length
  directives false fuel
  let directed := (← get).tokens.length < before
  modify fun m => { m with handles := m.handles ++ usualHandles }
  if ← accept .documentStart then
    match ← next with
    | none | some .documentStart | some .documentEnd | some (.version _ _)
    | some (.tagHandle _ _) => pure empty
    | _ => node fuel .block
  else if directed then fail
  else node fuel .block

/-- Reads a stream of at most one document. -/
def stream (fuel : Nat) : Parsing Tree := do
  let tree ← if (← next).isNone then pure empty else document fuel
  ends fuel
  pure tree

end Parsing

/-- The tree of the only document of some tokens, with what has been marked. -/
def stream? (tokens : List Token) : Option (Tree × Marks) :=
  (Parsing.stream (4 * tokens.length + 4)).run { tokens }

end Trellis.Yaml
