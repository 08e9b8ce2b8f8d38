/-!
# Named icons

The built-in icons, by the names documents use for them.
-/

namespace Trellis

/-- An icon and the code point it has in the icon font. -/
structure Icon where
  name : String
  codepoint : Nat
  deriving DecidableEq

namespace Icon

/-- All icons, in the order of their names. -/
def all : List Icon :=
  [⟨"add", 0xe145⟩, ⟨"arrow_back", 0xe5c4⟩, ⟨"arrow_forward", 0xe5c8⟩, ⟨"check", 0xe5ca⟩,
    ⟨"close", 0xe5cd⟩, ⟨"delete", 0xe872⟩, ⟨"done", 0xe876⟩, ⟨"edit", 0xe3c9⟩,
    ⟨"favorite", 0xe87d⟩, ⟨"home", 0xe88a⟩, ⟨"info", 0xe88e⟩, ⟨"menu", 0xe5d2⟩,
    ⟨"pause", 0xe034⟩, ⟨"play_arrow", 0xe037⟩, ⟨"refresh", 0xe5d5⟩, ⟨"search", 0xe8b6⟩,
    ⟨"send", 0xe163⟩, ⟨"settings", 0xe8b8⟩, ⟨"stop", 0xe047⟩, ⟨"timer", 0xe425⟩,
    ⟨"warning", 0xe002⟩]

/-- The icon of that name. -/
def find? (name : String) : Option Icon := all.find? (·.name == name)

end Icon

end Trellis
