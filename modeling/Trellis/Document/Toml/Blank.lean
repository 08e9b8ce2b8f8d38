import Trellis.Text.Digit

/-!
# Blanks, comments and line ends of TOML

Every reader takes the characters that are left and answers those left after it.

* `Toml.skipBlanks` — over blanks on a line.
* `Toml.lineEnd?` — over the rest of a line that says nothing more.
* `Toml.skipLines?` — over blanks, line ends and comments.
-/

namespace Trellis.Toml

/-- Whether the character may stand in a comment or, quotation marks aside, in a text. -/
def isPlain (c : Char) : Bool := c == '\t' || (' ' ≤ c && c ≠ '\x7f')

def isBlank (c : Char) : Bool := c == ' ' || c == '\t'

def skipBlanks (s : List Char) : List Char := s.dropWhile isBlank

/-- Over a line end. -/
def newline? : List Char → Option (List Char)
  | '\n' :: rest => some rest
  | '\r' :: '\n' :: rest => some rest
  | _ => none

/-- Over blanks, a comment if there is one, and the end of the line or of the text. -/
def lineEnd? (s : List Char) : Option (List Char) :=
  let s := match skipBlanks s with
    | '#' :: comment => comment.dropWhile isPlain
    | s => s
  if s.isEmpty then some [] else newline? s

/-- Over blanks, line ends and comments. A comment has to end with its line. -/
def skipLines? (inComment : Bool) : List Char → Option (List Char)
  | [] => if inComment then none else some []
  | c :: rest =>
    if c = '\n' then skipLines? false rest
    else if c = '\r' then
      if rest.head? = some '\n' then skipLines? inComment rest else none
    else if inComment then
      if isPlain c then skipLines? true rest else none
    else if isBlank c then skipLines? false rest
    else if c = '#' then skipLines? true rest
    else some (c :: rest)

end Trellis.Toml
