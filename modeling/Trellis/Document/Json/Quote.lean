import Trellis.Text.Digit

/-!
# Quoted texts

A text between quotation marks: the mark itself, the backslash and control characters are escaped,
all else stands as it is.
-/

namespace Trellis.Json

/-- The escape of one character. -/
def escape (c : Char) : List Char :=
  match c with
  | '"' => ['\\', '"']
  | '\\' => ['\\', '\\']
  | '\x08' => ['\\', 'b']
  | '\x0c' => ['\\', 'f']
  | '\n' => ['\\', 'n']
  | '\r' => ['\\', 'r']
  | '\t' => ['\\', 't']
  | c => if c.toNat < 32 then ['\\', 'u', '0', '0'] ++ Text.toHex 2 c.toNat else [c]

/-- The text in quotation marks. -/
def quote (s : String) : String :=
  String.ofList ('"' :: s.toList.flatMap escape ++ ['"'])

end Trellis.Json
