import Trellis.Style.Named

/-!
# Kinds of input

What a text field expects: the characters it accepts, which of them may be used only once, and the
character it hides its text behind.

* `InputType.filter` — the characters of a kind; none listed means that all are accepted.
* `InputType.filterAfter` — the same, after some text has been accepted.
-/

namespace Trellis

/-- The kind of text an input expects. -/
inductive InputType
  | any | text | numeric | integer | email | url | telephone | password
  deriving DecidableEq, Inhabited

instance : Named InputType where
  values := [.any, .text, .numeric, .integer, .email, .url, .telephone, .password]
  name
    | .any => "Any"
    | .text => "Text"
    | .numeric => "Numeric"
    | .integer => "Integer"
    | .email => "Email"
    | .url => "URL"
    | .telephone => "Telephone"
    | .password => "Password"

namespace InputType

/-- The character that stands for every character of a hidden text. -/
def mask : InputType → Option Char
  | .password => some '*'
  | _ => none

/-- The ten digits, then the lower-case and the upper-case letters. -/
def alphanumeric : List Char :=
  "0123456789abcdefghijklmnopqrstuvwxyzABCDEFGHIJKLMNOPQRSTUVWXYZ".toList

/-- The characters accepted; none means all. -/
def filter : InputType → List Char
  | .numeric => "0123456789.-".toList
  | .integer => "0123456789-".toList
  | .email => alphanumeric ++ "+-_~!#$%&'./=^`\x7b\x7d|@".toList
  | .url => alphanumeric ++ "+-*_~!?#$%&'.:,;/=()[]@".toList
  | .telephone => "0123456789-./ ()+".toList
  | _ => []

/-- The characters that may stand only at the start. -/
def leading : InputType → List Char
  | .numeric | .integer => ['-']
  | .telephone => ['+']
  | _ => []

/-- The characters that may stand only once. -/
def single : InputType → List Char
  | .numeric => ['.']
  | .email => ['@']
  | .url => ['?']
  | .telephone => ['(', ')']
  | _ => []

/-- The characters accepted after `accepted`: those of the kind, less those for the start and those
for one use that are used up. -/
def filterAfter (type : InputType) (accepted : List Char) : List Char :=
  if accepted.isEmpty then type.filter
  else
    let used := type.leading ++ type.single.filter accepted.contains
    used.foldl List.erase type.filter

end InputType

end Trellis
