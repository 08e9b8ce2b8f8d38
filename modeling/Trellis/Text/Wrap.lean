import Trellis.Style.Constants

/-!
# Breaking text into lines

A paragraph is broken where it does not fit, at spaces or between characters as the policy says.
Whether a line fits is a parameter, so nothing here depends on how text is measured.

* `pieces` — a text cut at each occurrence of a separator.
* `fillLines` — lines filled character by character.
* `wrapParagraph` — the lines of one paragraph under a policy.
* `truncateLine` — a line shortened until it fits with an ending appended.
-/

namespace Trellis.Text

/-- The parts of a text between the occurrences of `separator`; always at least one. -/
def pieces (separator : Char) : List Char → List (List Char)
  | [] => [[]]
  | c :: rest =>
    if c = separator then [] :: pieces separator rest
    else match pieces separator rest with
      | [] => [[c]]
      | piece :: more => (c :: piece) :: more

/-- Continues filling lines, `line` being the one under way. A line under way that is empty takes
its first character whether or not it fits. -/
def fillFrom (fits : List Char → Bool) (line : List Char) : List Char → List (List Char)
  | [] => [line]
  | c :: rest =>
    let longer := line ++ [c]
    if line.isEmpty || fits longer then fillFrom fits longer rest
    else line :: fillFrom fits [c] rest

/-- Fills lines character by character. Every line takes at least one character, unless there is
none. -/
def fillLines (fits : List Char → Bool) (text : List Char) : List (List Char) :=
  fillFrom fits [] text

/-- Places the words in turn, `line` being the line under way. A word that does not fit starts a
line; one too wide for a line of its own is split between characters if `split` is set, and its
tail starts the next line. -/
def placeWords (fits : List Char → Bool) (split : Bool) (line : List Char) :
    List (List Char) → List (List Char)
  | [] => [line]
  | word :: rest =>
    let candidate := if line.isEmpty then word else line ++ ' ' :: word
    if fits candidate then placeWords fits split candidate rest
    else
      let finished := if line.isEmpty then [] else [line]
      if fits word || !split then finished ++ placeWords fits split word rest
      else
        let filled := fillLines fits word
        finished ++ filled.dropLast ++ placeWords fits split (filled.getLastD []) rest

/-- The lines of one paragraph. -/
def wrapParagraph (fits : List Char → Bool) (policy : WrapPolicy) (paragraph : List Char) :
    List (List Char) :=
  match policy with
  | .graphemes => fillLines fits paragraph
  | .words => placeWords fits false [] (pieces ' ' paragraph)
  | .heuristically => placeWords fits true [] (pieces ' ' paragraph)

/-- The longest beginning of `line`, found by dropping characters at its end, with `ending`
appended that is not `tooWide`; the bare ending if none is left. -/
def truncateLine (tooWide : List Char → Bool) (ending line : List Char) : List Char :=
  if line.isEmpty || !tooWide (line ++ ending) then line ++ ending
  else truncateLine tooWide ending line.dropLast
termination_by line.length
decreasing_by
  rename_i h
  simp only [Bool.or_eq_true, not_or, List.isEmpty_iff] at h
  have := List.length_pos_iff.2 h.1
  simp only [List.length_dropLast]
  omega

end Trellis.Text
