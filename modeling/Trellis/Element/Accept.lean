import Trellis.Style.InputType

/-!
# Accepting edited text

The characters of an edited text are taken one at a time. Each must be among those accepted after
what has been taken before it.

* `accept` — the text that is taken, where what is accepted may depend on a computation.
* `InputType.accept` — the text that is taken by the characters of an input type alone.
-/

namespace Trellis

/-- Continues a text that has been taken in part. `allowed` gives the characters accepted after a
text, none listed meaning that all are. A length limit of zero is none. -/
def acceptFrom {m : Type → Type} [Monad m] (allowed : List Char → m (List Char))
    (multiLine : Bool) (maxLength : Nat) (taken : List Char) : List Char → m (List Char)
  | [] => pure taken
  | c :: rest =>
    if 0 < maxLength ∧ maxLength ≤ taken.length then pure taken
    else if !multiLine ∧ c = '\n' then acceptFrom allowed multiLine maxLength taken rest
    else do
      let filter ← allowed taken
      if filter.isEmpty ∨ c ∈ filter then
        acceptFrom allowed multiLine maxLength (taken ++ [c]) rest
      else acceptFrom allowed multiLine maxLength taken rest

/-- The part of an edited text that is taken. -/
def accept {m : Type → Type} [Monad m] (allowed : List Char → m (List Char)) (multiLine : Bool)
    (maxLength : Nat) (edited : List Char) : m (List Char) :=
  acceptFrom allowed multiLine maxLength [] edited

/-- The part of an edited text that an input type takes. -/
def InputType.accept (type : InputType) (multiLine : Bool) (maxLength : Nat)
    (edited : List Char) : List Char :=
  Id.run (Trellis.accept (fun taken => pure (type.filterAfter taken)) multiLine maxLength edited)

end Trellis
