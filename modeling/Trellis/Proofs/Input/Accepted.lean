import Mathlib.Data.List.Induction
import Trellis.Machine.Events
import Trellis.Proofs.Machine.Respects

/-!
# What an input takes of an edited text

The characters of an edited text have their turns one after another, and what may be taken depends
on what has been taken before. A text that is taken can be taken again, as every character of it
then meets what it met the first time.

* `Throughout` — every element suits those before it.
* `Intake` — what decides on the characters; `Intake.Admits` — a character may be taken after a
  text.
* `Intake.Greedy` — a character is kept if it may be, after those kept before it.
* `Intake.accepted_iff` — the accepted text is what is kept greedily.
* `Intake.accepted_eq_self_iff` — a text is accepted as it is if all its characters may be taken.
* `Machine.enterText_greedy` — an input whose filter depends on the text takes texts so.
-/

namespace Trellis

/-! ## Elements that suit those before them -/

/-- Every element of the list is as it should be after those before it. -/
def Throughout {α : Type} (P : List α → α → Prop) (as : List α) : Prop :=
  ∀ before a after, as = before ++ a :: after → P before a

namespace Throughout

variable {α : Type} {P : List α → α → Prop} {as : List α}

theorem nil : Throughout P [] := by
  intro before a after h
  simp at h

theorem concat {a : α} : Throughout P (as ++ [a]) ↔ Throughout P as ∧ P as a := by
  constructor
  · intro h
    refine ⟨?_, h as a [] rfl⟩
    rintro before b after rfl
    exact h before b (after ++ [a]) (by simp)
  · rintro ⟨hinit, hlast⟩ before b after h
    rcases List.eq_nil_or_concat after with rfl | ⟨more, c, rfl⟩
    · obtain ⟨rfl, hb⟩ := List.append_inj' h rfl
      cases hb
      exact hlast
    · have hsplit : as ++ [a] = (before ++ b :: more) ++ [c] := by simpa using h
      exact hinit before b more (List.append_inj' hsplit rfl).1

theorem of_mem (h : Throughout P as) {a : α} (mem : a ∈ as) : ∃ before, P before a := by
  obtain ⟨before, after, hsplit⟩ := List.append_of_mem mem
  exact ⟨before, h before a after hsplit⟩

end Throughout

/-! ## Characters that have their turns -/

/-- What decides on the characters of an edited text. -/
structure Intake where
  /-- The characters accepted after a text; none listed means that all are. -/
  allowed : List Char → List Char
  multiLine : Bool
  /-- The largest number of characters; zero for no limit. -/
  maxLength : ℕ

namespace Intake

/-- The filter allows the character after a text. -/
def Allows (intake : Intake) (taken : List Char) (c : Char) : Prop :=
  intake.allowed taken = [] ∨ c ∈ intake.allowed taken

/-- The character may be taken after a text. -/
structure Admits (intake : Intake) (taken : List Char) (c : Char) : Prop where
  room : intake.maxLength = 0 ∨ taken.length < intake.maxLength
  line : intake.multiLine = true ∨ c ≠ '\n'
  allowed : intake.Allows taken c

instance (intake : Intake) (taken : List Char) (c : Char) : Decidable (intake.Admits taken c) :=
  decidable_of_iff
    ((intake.maxLength = 0 ∨ taken.length < intake.maxLength) ∧
      (intake.multiLine = true ∨ c ≠ '\n') ∧
      (intake.allowed taken = [] ∨ c ∈ intake.allowed taken))
    ⟨fun ⟨room, line, allowed⟩ => ⟨room, line, allowed⟩,
      fun ⟨room, line, allowed⟩ => ⟨room, line, allowed⟩⟩

/-- The text that is taken of an edited one. -/
def accepted (intake : Intake) (edited : List Char) : List Char :=
  Id.run (accept (fun taken => pure (intake.allowed taken)) intake.multiLine intake.maxLength
    edited)

/-- What is taken once a character has had its turn. -/
def offer (intake : Intake) (taken : List Char) (c : Char) : List Char :=
  if intake.Admits taken c then taken ++ [c] else taken

/-- What is kept of a text whose characters are marked as kept or skipped. -/
def kept (marks : List (Char × Bool)) : List Char := (marks.filter (·.2)).map (·.1)

/-- A character is kept if and only if it may be taken after the ones kept before it. -/
def Greedy (intake : Intake) (marks : List (Char × Bool)) : Prop :=
  Throughout (fun before mark => mark.2 = true ↔ intake.Admits (kept before) mark.1) marks

variable {intake : Intake} {marks : List (Char × Bool)} {taken text edited : List Char} {c : Char}

@[simp] theorem kept_nil : kept [] = [] := rfl

@[simp] theorem kept_concat (marks : List (Char × Bool)) (c : Char) (keep : Bool) :
    kept (marks ++ [(c, keep)]) = if keep then kept marks ++ [c] else kept marks := by
  cases keep <;> simp [kept]

theorem kept_sublist (marks : List (Char × Bool)) : (kept marks).Sublist (marks.map (·.1)) :=
  List.filter_sublist.map _

theorem greedy_nil : intake.Greedy [] := .nil

theorem greedy_concat {keep : Bool} : intake.Greedy (marks ++ [(c, keep)]) ↔
    intake.Greedy marks ∧ (keep = true ↔ intake.Admits (kept marks) c) :=
  Throughout.concat

/-! ## The accepted text -/

/-- Nothing more is taken once there is no room. -/
theorem foldl_offer_of_full
    (full : 0 < intake.maxLength ∧ intake.maxLength ≤ taken.length) (rest : List Char) :
    rest.foldl intake.offer taken = taken := by
  have hoffer (c : Char) : intake.offer taken c = taken := by
    rw [offer, if_neg]
    intro hadmits
    have hroom := hadmits.room
    omega
  induction rest with
  | nil => rfl
  | cons c rest ih => rw [List.foldl_cons, hoffer, ih]

/-- A line break is skipped if the text has one line. -/
theorem offer_of_break (line_break : intake.multiLine = false ∧ c = '\n') :
    intake.offer taken c = taken := by
  rw [offer, if_neg]
  intro hadmits
  rcases hadmits.line with hline | hline
  · exact Bool.false_ne_true (line_break.1.symm.trans hline)
  · exact hline line_break.2

/-- Where there is room, the filter decides on all other characters. -/
theorem offer_of_room (room : ¬(0 < intake.maxLength ∧ intake.maxLength ≤ taken.length))
    (no_break : ¬(intake.multiLine = false ∧ c = '\n')) :
    intake.offer taken c =
      if (intake.allowed taken).isEmpty ∨ c ∈ intake.allowed taken then taken ++ [c]
      else taken := by
  refine if_congr ?_ rfl rfl
  rw [List.isEmpty_iff]
  constructor
  · exact fun hadmits => hadmits.allowed
  · intro hallowed
    refine ⟨by omega, ?_, hallowed⟩
    rw [Classical.not_and_iff_not_or_not, Bool.not_eq_false] at no_break
    exact no_break

/-- The characters have their turns one after another. -/
theorem acceptFrom_eq_foldl (intake : Intake) (taken rest : List Char) :
    Id.run (acceptFrom (fun taken => pure (intake.allowed taken)) intake.multiLine intake.maxLength
      taken rest) = rest.foldl intake.offer taken := by
  induction rest generalizing taken with
  | nil => rfl
  | cons c rest ih =>
      rw [acceptFrom, List.foldl_cons]
      split
      next hfull => exact (foldl_offer_of_full hfull (c :: rest)).symm
      next hroom =>
        split
        next hbreak =>
          rw [offer_of_break (by simpa using hbreak)]
          exact ih taken
        next hbreak =>
          rw [offer_of_room hroom (by simpa using hbreak)]
          show Id.run (if (intake.allowed taken).isEmpty ∨ c ∈ intake.allowed taken then _
            else _) = _
          split
          · exact ih (taken ++ [c])
          · exact ih taken

theorem accepted_eq_foldl (intake : Intake) (edited : List Char) :
    intake.accepted edited = edited.foldl intake.offer [] :=
  acceptFrom_eq_foldl intake [] edited

/-- Any text can be marked greedily. -/
theorem exists_greedy (intake : Intake) (edited : List Char) :
    ∃ marks, marks.map (·.1) = edited ∧ intake.Greedy marks := by
  induction edited using List.reverseRecOn with
  | nil => exact ⟨[], rfl, greedy_nil⟩
  | append_singleton edited c ih =>
      obtain ⟨marks, rfl, hgreedy⟩ := ih
      refine ⟨marks ++ [(c, decide (intake.Admits (kept marks) c))], by simp, ?_⟩
      exact greedy_concat.mpr ⟨hgreedy, decide_eq_true_iff⟩

/-- Taking characters in turn keeps what is marked as kept. The induction is on the marks, from the
end. -/
theorem Greedy.accepted (greedy : intake.Greedy marks) :
    intake.accepted (marks.map (·.1)) = kept marks := by
  rw [accepted_eq_foldl]
  induction marks using List.reverseRecOn with
  | nil => rfl
  | append_singleton marks mark ih =>
      obtain ⟨c, keep⟩ := mark
      obtain ⟨hmarks, hkeep⟩ := greedy_concat.mp greedy
      rw [List.map_append, List.foldl_append, ih hmarks, kept_concat]
      exact if_congr hkeep.symm rfl rfl

/-- The accepted text is what is kept of the edited one when every character is kept that may be. -/
theorem accepted_iff : taken = intake.accepted edited ↔
    ∃ marks, marks.map (·.1) = edited ∧ kept marks = taken ∧ intake.Greedy marks := by
  constructor
  · rintro rfl
    obtain ⟨marks, rfl, hgreedy⟩ := intake.exists_greedy edited
    exact ⟨marks, rfl, hgreedy.accepted.symm, hgreedy⟩
  · rintro ⟨marks, rfl, rfl, hgreedy⟩
    exact hgreedy.accepted.symm

theorem accepted_sublist (intake : Intake) (edited : List Char) :
    (intake.accepted edited).Sublist edited := by
  obtain ⟨marks, rfl, hgreedy⟩ := intake.exists_greedy edited
  rw [hgreedy.accepted]
  exact kept_sublist marks

/-! ## Texts that are accepted as they are -/

/-- All that is kept may be taken after what is kept before it. -/
theorem Greedy.throughout (greedy : intake.Greedy marks) :
    Throughout intake.Admits (kept marks) := by
  induction marks using List.reverseRecOn with
  | nil => exact .nil
  | append_singleton marks mark ih =>
      obtain ⟨c, keep⟩ := mark
      obtain ⟨hmarks, hkeep⟩ := greedy_concat.mp greedy
      rw [kept_concat]
      split
      next h => exact Throughout.concat.mpr ⟨ih hmarks, hkeep.mp h⟩
      next => exact ih hmarks

theorem accepted_throughout (intake : Intake) (edited : List Char) :
    Throughout intake.Admits (intake.accepted edited) := by
  obtain ⟨marks, rfl, hgreedy⟩ := intake.exists_greedy edited
  rw [hgreedy.accepted]
  exact hgreedy.throughout

theorem accepted_of_throughout (h : Throughout intake.Admits text) :
    intake.accepted text = text := by
  rw [accepted_eq_foldl]
  induction text using List.reverseRecOn with
  | nil => rfl
  | append_singleton text c ih =>
      obtain ⟨htext, hadmits⟩ := Throughout.concat.mp h
      rw [List.foldl_append, ih htext]
      exact if_pos hadmits

/-- A text is accepted as it is if and only if all its characters may be taken. -/
theorem accepted_eq_self_iff : intake.accepted text = text ↔ Throughout intake.Admits text :=
  ⟨fun h => h ▸ intake.accepted_throughout text, accepted_of_throughout⟩

/-- An accepted text meets the same filters again. -/
theorem accepted_accepted (intake : Intake) (edited : List Char) :
    intake.accepted (intake.accepted edited) = intake.accepted edited :=
  accepted_of_throughout (intake.accepted_throughout edited)

theorem length_le_of_throughout (h : Throughout intake.Admits text)
    (limited : 0 < intake.maxLength) : text.length ≤ intake.maxLength := by
  induction text using List.reverseRecOn with
  | nil => exact Nat.zero_le _
  | append_singleton before c _ =>
      have hroom := (Throughout.concat.mp h).2.room
      rw [List.length_append, List.length_singleton]
      omega

theorem noBreak_of_throughout (h : Throughout intake.Admits text)
    (one_line : intake.multiLine = false) : '\n' ∉ text := by
  intro hmem
  obtain ⟨before, hadmits⟩ := h.of_mem hmem
  rcases hadmits.line with hline | hline
  · exact Bool.false_ne_true (one_line.symm.trans hline)
  · exact hline rfl

/-- The greedy part of an edited text. -/
structure Taken (intake : Intake) (edited taken : List Char) : Prop where
  sublist : taken.Sublist edited
  length_le : 0 < intake.maxLength → taken.length ≤ intake.maxLength
  noBreak : intake.multiLine = false → '\n' ∉ taken
  /-- The filter allowed every character after those before it. -/
  allowed : Throughout intake.Allows taken
  /-- It is the only text that is kept when every character is kept that may be, and no other. -/
  greedy : ∀ text, text = taken ↔
    ∃ marks, marks.map (·.1) = edited ∧ kept marks = text ∧ intake.Greedy marks

theorem accepted_taken (intake : Intake) (edited : List Char) :
    intake.Taken edited (intake.accepted edited) := by
  have hadmits := intake.accepted_throughout edited
  refine ⟨intake.accepted_sublist edited, length_le_of_throughout hadmits,
    noBreak_of_throughout hadmits, ?_, fun text => accepted_iff⟩
  exact fun before c after h => (hadmits before c after h).allowed

end Intake

/-! ## Inputs -/

/-- What decides on the text of an input whose filter answers `f` of the text so far. -/
def Input.intake {κ : Type} (input : Input κ) (f : String → String) : Intake where
  allowed taken := (f (String.ofList taken)).toList
  multiLine := input.multiLine
  maxLength := input.maxLength

namespace Machine

variable {κ ρ α β : Type}

/-- From every state, a run ends and answers `a`, and all that it does to the state is in the
relation. -/
def Gives (R : World κ ρ → World κ ρ → Prop) (a : α) (m : Machine κ ρ α) : Prop :=
  ∀ w, ∃ w', m w = .ok (a, w') ∧ R w w'

namespace Gives

variable {R : World κ ρ → World κ ρ → Prop} [IsPreorder (World κ ρ) R] {a : α} {b : β}

theorem pure (a : α) : Gives R a (pure a : Machine κ ρ α) :=
  fun w => ⟨w, rfl, refl_of R w⟩

theorem bind {m : Machine κ ρ α} {f : α → Machine κ ρ β} (hm : Gives R a m)
    (hf : Gives R b (f a)) : Gives R b (m >>= f) := by
  intro w
  obtain ⟨v, hfirst, hv⟩ := hm w
  obtain ⟨w', hrest, hw'⟩ := hf v
  exact ⟨w', bind_eq_ok.mpr ⟨a, v, hfirst, hrest⟩, trans_of R hv hw'⟩

end Gives

/-- Taking characters in turn comes to the same if the filter is computed by runs. -/
theorem acceptFrom_gives {R : World κ ρ → World κ ρ → Prop} [IsPreorder (World κ ρ) R]
    {intake : Intake} {allowed : List Char → Machine κ ρ (List Char)}
    (h : ∀ taken, Gives R (intake.allowed taken) (allowed taken)) (taken rest : List Char) :
    Gives R (rest.foldl intake.offer taken)
      (acceptFrom allowed intake.multiLine intake.maxLength taken rest) := by
  induction rest generalizing taken with
  | nil => exact .pure taken
  | cons c rest ih =>
      rw [acceptFrom, List.foldl_cons]
      split
      next hfull =>
        rw [← List.foldl_cons, Intake.foldl_offer_of_full hfull]
        exact .pure taken
      next hroom =>
        split
        next hbreak =>
          rw [Intake.offer_of_break (by simpa using hbreak)]
          exact ih taken
        next hbreak =>
          rw [Intake.offer_of_room hroom (by simpa using hbreak)]
          refine .bind (h taken) ?_
          split
          · exact ih (taken ++ [c])
          · exact ih taken

variable [Ordered ρ] {R : World κ ρ → World κ ρ → Prop} [IsPreorder (World κ ρ) R] {app : App κ ρ}
  {r : Reentry κ ρ} {ctx : EventContext} {id : String} {input : Input κ} {f : String → String}

/-- Entering a text sets the input to the part of it that is accepted. -/
theorem enterText_eq
    (answers : ∀ text, Gives R (f text) ((filterAfter app ctx id input text).run r))
    (e : ElementId) (edited : String) (w : World κ ρ) :
    ∃ v, R w v ∧ enterText app r ctx e id input edited w =
      setValue e (.text (String.ofList ((input.intake f).accepted edited.toList))) v := by
  have hallowed (taken : List Char) : Gives R ((input.intake f).allowed taken) (do
      Pure.pure (← (filterAfter app ctx id input (String.ofList taken)).run r).toList) :=
    .bind (answers _) (.pure _)
  obtain ⟨v, hrun, hv⟩ := acceptFrom_gives hallowed [] edited.toList w
  refine ⟨v, hv, ?_⟩
  rw [Intake.accepted_eq_foldl]
  exact congrArg (Except.bind · fun (taken, v) => setValue e (.text (String.ofList taken)) v) hrun

/-- An input whose filter is a function of the text so far takes of an edited text what it takes
greedily, and takes that as it is. -/
theorem enterText_greedy
    (answers : ∀ text, Gives R (f text) ((filterAfter app ctx id input text).run r))
    (e : ElementId) (edited : String) :
    let intake := input.intake f
    let taken := intake.accepted edited.toList
    (∀ w, ∃ v, R w v ∧ enterText app r ctx e id input edited w =
      setValue e (.text (String.ofList taken)) v) ∧
    intake.Taken edited.toList taken ∧
    intake.accepted taken = taken := by
  intro intake taken
  exact ⟨enterText_eq answers e edited, intake.accepted_taken edited.toList,
    intake.accepted_accepted edited.toList⟩

/-- An application with a filter that writes a line whenever it is asked. After two characters it
only accepts an x. -/
def App.picky : App Unit Empty :=
  { App.idle with
    filter := fun _ _ id text =>
      .note id (.done (if text.length < 2 then "aeiou" else "x")) }

/-- A digit is not accepted although the input is one of integers, a line break is skipped, and two
characters count towards the limit when the third one has its turn. -/
theorem enterText_greedy_picky :
    let input : Input Unit := { hint := "", type := .integer, maxLength := 3, filter := some () }
    let f (text : String) : String := if text.length < 2 then "aeiou" else "x"
    let R (w v : World Unit Empty) : Prop := w.elements = v.elements
    let r : Reentry Unit Empty := .ofFuel App.picky 1
    (∀ text, Gives R (f text) ((filterAfter App.picky {} "field" input text).run r)) ∧
      (input.intake f).accepted "1a\nbexix".toList = "aex".toList ∧
      (input.intake f).Taken "1a\nbexix".toList "aex".toList := by
  intro input f R r
  have hpreorder : IsPreorder (World Unit Empty) R :=
    { refl := fun _ => rfl, trans := fun _ _ _ => Eq.trans }
  have hanswers : ∀ text, Gives R (f text) ((filterAfter App.picky {} "field" input text).run r) :=
    fun text w => ⟨w.record (.note "field"), rfl, rfl⟩
  have haccepted : (input.intake f).accepted "1a\nbexix".toList = "aex".toList := by
    decide +kernel
  obtain ⟨-, htaken, -⟩ := enterText_greedy hanswers ⟨0⟩ "1a\nbexix"
  exact ⟨hanswers, haccepted, haccepted ▸ htaken⟩

end Machine

end Trellis
