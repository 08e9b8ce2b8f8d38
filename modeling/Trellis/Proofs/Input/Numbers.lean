import Trellis.Proofs.Input.Language
import Trellis.Proofs.Text.Spelled

/-!
# Numbers that inputs hold

An input of numbers takes signs, digits and points one at a time, so it may also hold what is no
number: nothing, a sign, a point, or both. A single digit is all that it takes to make it one.

* `Text.Integer.value` — the integer that a text is, if its digits are one.
* `InputType.read_numeric_iff`, `InputType.read_integer_iff` — which texts of the languages are
  numbers.
* `Machine.enterText_numbers` — what an input of numbers is set to can be read as a number if it has
  a digit, and as an integer of 64 bits if it is one.
-/

namespace Trellis

namespace Text

variable {s w f : List Char} {n : ℤ}

/-- There is a digit among the characters. -/
def HasDigit (s : List Char) : Prop := ∃ c ∈ s, isDigit c = true

/-- Decimal digits in a row are no number only if there are none. -/
theorem digits_of_hasDigit (all : ∀ c ∈ s, isDigit c = true) (h : HasDigit s) : Digits s := by
  obtain ⟨c, hc, -⟩ := h
  exact ⟨List.ne_nil_of_mem hc, all⟩

theorem Digits.hasDigit (h : Digits s) : HasDigit s := by
  obtain ⟨c, rest, rfl, hc, -⟩ := h.head
  exact ⟨c, List.mem_cons_self, hc⟩

namespace Integer

/-- The integer that the digits of a text are in base ten, below zero behind a minus sign. -/
def value (s : List Char) : ℤ :=
  if s.head? = some '-' then -ofDigits 10 s.tail else ofDigits 10 s

theorem Spells.hasDigit (h : Spells s n) : HasDigit s := by
  cases h with
  | plain h => exact h.hasDigit
  | plus h | minus h =>
      obtain ⟨c, hc, hdigit⟩ := h.hasDigit
      exact ⟨c, List.mem_cons_of_mem _ hc, hdigit⟩

theorem value_digits (h : Digits s) : value s = ofDigits 10 s := by
  obtain ⟨c, rest, rfl, -, hminus, -⟩ := h.head
  refine if_neg fun h => hminus ?_
  simpa using h

/-- Without a plus sign, a text spells no other integer than its value. -/
theorem Spells.eq_value (h : Spells s n) (hplus : '+' ∉ s) : n = value s := by
  cases h with
  | plain h => exact (value_digits h).symm
  | plus h => exact absurd List.mem_cons_self hplus
  | minus h => rfl

theorem fits_iff_pow : fits n = true ↔ -2 ^ 63 ≤ n ∧ n ≤ 2 ^ 63 - 1 := by
  rw [fits_iff]
  norm_num [least, greatest]

end Integer

end Text

namespace InputType

open Text

variable {multiLine : Bool} {text head body whole rest : List Char} {n : ℤ}

theorem isDigit_of_mem_digits (h : body ∈ digits.matches') : ∀ c ∈ body, isDigit c = true := by
  intro c hc
  have hall : "0123456789".toList.all isDigit = true := by decide
  exact List.all_eq_true.mp hall c (mem_digits.mp h c hc)

/-- A sign is no digit. -/
theorem hasDigit_sign_append (hhead : head ∈ sign.matches') :
    HasDigit (head ++ body) ↔ HasDigit body := by
  rcases mem_sign.mp hhead with rfl | rfl
  · exact Iff.rfl
  · simp [HasDigit, (by decide : isDigit '-' = false)]

/-! ## Integers -/

theorem mem_language_integer : text ∈ integer.language multiLine ↔
    ∃ head ∈ sign.matches', ∃ body ∈ digits.matches', head ++ body = text := by
  show text ∈ (sign * digits).matches' ↔ _
  rw [RegularExpression.matches'_mul, Language.mem_mul]

/-- A sign and digits spell their value if there is a digit. -/
theorem spells_integer (h : text ∈ integer.language multiLine) (digit : HasDigit text) :
    Integer.Spells text (Integer.value text) := by
  obtain ⟨head, hhead, body, hbody, rfl⟩ := mem_language_integer.mp h
  have hdigits : Digits body :=
    digits_of_hasDigit (isDigit_of_mem_digits hbody) ((hasDigit_sign_append hhead).mp digit)
  rcases mem_sign.mp hhead with rfl | rfl
  · rw [List.nil_append, Integer.value_digits hdigits]
    exact .plain hdigits
  · exact .minus hdigits

theorem plus_notMem_integer (h : text ∈ integer.language multiLine) : '+' ∉ text := by
  obtain ⟨head, hhead, body, hbody, rfl⟩ := mem_language_integer.mp h
  rw [List.mem_append]
  rintro (hmem | hmem)
  · rcases mem_sign.mp hhead with rfl | rfl
    · cases hmem
    · exact absurd hmem (by decide)
  · exact absurd (isDigit_of_mem_digits hbody _ hmem) (by decide)

/-- A text of an integer input is read if it has a digit and its value has no more than 64 bits. -/
theorem read_integer_iff (h : text ∈ integer.language multiLine) :
    Integer.read text = .ok n ↔
      HasDigit text ∧ n = Integer.value text ∧ -2 ^ 63 ≤ n ∧ n ≤ 2 ^ 63 - 1 := by
  rw [Integer.read_eq_ok, Integer.fits_iff_pow]
  constructor
  · rintro ⟨hspells, hfits⟩
    exact ⟨hspells.hasDigit, hspells.eq_value (plus_notMem_integer h), hfits⟩
  · rintro ⟨digit, rfl, hfits⟩
    exact ⟨spells_integer h digit, hfits⟩

/-! ## Decimal fractions -/

theorem mem_language_numeric : text ∈ numeric.language multiLine ↔
    ∃ head ∈ sign.matches', ∃ whole ∈ digits.matches', ∃ rest ∈ fraction.matches',
      head ++ (whole ++ rest) = text := by
  show text ∈ (sign * digits * fraction).matches' ↔ _
  rw [RegularExpression.matches'_mul, Language.mem_mul, RegularExpression.matches'_mul]
  simp only [Language.mem_mul]
  constructor
  · rintro ⟨_, ⟨head, hhead, whole, hwhole, rfl⟩, rest, hrest, rfl⟩
    exact ⟨head, hhead, whole, hwhole, rest, hrest, (List.append_assoc ..).symm⟩
  · rintro ⟨head, hhead, whole, hwhole, rest, hrest, rfl⟩
    exact ⟨_, ⟨head, hhead, whole, hwhole, rfl⟩, rest, hrest, List.append_assoc ..⟩

/-- The point may stand before the digits, among them and after them. -/
theorem exists_decimal (hwhole : whole ∈ digits.matches') (hrest : rest ∈ fraction.matches')
    (digit : HasDigit (whole ++ rest)) : ∃ m e, Real.Decimal (whole ++ rest) m e := by
  have hall := isDigit_of_mem_digits hwhole
  rcases mem_fraction.mp hrest with rfl | ⟨part, hpart, rfl⟩
  · rw [List.append_nil] at digit
    exact ⟨_, _, .whole (digits_of_hasDigit hall digit) .none⟩
  · have hpoint : HasDigit (whole ++ part) := by
      obtain ⟨c, hc, hdigit⟩ := digit
      rw [List.mem_append, List.mem_cons] at hc
      rcases hc with hc | rfl | hc
      · exact ⟨c, List.mem_append_left _ hc, hdigit⟩
      · exact absurd hdigit (by decide)
      · exact ⟨c, List.mem_append_right _ hc, hdigit⟩
    have hdigits : Digits (whole ++ part) :=
      digits_of_hasDigit (List.forall_mem_append.mpr ⟨hall, isDigit_of_mem_digits hpart⟩) hpoint
    have hdecimal := Real.Decimal.point hdigits .none
    rw [List.append_nil] at hdecimal
    exact ⟨_, _, hdecimal⟩

/-- Without a digit, a text of a numeric input is a sign, a point, both or neither. -/
theorem eq_of_not_hasDigit (h : text ∈ numeric.language multiLine) (none : ¬HasDigit text) :
    text ∈ [[], ['-'], ['.'], ['-', '.']] := by
  obtain ⟨head, hhead, whole, hwhole, rest, hrest, rfl⟩ := mem_language_numeric.mp h
  have hempty {part : List Char} (hpart : part ∈ digits.matches')
      (hsub : part ⊆ head ++ (whole ++ rest)) : part = [] := by
    refine List.eq_nil_iff_forall_not_mem.mpr fun c hc => none ⟨c, hsub hc, ?_⟩
    exact isDigit_of_mem_digits hpart c hc
  have hnowhole : whole = [] := hempty hwhole fun c hc => by simp [hc]
  have hpoint : rest = [] ∨ rest = ['.'] := by
    refine (mem_fraction.mp hrest).imp_right ?_
    rintro ⟨part, hpart, rfl⟩
    rw [hempty hpart fun c hc => by simp [hc]]
  rw [hnowhole]
  rcases mem_sign.mp hhead with rfl | rfl <;> rcases hpoint with rfl | rfl <;> decide

/-- A text of a numeric input is read as a number if it has a digit. -/
theorem read_numeric_iff (h : text ∈ numeric.language multiLine) :
    (∃ x, Real.read text = .ok x) ↔ HasDigit text := by
  constructor
  · rintro ⟨x, hread⟩
    by_contra hnone
    have hbad : ∀ text ∈ [[], ['-'], ['.'], ['-', '.']], (Real.read text).toOption = none := by
      decide +kernel
    have hnot := hbad text (eq_of_not_hasDigit h hnone)
    rw [hread] at hnot
    cases hnot
  · intro digit
    have hne : text.isEmpty = false := by
      obtain ⟨c, hc, -⟩ := digit
      exact List.isEmpty_eq_false_iff_exists_mem.mpr ⟨c, hc⟩
    obtain ⟨head, hhead, whole, hwhole, rest, hrest, rfl⟩ := mem_language_numeric.mp h
    obtain ⟨m, e, hdecimal⟩ :=
      exists_decimal hwhole hrest ((hasDigit_sign_append hhead).mp digit)
    have hspells : ∃ v, Real.Spells (head ++ (whole ++ rest)) v := by
      rcases mem_sign.mp hhead with rfl | rfl
      · exact ⟨_, .plain (.decimal hdecimal)⟩
      · exact ⟨_, .minus (.decimal hdecimal)⟩
    obtain ⟨v, hv⟩ := hspells
    obtain ⟨x, hread, -⟩ := Real.read?_rounded hv
    refine ⟨x, ?_⟩
    rw [Real.read, hne, hread]
    rfl

end InputType

namespace Machine

open Text

variable {κ ρ : Type} [Ordered ρ] {app : App κ ρ} {r : Reentry κ ρ} {ctx : EventContext}
  {id : String} {input : Input κ}

/-- Entering a text into an input without a filter of its own sets it to what its type accepts. If
this is a numeric type, that text is read as a number if and only if it has a digit. If it is one of
integers, it is read as an integer if and only if it has a digit and its value has no more than 64
bits, and then it is read as that value. -/
theorem enterText_numbers (own : input.filter = none) (e : ElementId) (edited : String) :
    let text := input.type.accept input.multiLine input.maxLength edited.toList
    enterText app r ctx e id input edited = setValue e (.text (String.ofList text)) ∧
    (input.type = .numeric → ((∃ x, Real.read text = .ok x) ↔ ∃ c ∈ text, isDigit c = true)) ∧
    (input.type = .integer →
      ((∃ n, Integer.read text = .ok n) ↔ (∃ c ∈ text, isDigit c = true) ∧
        -2 ^ 63 ≤ Integer.value text ∧ Integer.value text ≤ 2 ^ 63 - 1) ∧
      ∀ n, Integer.read text = .ok n → n = Integer.value text) := by
  intro text
  have hmem : text ∈ input.type.language input.multiLine :=
    InputType.accept_mem_language input.maxLength edited.toList
  refine ⟨enterText_eq_accept own e edited, fun numeric => ?_, fun integer => ?_⟩
  · rw [numeric] at hmem
    exact InputType.read_numeric_iff hmem
  · rw [integer] at hmem
    refine ⟨⟨?_, ?_⟩, fun n hread => ((InputType.read_integer_iff hmem).mp hread).2.1⟩
    · rintro ⟨n, hread⟩
      obtain ⟨digit, rfl, hfits⟩ := (InputType.read_integer_iff hmem).mp hread
      exact ⟨digit, hfits⟩
    · rintro ⟨digit, hfits⟩
      exact ⟨_, (InputType.read_integer_iff hmem).mpr ⟨digit, rfl, hfits⟩⟩

/-- An input of at most three characters takes a minus sign and two digits of a date. Read as an
integer, they are below zero. -/
theorem enterText_numbers_date :
    let input : Input Unit := { hint := "", type := .integer, maxLength := 3 }
    input.filter = none ∧
      (enterText App.idle (.ofFuel App.idle 1) {} ⟨0⟩ "field" input "-0-7-2026" :
        Machine Unit Empty Unit) = setValue ⟨0⟩ (.text "-07") ∧
      Integer.read "-07".toList = .ok (-7) := by
  intro input
  obtain ⟨henter, -, hinteger⟩ := @enterText_numbers Unit Empty _ .idle (.ofFuel .idle 1) {}
    "field" input rfl ⟨0⟩ "-0-7-2026"
  have haccept : input.type.accept input.multiLine input.maxLength "-0-7-2026".toList =
      "-07".toList := by
    decide +kernel
  rw [haccept] at henter hinteger
  obtain ⟨hread, hvalue⟩ := hinteger rfl
  have hdigit : ∃ c ∈ "-07".toList, isDigit c = true := ⟨'0', by decide +kernel, by decide⟩
  have hseven : Integer.value "-07".toList = -7 := by decide +kernel
  rw [hseven] at hread hvalue
  obtain ⟨n, hn⟩ := hread.mpr ⟨hdigit, by norm_num, by norm_num⟩
  exact ⟨rfl, henter, hvalue n hn ▸ hn⟩

end Machine

end Trellis
