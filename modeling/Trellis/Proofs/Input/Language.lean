import Mathlib.Computability.RegularExpressions
import Mathlib.Data.List.Nodup
import Trellis.Proofs.Input.Accepted

/-!
# The languages of input types

What an input of some type accepts next is computed from what it has accepted. All the same, the
texts that it can come to hold are a simple language, and it is exactly those that it accepts as
they are.

* `InputType.language` — the texts that an input of the type can come to hold.
* `InputType.mem_filterAfter` — the characters that are accepted after a text.
* `InputType.Spelled` — the characters of a type, each where it may stand;
  `InputType.throughout_iff_spelled` — characters that are accepted in turn spell such a text.
* `InputType.accept_mem_language` — what is accepted is one of these texts.
* `InputType.accept_eq_self_iff` — the texts that are accepted as they are.
* `Machine.enterText_language` — what inputs take that have no filter of their own and no limit.
-/

namespace Trellis

namespace InputType

/-! ## Languages -/

/-- One of the characters. -/
def oneOf (chars : List Char) : RegularExpression Char := (chars.map .char).sum

/-- A minus sign, or nothing. -/
def sign : RegularExpression Char := 1 + .char '-'

/-- Any number of digits. -/
def digits : RegularExpression Char := (oneOf "0123456789".toList).star

/-- A decimal point with any number of digits, or nothing. -/
def fraction : RegularExpression Char := 1 + .char '.' * digits

/-- The texts that an input of the type can come to hold. -/
def language (multiLine : Bool) : InputType → Language Char
  | .integer => (sign * digits).matches'
  | .numeric => (sign * digits * fraction).matches'
  | .telephone => {text | (∀ c ∈ text, c ∈ telephone.filter) ∧ '+' ∉ text.tail ∧
      text.count '(' ≤ 1 ∧ text.count ')' ≤ 1}
  | .email => {text | (∀ c ∈ text, c ∈ email.filter) ∧ text.count '@' ≤ 1}
  | .url => {text | (∀ c ∈ text, c ∈ url.filter) ∧ text.count '?' ≤ 1}
  | .any | .text | .password => {text | multiLine = true ∨ '\n' ∉ text}

variable {type : InputType} {multiLine : Bool} {taken text : List Char} {c : Char}

theorem mem_oneOf {chars : List Char} :
    text ∈ (oneOf chars).matches' ↔ ∃ c ∈ chars, text = [c] := by
  induction chars with
  | nil => simp [oneOf, Language.notMem_zero]
  | cons d chars ih =>
      have hsum : oneOf (d :: chars) = .char d + oneOf chars := List.sum_cons
      rw [hsum, RegularExpression.matches'_add, Language.mem_add, ih,
        RegularExpression.matches'_char]
      simp only [List.mem_cons, exists_eq_or_imp]
      exact Iff.rfl

/-- Repeated, one of the characters makes up a text of them. -/
theorem mem_star_oneOf {chars : List Char} :
    text ∈ (oneOf chars).star.matches' ↔ ∀ c ∈ text, c ∈ chars := by
  rw [RegularExpression.matches'_star, Language.mem_kstar]
  constructor
  · rintro ⟨words, rfl, hwords⟩ c hc
    obtain ⟨word, hword, hc⟩ := List.mem_flatten.mp hc
    obtain ⟨d, hd, rfl⟩ := mem_oneOf.mp (hwords word hword)
    rwa [List.mem_singleton.mp hc]
  · intro h
    refine ⟨text.map fun c => [c], (List.flatMap_singleton' text).symm, ?_⟩
    refine List.forall_mem_map.mpr fun c hc => ?_
    exact mem_oneOf.mpr ⟨c, h c hc, rfl⟩

theorem mem_sign : text ∈ sign.matches' ↔ text = [] ∨ text = ['-'] := by
  rw [sign, RegularExpression.matches'_add, Language.mem_add, RegularExpression.matches'_epsilon,
    Language.mem_one, RegularExpression.matches'_char]
  exact Iff.rfl

/-! ## The filter after a text -/

theorem nodup_filter (type : InputType) : type.filter.Nodup := by
  cases type <;> decide +kernel

/-- A type that has a filter accepts zeros everywhere. -/
theorem zero_mem_filter (limited : type.filter ≠ []) :
    '0' ∈ type.filter ∧ '0' ∉ type.leading ∧ '0' ∉ type.single := by
  cases type <;> first | exact absurd rfl limited | decide +kernel

theorem break_notMem_filter (type : InputType) : '\n' ∉ type.filter := by
  cases type <;> decide +kernel

/-- A character of the type is accepted unless it may stand only at the start and this is not the
start, or only once and has been used. -/
theorem mem_filterAfter : c ∈ type.filterAfter taken ↔
    c ∈ type.filter ∧ (c ∈ type.leading → taken = []) ∧ (c ∈ type.single → c ∉ taken) := by
  rw [filterAfter]
  split
  next hempty =>
    rw [List.isEmpty_iff] at hempty
    simp [hempty]
  next hne =>
    rw [List.isEmpty_iff] at hne
    rw [← List.diff_eq_foldl, (nodup_filter type).mem_sdiff_iff, List.mem_append, List.mem_filter,
      List.contains_iff_mem]
    tauto

/-- The filter never runs out of characters, which would let all others in. -/
theorem filterAfter_eq_nil_iff : type.filterAfter taken = [] ↔ type.filter = [] := by
  constructor
  · intro h
    by_contra hlimited
    obtain ⟨hzero, hleading, hsingle⟩ := zero_mem_filter hlimited
    have hmem : '0' ∈ type.filterAfter taken :=
      mem_filterAfter.mpr ⟨hzero, fun h => absurd h hleading, fun h => absurd h hsingle⟩
    rw [h] at hmem
    cases hmem
  · intro h
    refine List.eq_nil_iff_forall_not_mem.mpr fun c hc => ?_
    have hmem := (mem_filterAfter.mp hc).1
    rw [h] at hmem
    cases hmem

/-! ## Spelling -/

/-- What decides on the text of an input that has no filter of its own and no limit. -/
def intake (type : InputType) (multiLine : Bool) : Intake where
  allowed := type.filterAfter
  multiLine := multiLine
  maxLength := 0

theorem admits_iff : (type.intake multiLine).Admits taken c ↔
    (multiLine = true ∨ c ≠ '\n') ∧ (type.filter = [] ∨ c ∈ type.filterAfter taken) := by
  have hallows : (type.intake multiLine).Allows taken c ↔
      type.filter = [] ∨ c ∈ type.filterAfter taken := or_congr_left filterAfter_eq_nil_iff
  rw [← hallows]
  exact ⟨fun h => ⟨h.line, h.allowed⟩, fun ⟨line, allowed⟩ => ⟨.inl rfl, line, allowed⟩⟩

/-- The text consists of the characters of the type, each where it may stand and no more often than
it may. -/
structure Spelled (type : InputType) (text : List Char) : Prop where
  chars : ∀ c ∈ text, c ∈ type.filter
  leading : ∀ c ∈ type.leading, c ∉ text.tail
  single : ∀ c ∈ type.single, text.count c ≤ 1

theorem mem_tail_concat {d : Char} :
    d ∈ (text ++ [c]).tail ↔ d ∈ text.tail ∨ d = c ∧ text ≠ [] := by
  cases text <;> simp

theorem count_concat_le {d : Char} :
    (text ++ [c]).count d ≤ 1 ↔ text.count d ≤ 1 ∧ (d = c → d ∉ text) := by
  rw [List.count_append, List.count_singleton, ← List.count_eq_zero]
  by_cases hd : d = c
  · simp only [hd, beq_self_eq_true, if_true, true_implies]
    omega
  · have hc : (c == d) = false := beq_false_of_ne (Ne.symm hd)
    simp [hd, hc]

/-- One more character can be spelled where it is accepted. -/
theorem spelled_concat :
    type.Spelled (text ++ [c]) ↔ type.Spelled text ∧ c ∈ type.filterAfter text := by
  rw [mem_filterAfter]
  constructor
  · intro h
    obtain ⟨hchars, hchar⟩ := List.forall_mem_append.mp h.chars
    refine ⟨⟨hchars, fun d hd => ?_, fun d hd => (count_concat_le.mp (h.single d hd)).1⟩,
      hchar c (List.mem_singleton_self c), fun hc => ?_, fun hc => ?_⟩
    · exact fun hmem => h.leading d hd (mem_tail_concat.mpr (.inl hmem))
    · by_contra hne
      exact h.leading c hc (mem_tail_concat.mpr (.inr ⟨rfl, hne⟩))
    · exact (count_concat_le.mp (h.single c hc)).2 rfl
  · rintro ⟨h, hchar, hleading, hsingle⟩
    refine ⟨List.forall_mem_append.mpr ⟨h.chars, by simpa using hchar⟩, fun d hd => ?_,
      fun d hd => ?_⟩
    · rw [mem_tail_concat]
      rintro (hmem | ⟨rfl, hne⟩)
      · exact h.leading d hd hmem
      · exact hne (hleading hd)
    · refine count_concat_le.mpr ⟨h.single d hd, ?_⟩
      rintro rfl
      exact hsingle hd

/-- Characters that are accepted in turn spell a text of the type. -/
theorem throughout_iff_spelled (limited : type.filter ≠ []) :
    Throughout (type.intake multiLine).Admits text ↔ type.Spelled text := by
  induction text using List.reverseRecOn with
  | nil => exact ⟨fun _ => ⟨nofun, fun _ _ => List.not_mem_nil, fun _ _ => by simp⟩, fun _ => .nil⟩
  | append_singleton text c ih =>
      rw [Throughout.concat, ih, spelled_concat, admits_iff, or_iff_right limited]
      refine and_congr_right fun _ => and_iff_right_of_imp fun hmem => .inr ?_
      rintro rfl
      exact break_notMem_filter type (mem_filterAfter.mp hmem).1

/-! ## Numerals -/

/-- A text in which a minus sign stands only at the start. -/
theorem exists_sign (leading : '-' ∉ text.tail) :
    ∃ head body, text = head ++ body ∧ head ∈ sign.matches' ∧ '-' ∉ body := by
  simp only [mem_sign]
  rcases text with _ | ⟨c, rest⟩
  · exact ⟨[], [], rfl, .inl rfl, List.not_mem_nil⟩
  · by_cases hc : c = '-'
    · exact ⟨['-'], rest, by rw [hc]; rfl, .inr rfl, leading⟩
    · refine ⟨[], c :: rest, rfl, .inl rfl, ?_⟩
      rw [List.mem_cons, not_or]
      exact ⟨fun h => hc h.symm, leading⟩

/-- Behind a sign, no minus sign stands at the start. -/
theorem sign_notMem_tail {head body : List Char} (hhead : head ∈ sign.matches')
    (hbody : '-' ∉ body) : '-' ∉ (head ++ body).tail := by
  rcases mem_sign.mp hhead with rfl | rfl
  · exact fun h => hbody (List.mem_of_mem_tail h)
  · exact hbody

theorem sign_mem_filter {head : List Char} (hhead : head ∈ sign.matches')
    (hsign : '-' ∈ type.filter) : ∀ c ∈ head, c ∈ type.filter := by
  rcases mem_sign.mp hhead with rfl | rfl
  · exact nofun
  · simpa using hsign

theorem mem_digits : text ∈ digits.matches' ↔ ∀ c ∈ text, c ∈ "0123456789".toList :=
  mem_star_oneOf

/-- Digits differ from what may stand with them in numbers. -/
theorem notMem_of_mem_digits (h : text ∈ digits.matches') : '-' ∉ text ∧ '.' ∉ text := by
  constructor
  · exact fun hmem => absurd (mem_digits.mp h _ hmem) (by decide +kernel)
  · exact fun hmem => absurd (mem_digits.mp h _ hmem) (by decide +kernel)

theorem spelled_integer_iff :
    integer.Spelled text ↔ text ∈ (sign * digits).matches' := by
  rw [RegularExpression.matches'_mul, Language.mem_mul]
  constructor
  · intro h
    obtain ⟨head, body, rfl, hhead, hbody⟩ := exists_sign (h.leading '-' (by decide))
    refine ⟨head, hhead, body, mem_digits.mpr fun c hc => ?_, rfl⟩
    have hchar : integer.filter ⊆ '-' :: "0123456789".toList := by decide +kernel
    refine (List.mem_cons.mp (hchar (h.chars c (List.mem_append_right head hc)))).resolve_left ?_
    rintro rfl
    exact hbody hc
  · rintro ⟨head, hhead, body, hbody, rfl⟩
    have hdigit : "0123456789".toList ⊆ integer.filter := by decide +kernel
    refine ⟨List.forall_mem_append.mpr ⟨sign_mem_filter hhead (by decide +kernel),
      fun c hc => hdigit (mem_digits.mp hbody c hc)⟩, fun c hc => ?_, nofun⟩
    rw [List.mem_singleton.mp hc]
    exact sign_notMem_tail hhead (notMem_of_mem_digits hbody).1

theorem mem_fraction : text ∈ fraction.matches' ↔
    text = [] ∨ ∃ part ∈ digits.matches', text = '.' :: part := by
  rw [fraction, RegularExpression.matches'_add, Language.mem_add,
    RegularExpression.matches'_epsilon, Language.mem_one, RegularExpression.matches'_mul,
    Language.mem_mul, RegularExpression.matches'_char]
  refine or_congr_right ⟨?_, ?_⟩
  · rintro ⟨_, rfl, part, hpart, rfl⟩
    exact ⟨part, hpart, rfl⟩
  · rintro ⟨part, hpart, rfl⟩
    exact ⟨['.'], rfl, part, hpart, rfl⟩

/-- A text with at most one point is split there. -/
theorem exists_fraction {body : List Char}
    (chars : ∀ c ∈ body, c ∈ "0123456789".toList ∨ c = '.') (single : body.count '.' ≤ 1) :
    ∃ whole rest, body = whole ++ rest ∧ whole ∈ digits.matches' ∧ rest ∈ fraction.matches' := by
  have hdigits {part : List Char} (hsub : part ⊆ body) (hpoint : '.' ∉ part) :
      part ∈ digits.matches' :=
    mem_digits.mpr fun c hc =>
      (chars c (hsub hc)).resolve_right fun h => hpoint (h ▸ hc)
  by_cases hmem : '.' ∈ body
  · obtain ⟨whole, part, rfl⟩ := List.append_of_mem hmem
    rw [List.count_append, List.count_cons_self] at single
    have hwhole : '.' ∉ whole := List.count_eq_zero.mp (by omega)
    have hpart : '.' ∉ part := List.count_eq_zero.mp (by omega)
    refine ⟨whole, '.' :: part, rfl, hdigits (List.subset_append_left _ _) hwhole, ?_⟩
    refine mem_fraction.mpr (.inr ⟨part, hdigits ?_ hpart, rfl⟩)
    exact fun c hc => List.mem_append_right whole (List.mem_cons_of_mem _ hc)
  · exact ⟨body, [], (List.append_nil body).symm, hdigits (List.Subset.refl body) hmem,
      mem_fraction.mpr (.inl rfl)⟩

theorem fraction_chars {rest : List Char}
    (h : rest ∈ fraction.matches') :
    (∀ c ∈ rest, c ∈ "0123456789".toList ∨ c = '.') ∧ rest.count '.' ≤ 1 := by
  rcases mem_fraction.mp h with rfl | ⟨part, hpart, rfl⟩
  · exact ⟨nofun, by simp⟩
  · have hpoint := List.count_eq_zero.mpr (notMem_of_mem_digits hpart).2
    refine ⟨List.forall_mem_cons.mpr ⟨.inr rfl, fun c hc => .inl (mem_digits.mp hpart c hc)⟩, ?_⟩
    rw [List.count_cons_self, hpoint]

theorem spelled_numeric_iff :
    numeric.Spelled text ↔ text ∈ (sign * digits * fraction).matches' := by
  simp only [RegularExpression.matches'_mul, Language.mem_mul]
  constructor
  · intro h
    obtain ⟨head, body, rfl, hhead, hbody⟩ := exists_sign (h.leading '-' (by decide))
    have hfilter : numeric.filter ⊆ '-' :: '.' :: "0123456789".toList := by decide +kernel
    have hchar : ∀ c ∈ body, c ∈ "0123456789".toList ∨ c = '.' := by
      intro c hc
      have hmem := List.mem_cons.mp (hfilter (h.chars c (List.mem_append_right head hc)))
      exact (List.mem_cons.mp (hmem.resolve_left fun h => hbody (h ▸ hc))).symm
    have hpoint := h.single '.' (by decide)
    rw [List.count_append] at hpoint
    obtain ⟨whole, rest, rfl, hwhole, hrest⟩ := exists_fraction hchar (by omega)
    exact ⟨head ++ whole, ⟨head, hhead, whole, hwhole, rfl⟩, rest, hrest, List.append_assoc ..⟩
  · rintro ⟨_, ⟨head, hhead, whole, hwhole, rfl⟩, rest, hrest, rfl⟩
    rw [List.append_assoc]
    obtain ⟨hchars, hcount⟩ := fraction_chars hrest
    obtain ⟨hminus, hpoint⟩ := notMem_of_mem_digits hwhole
    have hdigit : "0123456789".toList ⊆ numeric.filter := by decide +kernel
    refine ⟨?_, fun c hc => ?_, fun c hc => ?_⟩
    · refine List.forall_mem_append.mpr ⟨sign_mem_filter hhead (by decide +kernel),
        List.forall_mem_append.mpr ⟨fun c hc => hdigit (mem_digits.mp hwhole c hc), ?_⟩⟩
      intro c hc
      rcases hchars c hc with h | rfl
      · exact hdigit h
      · decide +kernel
    · rw [List.mem_singleton.mp hc]
      refine sign_notMem_tail hhead fun hmem => ?_
      rcases List.mem_append.mp hmem with hmem | hmem
      · exact hminus hmem
      · exact absurd (hchars '-' hmem) (by decide +kernel)
    · have hhead : head.count '.' = 0 := by
        rcases mem_sign.mp hhead with rfl | rfl <;> decide
      rw [List.mem_singleton.mp hc, List.count_append, List.count_append, hhead,
        List.count_eq_zero.mpr hpoint]
      omega

/-! ## Accepted texts -/

/-- The spelling of a type that has a filter is its language. -/
theorem spelled_iff (limited : type.filter ≠ []) :
    type.Spelled text ↔ text ∈ type.language multiLine := by
  cases type with
  | integer => exact spelled_integer_iff
  | numeric => exact spelled_numeric_iff
  | telephone =>
      constructor
      · exact fun h => ⟨h.chars, h.leading '+' (by decide), h.single '(' (by decide),
          h.single ')' (by decide)⟩
      · rintro ⟨hchars, hplus, hopen, hclose⟩
        exact ⟨hchars, by simpa [leading] using hplus, by simpa [single] using ⟨hopen, hclose⟩⟩
  | email =>
      constructor
      · exact fun h => ⟨h.chars, h.single '@' (by decide)⟩
      · exact fun ⟨hchars, hat⟩ => ⟨hchars, nofun, by simpa [single] using hat⟩
  | url =>
      constructor
      · exact fun h => ⟨h.chars, h.single '?' (by decide)⟩
      · exact fun ⟨hchars, hquery⟩ => ⟨hchars, nofun, by simpa [single] using hquery⟩
  | any | text | password => exact absurd rfl limited

/-- Without a filter, only line breaks may be refused. -/
theorem throughout_iff_of_unlimited (unlimited : type.filter = []) :
    Throughout (type.intake multiLine).Admits text ↔ multiLine = true ∨ '\n' ∉ text := by
  constructor
  · intro h
    rw [or_iff_not_imp_left, Bool.not_eq_true]
    exact fun one_line => Intake.noBreak_of_throughout h one_line
  · rintro h before c after rfl
    refine admits_iff.mpr ⟨h.imp_right fun hbreak => ?_, .inl unlimited⟩
    rintro rfl
    exact hbreak (List.mem_append_right before List.mem_cons_self)

/-- Characters that are accepted in turn make up a text of the language. -/
theorem throughout_iff :
    Throughout (type.intake multiLine).Admits text ↔ text ∈ type.language multiLine := by
  by_cases hfilter : type.filter = []
  · rw [throughout_iff_of_unlimited hfilter]
    cases type with
    | any | text | password => exact Iff.rfl
    | integer | numeric | telephone | email | url => exact absurd hfilter (by decide +kernel)
  · rw [throughout_iff_spelled hfilter, spelled_iff hfilter]

/-- A text is accepted as it is if and only if it belongs to the language. -/
theorem accept_eq_self_iff :
    type.accept multiLine 0 text = text ↔ text ∈ type.language multiLine := by
  have hself : (type.intake multiLine).accepted text = text ↔
      Throughout (type.intake multiLine).Admits text := Intake.accepted_eq_self_iff
  exact hself.trans throughout_iff

/-- What is accepted of any text belongs to the language, also where its length is limited. -/
theorem accept_mem_language (maxLength : ℕ) (edited : List Char) :
    type.accept multiLine maxLength edited ∈ type.language multiLine := by
  let intake : Intake := { type.intake multiLine with maxLength }
  refine throughout_iff.mp fun before c after h => ?_
  have hadmits := intake.accepted_throughout edited before c after h
  exact ⟨.inl rfl, hadmits.line, hadmits.allowed⟩

/-- What is accepted of any text belongs to the language, and the whole language is accepted. -/
theorem exists_accept_eq_iff :
    (∃ edited, type.accept multiLine 0 edited = text) ↔ text ∈ type.language multiLine := by
  constructor
  · rintro ⟨edited, rfl⟩
    exact accept_mem_language 0 edited
  · exact fun h => ⟨text, accept_eq_self_iff.mpr h⟩

end InputType

namespace Machine

variable {κ ρ : Type} [Ordered ρ] {app : App κ ρ} {r : Reentry κ ρ} {ctx : EventContext}
  {id : String} {input : Input κ}

/-- Entering a text into an input without a filter of its own sets it to what its type accepts. -/
theorem enterText_eq_accept (own : input.filter = none) (e : ElementId) (edited : String) :
    enterText app r ctx e id input edited =
      setValue e (.text (String.ofList
        (input.type.accept input.multiLine input.maxLength edited.toList))) := by
  let f (text : String) : String := String.ofList (input.type.filterAfter text.toList)
  have hpreorder : IsPreorder (World κ ρ) Eq :=
    { refl := fun _ => rfl, trans := fun _ _ _ => Eq.trans }
  have hanswers : ∀ text, Gives Eq (f text) ((filterAfter app ctx id input text).run r) := by
    intro text
    rw [filterAfter, own]
    exact .pure _
  have hallowed : (input.intake f).allowed = input.type.filterAfter := by
    funext taken
    simp [Input.intake, f]
  funext w
  obtain ⟨v, rfl, hrun⟩ := enterText_eq hanswers e edited w
  rw [hrun, Intake.accepted, hallowed]
  rfl

/-- Entering a text into an input without a filter of its own and without a limit sets it to what
its type accepts. The texts that are accepted, and those that are accepted as they are, make up the
language of the type. -/
theorem enterText_language (own : input.filter = none) (unlimited : input.maxLength = 0)
    (e : ElementId) :
    (∀ edited, enterText app r ctx e id input edited =
      setValue e (.text (String.ofList (input.type.accept input.multiLine 0 edited.toList)))) ∧
    (∀ text, (∃ edited, input.type.accept input.multiLine 0 edited = text) ↔
      text ∈ input.type.language input.multiLine) ∧
    ∀ text, input.type.accept input.multiLine 0 text = text ↔
      text ∈ input.type.language input.multiLine := by
  refine ⟨fun edited => ?_, fun text => InputType.exists_accept_eq_iff,
    fun text => InputType.accept_eq_self_iff⟩
  rw [← unlimited]
  exact enterText_eq_accept own e edited

/-- A numeric input makes the number -1.52 of a text with two points, a letter and two signs. A sign
at the end is not part of any number. -/
theorem enterText_language_numeric :
    let input : Input Unit := { hint := "", type := .numeric }
    input.filter = none ∧ input.maxLength = 0 ∧
      (enterText App.idle (.ofFuel App.idle 1) {} ⟨0⟩ "field" input "-1.5.2a-" :
        Machine Unit Empty Unit) = setValue ⟨0⟩ (.text "-1.52") ∧
      "-1.52".toList ∈ InputType.numeric.language false ∧
      "1-".toList ∉ InputType.numeric.language false := by
  intro input
  obtain ⟨henter, hrange, hfixed⟩ := @enterText_language Unit Empty _ .idle (.ofFuel .idle 1) {}
    "field" input rfl rfl ⟨0⟩
  have haccept : InputType.numeric.accept false 0 "-1.5.2a-".toList = "-1.52".toList := by
    decide +kernel
  refine ⟨rfl, rfl, ?_, (hrange _).mp ⟨_, haccept⟩, fun h => ?_⟩
  · rw [henter]
    exact congrArg (fun taken => setValue ⟨0⟩ (.text (String.ofList taken))) haccept
  · exact absurd ((hfixed _).mpr h) (by decide +kernel)

end Machine

end Trellis
