import Mathlib.Data.List.Chain
import Mathlib.Data.List.TakeWhile
import Trellis.Proofs.Number.Monotone
import Trellis.Text.Wrap

/-!
# Where a paragraph is broken

Breaking a paragraph loses nothing but spaces, and a line ends only where it has to.

* `Text.Measured` — whether a text fits depends on how long it is.
* `Text.flatten_fillFrom`, `Text.fillFrom_fits`, `Text.fillFrom_isChain` — filling lines keeps the
  text, no line is too long, and none ends too early.
* `Text.Placed` — how words are placed in lines; `Text.Placed.kept`, `Text.Placed.forall_mem` and
  `Text.Placed.isChain` say the same of them.
* `Text.Wrapped` — how a paragraph is broken into lines; `Text.wrapParagraph_wrapped`.
-/

namespace Trellis.Text

/-- Whether a text fits depends on how long it is, and a text without characters fits. -/
structure Measured (fits : List Char → Bool) : Prop where
  empty : fits [] = true
  shorter : ∀ text longer : List Char, text.length ≤ longer.length → fits longer = true →
    fits text = true

/-- The text without its spaces. -/
def withoutSpaces (text : List Char) : List Char := text.filter (· ≠ ' ')

/-- The text up to its first space. -/
def firstWord (text : List Char) : List Char := text.takeWhile (· ≠ ' ')

variable {fits : List Char → Bool} {split : Bool} {line word text : List Char}
  {words placed : List (List Char)}

theorem Measured.overfull (h : Measured fits) {longer : List Char}
    (le : text.length ≤ longer.length) (overfull : fits text = false) : fits longer = false := by
  by_contra hfits
  rw [Bool.not_eq_false] at hfits
  rw [h.shorter text longer le hfits] at overfull
  cases overfull

@[simp] theorem withoutSpaces_nil : withoutSpaces [] = [] := rfl

@[simp] theorem withoutSpaces_append (text more : List Char) :
    withoutSpaces (text ++ more) = withoutSpaces text ++ withoutSpaces more :=
  List.filter_append ..

@[simp] theorem withoutSpaces_space (text : List Char) :
    withoutSpaces (' ' :: text) = withoutSpaces text := rfl

theorem firstWord_of_notMem (h : ' ' ∉ word) : firstWord word = word := by
  rw [firstWord, List.takeWhile_eq_self_iff]
  intro c hc
  exact decide_eq_true fun heq => h (heq ▸ hc)

/-- Appending a word does not change the first one. -/
theorem firstWord_append (line word : List Char) :
    firstWord (line ++ ' ' :: word) = firstWord line := by
  induction line with
  | nil => rfl
  | cons c line ih =>
      by_cases hc : c = ' '
      · simp [firstWord, hc]
      · simpa [firstWord, hc] using ih

/-! ## Words -/

theorem pieces_ne_nil (separator : Char) (text : List Char) : pieces separator text ≠ [] := by
  cases text with
  | nil => simp [pieces]
  | cons c rest =>
      rw [pieces]
      split
      · simp
      · split <;> simp

/-- A character that does not separate belongs to the first piece. -/
theorem pieces_cons {separator c : Char} (ne : c ≠ separator) (rest : List Char) :
    ∃ piece more, pieces separator rest = piece :: more ∧
      pieces separator (c :: rest) = (c :: piece) :: more := by
  cases hpieces : pieces separator rest with
  | nil => exact absurd hpieces (pieces_ne_nil separator rest)
  | cons piece more =>
      refine ⟨piece, more, rfl, ?_⟩
      rw [pieces, if_neg ne, hpieces]

/-- The pieces are the text without the separators. -/
theorem flatten_pieces (text : List Char) : (pieces ' ' text).flatten = withoutSpaces text := by
  induction text with
  | nil => rfl
  | cons c rest ih =>
      by_cases hc : c = ' '
      · subst hc
        rw [pieces, if_pos rfl, List.flatten_cons, List.nil_append, ih, withoutSpaces_space]
      · obtain ⟨piece, more, hrest, hpieces⟩ := pieces_cons hc rest
        have hkept : withoutSpaces (c :: rest) = c :: withoutSpaces rest := by
          simp [withoutSpaces, hc]
        rw [hpieces, hkept, ← ih, hrest]
        rfl

/-- No piece contains the separator. -/
theorem notMem_of_mem_pieces {separator : Char} (h : word ∈ pieces separator text) :
    separator ∉ word := by
  induction text generalizing word with
  | nil =>
      rw [List.mem_singleton.mp h]
      exact List.not_mem_nil
  | cons c rest ih =>
      by_cases hc : c = separator
      · rw [pieces, if_pos hc] at h
        rcases List.mem_cons.mp h with rfl | h
        · exact List.not_mem_nil
        · exact ih h
      · obtain ⟨piece, more, hrest, hpieces⟩ := pieces_cons hc rest
        rw [hrest] at ih
        rw [hpieces] at h
        rcases List.mem_cons.mp h with rfl | h
        · intro hmem
          rcases List.mem_cons.mp hmem with rfl | hmem
          · exact hc rfl
          · exact ih List.mem_cons_self hmem
        · exact ih (List.mem_cons_of_mem piece h)

/-! ## Filling lines -/

/-- Lines under way are continued, so the first line starts with the one under way. -/
theorem fillFrom_head (fits : List Char → Bool) (line text : List Char) :
    ∃ more rest, fillFrom fits line text = (line ++ more) :: rest := by
  induction text generalizing line with
  | nil => exact ⟨[], [], by rw [fillFrom, List.append_nil]⟩
  | cons c text ih =>
      rw [fillFrom]
      split
      · obtain ⟨more, rest, hfill⟩ := ih (line ++ [c])
        exact ⟨c :: more, rest, by rw [hfill, List.append_assoc, List.singleton_append]⟩
      · exact ⟨[], fillFrom fits [c] text, by rw [List.append_nil]⟩

/-- Filling lines keeps the text. -/
theorem flatten_fillFrom (fits : List Char → Bool) (line text : List Char) :
    (fillFrom fits line text).flatten = line ++ text := by
  induction text generalizing line with
  | nil => simp [fillFrom]
  | cons c text ih =>
      rw [fillFrom]
      split
      · rw [ih, List.append_assoc, List.singleton_append]
      · rw [List.flatten_cons, ih, List.singleton_append]

/-- Every line fits, or takes the one character that every line takes. -/
theorem fillFrom_fits (h : fits line = true ∨ line.length = 1) :
    ∀ filled ∈ fillFrom fits line text, fits filled = true ∨ filled.length = 1 := by
  induction text generalizing line with
  | nil =>
      intro filled hfilled
      rwa [List.mem_singleton.mp hfilled]
  | cons c text ih =>
      rw [fillFrom]
      split
      next hlonger =>
        apply ih
        rw [Bool.or_eq_true, List.isEmpty_iff] at hlonger
        rcases hlonger with rfl | hfits
        · exact .inr rfl
        · exact .inl hfits
      next =>
        have hnext := ih (.inr (List.length_singleton (a := c)))
        exact List.forall_mem_cons.mpr ⟨h, hnext⟩

/-- The line does not have room for the first character of the next one. -/
def NoRoomForChar (fits : List Char → Bool) (line next : List Char) : Prop :=
  ∃ c rest, next = c :: rest ∧ fits (line ++ [c]) = false

/-- A line ends where the next character does not fit. -/
theorem fillFrom_isChain (fits : List Char → Bool) (line text : List Char) :
    (fillFrom fits line text).IsChain (NoRoomForChar fits) := by
  induction text generalizing line with
  | nil => exact .singleton line
  | cons c text ih =>
      rw [fillFrom]
      split
      next => exact ih (line ++ [c])
      next hlonger =>
        obtain ⟨more, rest, hfill⟩ := fillFrom_head fits [c] text
        have hnext := ih [c]
        rw [hfill] at hnext ⊢
        rw [Bool.or_eq_true, not_or, Bool.not_eq_true, Bool.not_eq_true] at hlonger
        exact .cons_cons ⟨c, more, rfl, hlonger.2⟩ hnext

/-- A word that starts a line, in the lines that it is broken into. -/
def brokenWord (fits : List Char → Bool) (split : Bool) (word : List Char) : List (List Char) :=
  if fits word || !split then [word] else fillLines fits word

theorem flatten_brokenWord (fits : List Char → Bool) (split : Bool) (word : List Char) :
    (brokenWord fits split word).flatten = word := by
  rw [brokenWord]
  split
  · exact List.append_nil word
  · exact flatten_fillFrom fits [] word

theorem exists_brokenWord (fits : List Char → Bool) (split : Bool) (word : List Char) :
    ∃ lines last, brokenWord fits split word = lines ++ [last] := by
  have hne : brokenWord fits split word ≠ [] := by
    rw [brokenWord]
    split
    · exact List.cons_ne_nil word []
    · obtain ⟨more, rest, hfill⟩ := fillFrom_head fits [] word
      rw [fillLines, hfill]
      exact List.cons_ne_nil _ rest
  exact ⟨_, _, (List.dropLast_append_getLast hne).symm⟩

/-! ## Placing words -/

/-- A word starts a line: all lines of it but the last are finished. -/
theorem placeWords_start (fits : List Char → Bool) (split : Bool) (word : List Char)
    (words : List (List Char)) :
    ∃ lines last, brokenWord fits split word = lines ++ [last] ∧
      placeWords fits split [] (word :: words) = lines ++ placeWords fits split last words := by
  by_cases hwhole : (fits word || !split) = true
  · refine ⟨[], word, by rw [brokenWord, if_pos hwhole, List.nil_append], ?_⟩
    simp [placeWords, hwhole]
  · obtain ⟨lines, last, hbroken⟩ := exists_brokenWord fits split word
    refine ⟨lines, last, hbroken, ?_⟩
    rw [brokenWord, if_neg hwhole] at hbroken
    simp only [Bool.or_eq_true, Bool.not_eq_true', not_or, Bool.not_eq_true,
      Bool.not_eq_false] at hwhole
    simp [placeWords, hwhole.1, hwhole.2, hbroken]

/-- A word is appended to the line under way if it fits there, and starts a line otherwise. -/
theorem placeWords_cons (ne : line ≠ []) :
    placeWords fits split line (word :: words) =
      if fits (line ++ ' ' :: word) then placeWords fits split (line ++ ' ' :: word) words
      else line :: placeWords fits split [] (word :: words) := by
  have hline : line.isEmpty = false := by simpa using ne
  rw [placeWords, placeWords]
  simp only [hline, List.isEmpty_nil]
  by_cases hfits : fits (line ++ ' ' :: word) = true
  · simp [hfits]
  · by_cases hword : fits word = true <;> cases split <;> simp [hfits, hword]

/-- These are the lines that the words are placed in, the first one being the line under way. -/
inductive Placed (fits : List Char → Bool) (split : Bool) :
    List Char → List (List Char) → List (List Char) → Prop
  | nil (line : List Char) : Placed fits split line [] [line]
  | start {word last : List Char} {words lines placed : List (List Char)}
      (broken : brokenWord fits split word = lines ++ [last])
      (rest : Placed fits split last words placed) :
      Placed fits split [] (word :: words) (lines ++ placed)
  | extend {line word : List Char} {words placed : List (List Char)} (ne : line ≠ [])
      (room : fits (line ++ ' ' :: word) = true)
      (rest : Placed fits split (line ++ ' ' :: word) words placed) :
      Placed fits split line (word :: words) placed
  | finish {line word : List Char} {words placed : List (List Char)} (ne : line ≠ [])
      (full : fits (line ++ ' ' :: word) = false)
      (rest : Placed fits split [] (word :: words) placed) :
      Placed fits split line (word :: words) (line :: placed)

theorem placeWords_placed (fits : List Char → Bool) (split : Bool) (line : List Char)
    (words : List (List Char)) :
    Placed fits split line words (placeWords fits split line words) := by
  induction words generalizing line with
  | nil => exact .nil line
  | cons word words ih =>
      have hstart : Placed fits split [] (word :: words)
          (placeWords fits split [] (word :: words)) := by
        obtain ⟨lines, last, hbroken, hplace⟩ := placeWords_start fits split word words
        rw [hplace]
        exact .start hbroken (ih last)
      by_cases hline : line = []
      · rwa [hline]
      · rw [placeWords_cons hline]
        split
        next hroom => exact .extend hline hroom (ih _)
        next hfull => exact .finish hline (Bool.not_eq_true _ ▸ hfull) hstart

/-- Placing words keeps all but spaces. -/
theorem Placed.kept (h : Placed fits split line words placed) :
    withoutSpaces placed.flatten = withoutSpaces line ++ withoutSpaces words.flatten := by
  induction h with
  | nil line => simp
  | @start word last words lines placed broken rest ih =>
      have hword := flatten_brokenWord fits split word
      rw [broken] at hword
      rw [List.flatten_cons, ← hword]
      simp [ih]
  | extend ne room rest ih => simp [ih]
  | finish ne full rest ih => simp [ih]

/-- What holds of texts that fit, the empty one among them, and of all that words are broken into,
holds of all lines. -/
theorem Placed.forall_mem (h : Placed fits split line words placed) {P : List Char → Prop}
    (of_fits : ∀ text, fits text = true → P text) (empty : P [])
    (of_word : ∀ word ∈ words, ∀ line ∈ brokenWord fits split word, P line) (under_way : P line) :
    ∀ line ∈ placed, P line := by
  induction h with
  | nil line => simpa using under_way
  | start broken rest ih =>
      obtain ⟨hword, hwords⟩ := List.forall_mem_cons.mp of_word
      rw [broken, List.forall_mem_append] at hword
      rw [List.forall_mem_append]
      exact ⟨hword.1, ih hwords (hword.2 _ (List.mem_singleton_self _))⟩
  | extend ne room rest ih => exact ih (List.forall_mem_cons.mp of_word).2 (of_fits _ room)
  | finish ne full rest ih => exact List.forall_mem_cons.mpr ⟨under_way, ih of_word empty⟩

/-! ## Full lines -/

/-- The line does not have room for the first word of the next one. -/
def NoRoomForWord (fits : List Char → Bool) (line next : List Char) : Prop :=
  fits (line ++ ' ' :: firstWord next) = false

/-- A line that has no room for a character has none for a space and a word. -/
theorem NoRoomForChar.forWord (measured : Measured fits) {next : List Char}
    (full : NoRoomForChar fits line next) : NoRoomForWord fits line next := by
  obtain ⟨c, rest, rfl, hfull⟩ := full
  refine measured.overfull ?_ hfull
  simp

/-- If a line has no room for the line under way, it has none for the first line placed. -/
theorem Placed.noRoom (h : Placed fits split line words placed) (measured : Measured fits)
    {before : List Char} (full : NoRoomForWord fits before line) :
    ∀ first ∈ placed.head?, NoRoomForWord fits before first := by
  induction h with
  | nil line => simpa using full
  | start broken rest ih =>
      -- There is no room for a space, and so for no word either.
      intro first _
      refine measured.overfull ?_ full
      simp [firstWord]
  | extend ne room rest ih =>
      apply ih
      rw [NoRoomForWord, firstWord_append]
      exact full
  | finish ne full' rest ih => simpa using full

/-- A word is split where the next character does not fit. -/
theorem brokenWord_isChain (fits : List Char → Bool) (split : Bool) (word : List Char) :
    (brokenWord fits split word).IsChain (NoRoomForChar fits) := by
  rw [brokenWord]
  split
  · exact .singleton word
  · exact fillFrom_isChain fits [] word

/-- A line that has no room for a word has none for the first line that it is broken into. -/
theorem brokenWord_noRoom (measured : Measured fits) (split : Bool) (hword : ' ' ∉ word)
    (ne : line ≠ []) (full : fits (line ++ ' ' :: word) = false) :
    ∀ first ∈ (brokenWord fits split word).head?, NoRoomForWord fits line first := by
  have hflatten := flatten_brokenWord fits split word
  have hchain := brokenWord_isChain fits split word
  rcases hbroken : brokenWord fits split word with _ | ⟨first, _ | ⟨second, more⟩⟩
  · exact nofun
  · -- The word is not split.
    rw [hbroken, List.flatten_singleton] at hflatten
    simpa [NoRoomForWord, hflatten, firstWord_of_notMem hword] using full
  · -- The first part of the word fills a line of its own, and the line here is not empty.
    rw [hbroken] at hchain hflatten
    obtain ⟨c, rest, -, hfull⟩ := (List.isChain_cons_cons.mp hchain).1
    have hfirst : ' ' ∉ first := by
      intro hmem
      apply hword
      rw [← hflatten, List.flatten_cons]
      exact List.mem_append_left _ hmem
    have hlength : 0 < line.length := List.length_pos_iff.mpr ne
    simp only [List.head?_cons, Option.mem_some_iff, forall_eq']
    rw [NoRoomForWord, firstWord_of_notMem hfirst]
    refine measured.overfull ?_ hfull
    simp only [List.length_append, List.length_cons, List.length_nil]
    omega

/-- A line that has no room for a word has none for the first line that starts with it. -/
theorem Placed.noRoom_start (h : Placed fits split [] (word :: words) placed)
    (measured : Measured fits) (hword : ' ' ∉ word) (ne : line ≠ [])
    (full : fits (line ++ ' ' :: word) = false) :
    ∀ first ∈ placed.head?, NoRoomForWord fits line first := by
  cases h with
  | @start _ last _ lines placed broken rest =>
      have hfirst := brokenWord_noRoom measured split hword ne full
      rw [broken] at hfirst
      cases lines with
      | nil => exact rest.noRoom measured (hfirst last rfl)
      | cons first lines => exact hfirst
  | extend ne' => exact absurd rfl ne'
  | finish ne' => exact absurd rfl ne'

/-- A line ends where there is no room for the next word, or for more of a word that is split. -/
theorem Placed.isChain (h : Placed fits split line words placed) (measured : Measured fits)
    (hwords : ∀ word ∈ words, ' ' ∉ word) : placed.IsChain (NoRoomForWord fits) := by
  induction h with
  | nil line => exact .singleton line
  | @start word last words lines placed broken rest ih =>
      have hchain := (brokenWord_isChain fits split word).imp fun _ _ h =>
        NoRoomForChar.forWord measured h
      rw [broken, List.isChain_append] at hchain
      refine List.isChain_append.mpr ⟨hchain.1, ih (List.forall_mem_cons.mp hwords).2, ?_⟩
      intro before hbefore
      exact rest.noRoom measured (hchain.2.2 before hbefore last (by simp))
  | extend ne room rest ih => exact ih (List.forall_mem_cons.mp hwords).2
  | finish ne full rest ih =>
      have hfirst := rest.noRoom_start measured (List.forall_mem_cons.mp hwords).1 ne full
      exact List.isChain_cons.mpr ⟨hfirst, ih hwords⟩

/-! ## Paragraphs -/

/-- A line that the policy does not break: a word of the paragraph, or a character. -/
def Indivisible (policy : WrapPolicy) (paragraph line : List Char) : Prop :=
  match policy with
  | .words => line ∈ pieces ' ' paragraph ∧ ' ' ∉ line
  | .graphemes | .heuristically => line.length = 1

/-- The line does not have room for what the policy would append to it of the next one. -/
def NoRoom (fits : List Char → Bool) (policy : WrapPolicy) : List Char → List Char → Prop :=
  match policy with
  | .graphemes => NoRoomForChar fits
  | .words | .heuristically => NoRoomForWord fits

/-- How a paragraph is broken into lines. -/
structure Wrapped (fits : List Char → Bool) (policy : WrapPolicy) (paragraph : List Char)
    (lines : List (List Char)) : Prop where
  /-- Nothing but spaces is lost, and nothing is moved. -/
  kept : withoutSpaces lines.flatten = withoutSpaces paragraph
  /-- Between characters not even spaces are lost. -/
  whole : policy = .graphemes → lines.flatten = paragraph
  /-- A line is too long only if it can't be broken. -/
  fit : ∀ line ∈ lines, fits line = true ∨ Indivisible policy paragraph line
  /-- A line ends only where it has to. -/
  full : lines.IsChain (NoRoom fits policy)

theorem Measured.fillLines_fits (measured : Measured fits) (text : List Char) :
    ∀ line ∈ fillLines fits text, fits line = true ∨ line.length = 1 :=
  fillFrom_fits (.inl measured.empty)

/-- Every policy breaks a paragraph so if what fits depends on its length. -/
theorem Measured.wrapped (measured : Measured fits) (policy : WrapPolicy) (paragraph : List Char) :
    Wrapped fits policy paragraph (wrapParagraph fits policy paragraph) := by
  have hplaced (split : Bool) := placeWords_placed fits split [] (pieces ' ' paragraph)
  have hkept (split : Bool) : withoutSpaces
      (placeWords fits split [] (pieces ' ' paragraph)).flatten = withoutSpaces paragraph := by
    rw [(hplaced split).kept, flatten_pieces, withoutSpaces_nil, List.nil_append]
    simp [withoutSpaces]
  have hwords : ∀ word ∈ pieces ' ' paragraph, ' ' ∉ word := fun word => notMem_of_mem_pieces
  cases policy with
  | graphemes =>
      have hwhole := flatten_fillFrom fits [] paragraph
      exact ⟨congrArg withoutSpaces hwhole, fun _ => hwhole, measured.fillLines_fits paragraph,
        fillFrom_isChain fits [] paragraph⟩
  | words =>
      refine ⟨hkept false, nofun, ?_, (hplaced false).isChain measured hwords⟩
      refine (hplaced false).forall_mem (fun _ => .inl) (.inl measured.empty) ?_
        (.inl measured.empty)
      intro word hword line hline
      rw [brokenWord, Bool.not_false, Bool.or_true, if_pos rfl, List.mem_singleton] at hline
      rw [hline]
      exact .inr ⟨hword, hwords word hword⟩
  | heuristically =>
      refine ⟨hkept true, nofun, ?_, (hplaced true).isChain measured hwords⟩
      refine (hplaced true).forall_mem (fun _ => .inl) (.inl measured.empty) ?_
        (.inl measured.empty)
      intro word _ line hline
      rw [brokenWord] at hline
      split at hline
      next hfits =>
        rw [List.mem_singleton.mp hline]
        rw [Bool.not_true, Bool.or_false] at hfits
        exact .inl hfits
      next => exact measured.fillLines_fits word line hline

/-- A paragraph of a proper text size is broken so, however wide the lines are. -/
theorem wrapParagraph_wrapped {α : Type} [Number α] [MonotoneProduct α] (metrics : TextMetrics α)
    (size width : α) (advance_proper : Number.Proper metrics.advance)
    (size_proper : Number.Proper size) (width_nonneg : 0 ≤ width) (policy : WrapPolicy)
    (paragraph : List Char) :
    let fits := fun line => decide ((metrics.measure line size).x ≤ width)
    Wrapped fits policy paragraph (wrapParagraph fits policy paragraph) := by
  intro fits
  have hmeasured : Measured fits := by
    refine ⟨?_, ?_⟩
    · rw [decide_eq_true_iff, TextMetrics.measure_nil size_proper advance_proper]
      exact width_nonneg
    · intro text longer hle hfits
      rw [decide_eq_true_iff] at hfits ⊢
      exact MonotoneProduct.le_trans _ _ _
        (TextMetrics.measure_mono size_proper advance_proper hle) hfits
  exact hmeasured.wrapped policy paragraph

/-- In lines of two characters, a word is split, and a space is kept at the end of a line,
also where lengths are rounded. -/
theorem wrapParagraph_wrapped_narrow :
    let fits := fun line =>
      decide (((.standard : TextMetrics Float).measure line 10).x ≤ (12 : Float))
    let lines := wrapParagraph fits .heuristically "ab cde  f".toList
    lines = ["ab".toList, "cd".toList, "e ".toList, "f".toList] ∧
      Wrapped fits .heuristically "ab cde  f".toList lines := by
  intro fits lines
  have hadvance : Number.Proper (.standard : TextMetrics Float).advance := by
    constructor <;> decide +kernel
  have hsize : Number.Proper (10 : Float) := by
    constructor <;> decide +kernel
  refine ⟨by decide +kernel, ?_⟩
  exact wrapParagraph_wrapped .standard 10 12 hadvance hsize (by decide +kernel) _ _

end Trellis.Text
