import Trellis.Canvas.Paragraph
import Trellis.Proofs.Text.Breaks

/-!
# Paragraphs that fit

A paragraph that fits stays on one line. Placing words takes a line without characters for one
without words, so it drops the spaces that a paragraph starts with; between characters nothing is
lost.

* `Text.join_pieces` — the pieces of a text, put together again.
* `Text.fitted` — what is left of a paragraph that fits; `Text.fitted_eq_self_iff` — when that is
  all of it.
* `Text.Measured.wrapParagraph` — a paragraph that fits is one line.
* `TextStyle.draw_fitting` — a text that fits and has no spaces to lose is drawn as if it did not
  wrap.
-/

namespace Trellis

namespace Text

variable {fits : List Char → Bool} {split : Bool} {line text paragraph : List Char}

/-! ## Words on one line -/

/-- The pieces of a text, with the separators between them, are the text. -/
theorem join_pieces (separator : Char) (text : List Char) {piece : List Char}
    {more : List (List Char)} (h : pieces separator text = piece :: more) :
    piece ++ more.flatMap (separator :: ·) = text := by
  induction text generalizing piece more with
  | nil =>
      cases h
      rfl
  | cons c rest ih =>
      by_cases hc : c = separator
      · rw [pieces, if_pos hc] at h
        obtain ⟨rfl, rfl⟩ := List.cons.inj h
        -- The rest starts with a piece of its own, behind this separator.
        rcases hrest : pieces separator rest with _ | ⟨next, later⟩
        · exact absurd hrest (pieces_ne_nil separator rest)
        · rw [List.flatMap_cons, List.cons_append, ih hrest, hc]
          rfl
      · obtain ⟨next, later, hrest, hpieces⟩ := pieces_cons hc rest
        rw [hpieces] at h
        obtain ⟨rfl, rfl⟩ := List.cons.inj h
        rw [List.cons_append, ih hrest]

/-- A shorter text fits, too. -/
theorem Measured.of_append (measured : Measured fits) {more : List Char}
    (fitting : fits (line ++ more) = true) : fits line = true := by
  refine measured.shorter line (line ++ more) ?_ fitting
  rw [List.length_append]
  exact Nat.le_add_right _ _

/-- Words that fit on the line under way are appended to it. The induction is on the words. -/
theorem Measured.placeWords_append (measured : Measured fits) {words : List (List Char)}
    (ne : line ≠ []) (fitting : fits (line ++ words.flatMap (' ' :: ·)) = true) :
    placeWords fits split line words = [line ++ words.flatMap (' ' :: ·)] := by
  induction words generalizing line with
  | nil => rw [placeWords, List.flatMap_nil, List.append_nil]
  | cons word words ih =>
      rw [List.flatMap_cons, ← List.append_assoc] at fitting ⊢
      rw [placeWords_cons ne, if_pos (measured.of_append fitting)]
      exact ih (by simp) fitting

/-- The words of a text that fits are one line, but for the spaces before the first one: the words
between those are empty, and a line without characters takes the next word without a space. -/
theorem Measured.placeWords_pieces (measured : Measured fits) (fitting : fits text = true) :
    placeWords fits split [] (pieces ' ' text) = [text.dropWhile (· = ' ')] := by
  induction text with
  | nil => simp [pieces, placeWords, measured.empty]
  | cons c rest ih =>
      by_cases hc : c = ' '
      · subst hc
        have hrest : fits rest = true := measured.shorter rest (' ' :: rest) (by simp) fitting
        rw [pieces, if_pos rfl, List.dropWhile_cons_of_pos (by simp), ← ih hrest]
        simp [placeWords, measured.empty]
      · obtain ⟨piece, more, hrest, hpieces⟩ := pieces_cons hc rest
        have hjoin := join_pieces ' ' (c :: rest) hpieces
        have hword : fits (c :: piece) = true := measured.of_append (hjoin ▸ fitting)
        have hplace : placeWords fits split [] ((c :: piece) :: more) =
            placeWords fits split (c :: piece) more := by
          simp [placeWords, hword]
        have hne : c :: piece ≠ [] := List.cons_ne_nil c piece
        rw [hpieces, hplace, measured.placeWords_append hne (hjoin ▸ fitting), hjoin,
          List.dropWhile_cons_of_neg (by simpa using hc)]

/-! ## Characters on one line -/

/-- Characters that fit on the line under way are appended to it. -/
theorem Measured.fillFrom_append (measured : Measured fits) (fitting : fits (line ++ text) = true) :
    fillFrom fits line text = [line ++ text] := by
  induction text generalizing line with
  | nil => rw [fillFrom, List.append_nil]
  | cons c rest ih =>
      have hsplit : line ++ c :: rest = line ++ [c] ++ rest := by simp
      rw [hsplit] at fitting ⊢
      rw [fillFrom, if_pos (by simp [measured.of_append fitting])]
      exact ih fitting

/-! ## Paragraphs on one line -/

/-- What a policy leaves of a paragraph that fits. -/
def fitted (policy : WrapPolicy) (paragraph : List Char) : List Char :=
  match policy with
  | .graphemes => paragraph
  | .words | .heuristically => paragraph.dropWhile (· = ' ')

theorem dropWhile_space_eq_self_iff :
    paragraph.dropWhile (· = ' ') = paragraph ↔ paragraph.head? ≠ some ' ' := by
  cases paragraph with
  | nil => simp
  | cons c rest =>
      rw [List.dropWhile_eq_self_iff]
      simp

/-- Between characters nothing is lost, and between words nothing but spaces at the start. -/
theorem fitted_eq_self_iff {policy : WrapPolicy} :
    fitted policy paragraph = paragraph ↔ policy = .graphemes ∨ paragraph.head? ≠ some ' ' := by
  cases policy with
  | graphemes => simp [fitted]
  | words | heuristically => simpa [fitted] using dropWhile_space_eq_self_iff

/-- A paragraph that fits is one line. -/
theorem Measured.wrapParagraph (measured : Measured fits) (policy : WrapPolicy)
    (fitting : fits paragraph = true) :
    Text.wrapParagraph fits policy paragraph = [fitted policy paragraph] := by
  cases policy with
  | graphemes => exact measured.fillFrom_append fitting
  | words | heuristically => exact measured.placeWords_pieces fitting

end Text

namespace TextStyle

variable {α ε : Type} [Number α]

/-- The line is no wider than the canvas allows. -/
def Fits (style : TextStyle α) (c : Canvas α ε) (line : List Char) : Prop :=
  (c.metrics.measure line style.size).x ≤ c.constraints.max.x

instance (style : TextStyle α) (c : Canvas α ε) : DecidablePred (style.Fits c) := fun _ =>
  inferInstanceAs (Decidable (_ ≤ _))

/-- Whether a text of a proper size fits depends on how long it is, if any text does. -/
theorem measured [MonotoneProduct α] {style : TextStyle α} {c : Canvas α ε}
    (size_proper : Number.Proper style.size) (advance_proper : Number.Proper c.metrics.advance)
    {paragraph : List Char} (fitting : style.Fits c paragraph) :
    Text.Measured fun line => decide (style.Fits c line) := by
  have hshorter : ∀ text longer : List Char, text.length ≤ longer.length →
      style.Fits c longer → style.Fits c text := fun text longer hle =>
    MonotoneProduct.le_trans _ _ _ (TextMetrics.measure_mono size_proper advance_proper hle)
  refine ⟨?_, ?_⟩
  · exact decide_eq_true (hshorter [] paragraph (Nat.zero_le _) fitting)
  · intro text longer hle hfits
    rw [decide_eq_true_iff] at hfits ⊢
    exact hshorter text longer hle hfits

/-- Breaking lines changes what is drawn only by changing the lines. -/
theorem draw_wrap_congr (style : TextStyle α) {wrap wrap' : Option WrapPolicy} {c : Canvas α ε}
    {id text : String}
    (lines : { style with wrap := wrap }.allLines c.metrics c.constraints.max.x text.toList =
      { style with wrap := wrap' }.allLines c.metrics c.constraints.max.x text.toList) :
    { style with wrap := wrap }.draw id text c = { style with wrap := wrap' }.draw id text c := by
  have hlines : { style with wrap := wrap }.lines c.metrics c.constraints.max.x text.toList =
      { style with wrap := wrap' }.lines c.metrics c.constraints.max.x text.toList := by
    rw [TextStyle.lines, TextStyle.lines, lines]
  let drawLines (lines : List (List Char)) : Size α × Canvas α ε :=
    let size := c.constraints.constrain (style.naturalSize c.metrics lines)
    (size, { c with ops := c.ops ++ style.lineOps c.metrics id c.origin size.x lines })
  exact congrArg drawLines hlines

/-- A paragraph of a proper text size that fits is one line, which lacks the spaces at its start
unless it may be broken between characters. So a text that fits and has no such spaces is drawn as
if it did not wrap. -/
theorem draw_fitting [MonotoneProduct α] (style : TextStyle α) (policy : WrapPolicy)
    (c : Canvas α ε) (size_proper : Number.Proper style.size)
    (advance_proper : Number.Proper c.metrics.advance) :
    (∀ paragraph, style.Fits c paragraph →
      Text.wrapParagraph (fun line => decide (style.Fits c line)) policy paragraph =
        [Text.fitted policy paragraph]) ∧
    (∀ paragraph, Text.fitted policy paragraph = paragraph ↔
      policy = .graphemes ∨ paragraph.head? ≠ some ' ') ∧
    ∀ id text, (∀ paragraph ∈ Text.pieces '\n' text.toList,
        style.Fits c paragraph ∧ Text.fitted policy paragraph = paragraph) →
      { style with wrap := some policy }.draw id text c =
        { style with wrap := none }.draw id text c := by
  have hline : ∀ paragraph, style.Fits c paragraph →
      Text.wrapParagraph (fun line => decide (style.Fits c line)) policy paragraph =
        [Text.fitted policy paragraph] := fun paragraph hfits =>
    (measured size_proper advance_proper hfits).wrapParagraph policy (decide_eq_true hfits)
  refine ⟨hline, fun paragraph => Text.fitted_eq_self_iff, ?_⟩
  intro id text hfitting
  refine draw_wrap_congr style (List.flatMap_congr ?_)
  intro paragraph hparagraph
  obtain ⟨hfits, hfitted⟩ := hfitting paragraph hparagraph
  dsimp only
  split
  · have hkept := hline paragraph hfits
    rw [hfitted] at hkept
    exact hkept
  · rfl

/-- On a canvas of width 100, an indented line loses its spaces, and a text of two lines is drawn as
it is. -/
theorem draw_fitting_indented :
    let style : TextStyle Float := .plain (.ofRgb 0)
    let c : Canvas Float Empty := ⟨.loose ⟨100, 100⟩, .standard, Vec.zero, [], []⟩
    style.Fits c " ab".toList ∧
      Text.wrapParagraph (fun line => decide (style.Fits c line)) .heuristically " ab".toList =
        ["ab".toList] ∧
      { style with wrap := some .heuristically }.draw "label" "a  b \nc" c =
        { style with wrap := none }.draw "label" "a  b \nc" c := by
  intro style c
  have hadvance : Number.Proper c.metrics.advance := by
    constructor <;> decide +kernel
  have hsize : Number.Proper style.size := by
    constructor <;> decide +kernel
  have hfits : style.Fits c " ab".toList := by
    decide +kernel
  obtain ⟨hline, -, hdraw⟩ := draw_fitting style .heuristically c hsize hadvance
  exact ⟨hfits, hline _ hfits, hdraw _ _ (by decide +kernel)⟩

end TextStyle

end Trellis
