import Trellis.Canvas.Paragraph
import Trellis.Proofs.List.Longest
import Trellis.Proofs.Number.Exact

/-!
# Text that is cut off

A limit on the number of lines drops the surplus and ends the last line kept with the truncator,
which takes the place of as few of its characters as possible.

* `Text.Truncated` — a line that is cut off; `Text.truncateLine_truncated`.
* `TextStyle.linesOn` — the lines of a text; `TextStyle.Unlimited` — the style without its limit.
* `TextStyle.Shows` — a text is drawn as these lines, one op for each; `TextStyle.draw_shows_lines`.
* `TextStyle.draw_limited` — what a limit changes.
-/

namespace Trellis

namespace Text

variable {tooWide : List Char → Bool} {ending line : List Char}

/-- What is left of a line that is cut off: the longest start with which the ending is not too wide,
or nothing if it is too wide with every start, and the ending. -/
inductive Truncated (wide : List Char → Prop) (ending line : List Char) : List Char → Prop
  | start {start : List Char}
      (longest : Longest false (fun start => ¬ wide (start ++ ending)) start line) :
      Truncated wide ending line (start ++ ending)
  | bare (wide_all : ∀ start, start <+: line → wide (start ++ ending)) :
      Truncated wide ending line ending

/-- Without its last character, a line that is too wide is cut off in the same way. -/
theorem Truncated.concat {wide : List Char → Prop} {c : Char} {left : List Char}
    (h : Truncated wide ending line left) (too_wide : wide (line ++ [c] ++ ending)) :
    Truncated wide ending (line ++ [c]) left := by
  cases h with
  | start longest => exact .start (longest.concat (not_not_intro too_wide))
  | bare wide_all =>
      refine .bare fun start hstart => ?_
      rcases List.prefix_concat_iff.mp hstart with rfl | hprefix
      · exact too_wide
      · exact wide_all start hprefix

/-- Dropping characters from the end of a line finds its longest start. -/
theorem truncateLine_truncated (tooWide : List Char → Bool) (ending line : List Char) :
    Truncated (fun line => tooWide line = true) ending line (truncateLine tooWide ending line) := by
  induction line using List.reverseRecOn with
  | nil =>
      rw [truncateLine, if_pos (by simp), List.nil_append]
      by_cases hwide : tooWide ending = true
      · refine .bare fun start hstart => ?_
        rwa [List.prefix_nil.mp hstart]
      · exact @Truncated.start _ _ _ [] (.refl hwide)
  | append_singleton line c ih =>
      rw [truncateLine]
      cases hwide : tooWide (line ++ [c] ++ ending) with
      | true =>
          rw [if_neg (by simp), List.dropLast_concat]
          exact ih.concat hwide
      | false =>
          rw [Bool.not_false, Bool.or_true, if_pos rfl]
          exact .start (.refl (ne_true_of_eq_false hwide))

end Text

namespace TextStyle

variable {α ε : Type} [Number α]

/-- The style without a limit on the number of lines. -/
def unlimited (style : TextStyle α) : TextStyle α := { style with maxLines := 0 }

/-- The lines that a text is drawn as on a canvas. -/
def linesOn (style : TextStyle α) (c : Canvas α ε) (text : String) : List (List Char) :=
  style.lines c.metrics c.constraints.max.x text.toList

/-- The line is wider than the canvas allows. -/
def Overflows (style : TextStyle α) (c : Canvas α ε) (line : List Char) : Prop :=
  c.constraints.max.x < (c.metrics.measure line style.size).x

/-- The op is that of a line of the text, with the given number of lines above it. -/
structure IsLine (style : TextStyle α) (c : Canvas α ε) (id : String) (above : Nat)
    (line : List Char) (op : DrawOp α) : Prop where
  element : op.element = id
  ink : op.ink = .text (String.ofList line) style.size style.color
  top : op.bounds.origin.y = c.origin.y + style.lineDistance c.metrics * Number.natural above

/-- Drawing the text changes the canvas only by one op for each line, from the first one to the
last. -/
def Shows (style : TextStyle α) (c : Canvas α ε) (id text : String) (lines : List (List Char)) :
    Prop :=
  ∃ ops, (style.draw id text c).2 = { c with ops := c.ops ++ ops } ∧ ops.length = lines.length ∧
    ∀ i (hline : i < lines.length) (hop : i < ops.length), style.IsLine c id i lines[i] ops[i]

theorem draw_shows_lines (style : TextStyle α) (c : Canvas α ε) (id text : String) :
    style.Shows c id text (style.linesOn c text) := by
  let lines := style.linesOn c text
  let size := c.constraints.constrain (style.naturalSize c.metrics lines)
  refine ⟨style.lineOps c.metrics id c.origin size.x lines, rfl, List.length_mapIdx, ?_⟩
  intro i hline hop
  simp only [lineOps, List.getElem_mapIdx]
  exact ⟨rfl, rfl, rfl⟩

theorem lines_unlimited {style : TextStyle α} {metrics : TextMetrics α} {width : α}
    {text : List Char} :
    style.unlimited.lines metrics width text = style.allLines metrics width text := by
  rw [lines, if_neg (fun h => Nat.lt_irrefl 0 h.1)]
  rfl

/-- A limit that is not exceeded changes nothing. -/
theorem lines_of_length_le {style : TextStyle α} {metrics : TextMetrics α} {width : α}
    {text : List Char} (le : (style.allLines metrics width text).length ≤ style.maxLines) :
    style.lines metrics width text = style.allLines metrics width text := by
  rw [lines, if_neg (by omega)]

/-- A limit that is exceeded keeps as many lines, and of the last one what is left with the
truncator. -/
theorem lines_of_lt_length {style : TextStyle α} {metrics : TextMetrics α} {width : α}
    {text : List Char} (limited : 0 < style.maxLines)
    (lt : style.maxLines < (style.allLines metrics width text).length) :
    ∃ kept line dropped, style.allLines metrics width text = kept ++ line :: dropped ∧
      kept.length + 1 = style.maxLines ∧
      style.lines metrics width text = kept ++ [Text.truncateLine
        (fun line => decide (width < (metrics.measure line style.size).x))
        style.truncator.toList line] := by
  generalize hall : style.allLines metrics width text = all at lt
  obtain ⟨before, hbefore⟩ := Nat.exists_eq_add_of_lt limited
  rw [Nat.zero_add] at hbefore
  have hlast : before < all.length := by omega
  have htake : all.take style.maxLines = all.take before ++ [all[before]] := by
    rw [hbefore, List.take_add_one, List.getElem?_eq_getElem hlast, Option.toList_some]
  refine ⟨all.take before, all[before], all.drop (before + 1), ?_, ?_, ?_⟩
  · rw [← List.drop_eq_getElem_cons hlast, List.take_append_drop]
  · rw [List.length_take]
    omega
  · simp only [lines, hall]
    rw [if_pos ⟨limited, lt⟩, htake, List.dropLast_concat, List.getLast?_concat]
    rfl

/-- What a limit on the number of lines changes. A text without more lines is drawn as without the
limit. Otherwise as many lines are drawn, all but the last as without the limit, and that one is cut
off to end with the truncator. -/
theorem draw_limited (style : TextStyle α) (c : Canvas α ε) (id text : String)
    (limited : 0 < style.maxLines) :
    let all := style.unlimited.linesOn c text
    let shown := style.linesOn c text
    style.unlimited.Shows c id text all ∧ style.Shows c id text shown ∧
      (all.length ≤ style.maxLines →
        shown = all ∧ style.draw id text c = style.unlimited.draw id text c) ∧
      (style.maxLines < all.length → ∃ kept line dropped last,
        all = kept ++ line :: dropped ∧ kept.length + 1 = style.maxLines ∧
        Text.Truncated (style.Overflows c) style.truncator.toList line last ∧
        shown = kept ++ [last]) := by
  intro all shown
  have hall : all = style.allLines c.metrics c.constraints.max.x text.toList := lines_unlimited
  refine ⟨style.unlimited.draw_shows_lines c id text, style.draw_shows_lines c id text, ?_, ?_⟩
  · intro hle
    have heq : shown = all := by
      rw [hall] at hle ⊢
      exact lines_of_length_le hle
    -- The limit matters for the lines only, so equal lines make the same drawing.
    let drawLines (lines : List (List Char)) : Size α × Canvas α ε :=
      let size := c.constraints.constrain (style.naturalSize c.metrics lines)
      (size, { c with ops := c.ops ++ style.lineOps c.metrics id c.origin size.x lines })
    exact ⟨heq, congrArg drawLines heq⟩
  · intro hlt
    rw [hall] at hlt
    obtain ⟨kept, line, dropped, hsplit, hkept, hlines⟩ := lines_of_lt_length limited hlt
    refine ⟨kept, line, dropped, _, hall.trans hsplit, hkept, ?_, hlines⟩
    have htruncated := Text.truncateLine_truncated
      (fun line => decide (c.constraints.max.x < (c.metrics.measure line style.size).x))
      style.truncator.toList line
    simp only [decide_eq_true_eq] at htruncated
    exact htruncated

/-- On a canvas that is three characters wide, two of three lines are drawn. The second one keeps two
characters. -/
theorem draw_limited_two :
    let style : TextStyle Exact := { TextStyle.plain (.ofRgb 0) with maxLines := 2 }
    let c : Canvas Exact Empty := ⟨.loose ⟨24, 100⟩, .standard, Vec.zero, [], []⟩
    0 < style.maxLines ∧
      style.unlimited.Shows c "label" "abcd\nefgh\nij" ["abcd".toList, "efgh".toList, "ij".toList] ∧
      style.Shows c "label" "abcd\nefgh\nij" ["abcd".toList, "ef…".toList] ∧
      Text.Truncated (style.Overflows c) "…".toList "efgh".toList "ef…".toList := by
  intro style c
  have hlimited : 0 < style.maxLines := by decide
  have hall : style.unlimited.linesOn c "abcd\nefgh\nij" =
      ["abcd".toList, "efgh".toList, "ij".toList] := by
    decide +kernel
  have hshown : style.linesOn c "abcd\nefgh\nij" = ["abcd".toList, "ef…".toList] := by
    decide +kernel
  obtain ⟨hshows_all, hshows, -, hcut⟩ := draw_limited style c "label" "abcd\nefgh\nij" hlimited
  simp only [hall, hshown] at hshows_all hshows hcut
  obtain ⟨kept, line, dropped, last, hsplit, hlength, htruncated, hlines⟩ := hcut (by decide)
  -- One line is kept as it is, so the second one is the one cut off.
  obtain ⟨rfl, rfl⟩ : line = "efgh".toList ∧ last = "ef…".toList := by
    obtain ⟨first, rfl⟩ := List.length_eq_one_iff.mp (Nat.succ_injective hlength)
    simp only [List.singleton_append, List.cons.injEq] at hsplit hlines
    exact ⟨hsplit.2.1.symm, hlines.2.1.symm⟩
  exact ⟨hlimited, hshows_all, hshows, htruncated⟩

end TextStyle

end Trellis
