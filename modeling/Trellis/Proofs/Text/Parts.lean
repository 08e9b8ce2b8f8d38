import Mathlib.Data.List.TakeWhile
import Trellis.Text.Blank

/-!
# Parts of a text

Where a text is cut, by white space at its ends and by positions that are counted in bytes.

* `Text.trim_padded`, `Text.exists_padding` — what trimming leaves.
* `Text.slice` — the part between two positions, in UTF-8. There is none if a position lies inside a
  character or after the end.
* `Text.slice_eq` — positions count characters as long as each has one byte.
-/

namespace Trellis.Text

variable {before body after s : List Char} {n start size : ℕ}

/-! ## White space at the ends -/

def Blank (s : List Char) : Prop := ∀ c ∈ s, isBlank c = true

theorem Blank.reverse (h : Blank s) : Blank s.reverse :=
  fun c hc => h c (List.mem_reverse.mp hc)

theorem dropWhile_padded (hbefore : Blank before) (hbody : ∀ c ∈ body.head?, isBlank c = false) :
    (before ++ body).dropWhile isBlank = body := by
  rw [List.dropWhile_append_of_pos hbefore]
  cases body with
  | nil => rfl
  | cons c body =>
      rw [List.dropWhile_cons_of_neg]
      simp [hbody c rfl]

theorem trimEnd_padded (hafter : Blank after) (hbody : ∀ c ∈ body.getLast?, isBlank c = false) :
    trimEnd (body ++ after) = body := by
  rw [trimEnd, List.reverse_append, dropWhile_padded hafter.reverse, List.reverse_reverse]
  rwa [List.head?_reverse]

/-- White space at both ends is trimmed off, and no more than that. -/
theorem trim_padded (hbefore : Blank before) (hafter : Blank after)
    (hbody : ∀ c ∈ body, isBlank c = false) : trim (before ++ body ++ after) = body := by
  have hlast : trimEnd (body ++ after) = body :=
    trimEnd_padded hafter fun c hc => hbody c (List.mem_of_getLast? hc)
  cases body with
  | nil =>
      have hall : Blank (before ++ after) := by
        intro c hc
        exact (List.mem_append.mp hc).elim (hbefore c) (hafter c)
      have hdrop : (before ++ after ++ []).dropWhile isBlank = [] := dropWhile_padded hall nofun
      rw [List.append_nil] at hdrop
      rw [trim, List.append_nil, hdrop]
      rfl
  | cons c body =>
      have hdrop : (before ++ (c :: body ++ after)).dropWhile isBlank = c :: body ++ after :=
        dropWhile_padded hbefore fun d hd => hbody d (by simp_all)
      rw [trim, List.append_assoc, hdrop, hlast]

/-- A text is what trimming leaves of it, with white space around it. -/
theorem exists_padding (s : List Char) :
    ∃ before after, s = before ++ trim s ++ after ∧ Blank before ∧ Blank after := by
  let rest := s.dropWhile isBlank
  have hrest : rest = trim s ++ (rest.reverse.takeWhile isBlank).reverse := by
    rw [trim, trimEnd, ← List.reverse_append, List.takeWhile_append_dropWhile,
      List.reverse_reverse]
  refine ⟨s.takeWhile isBlank, (rest.reverse.takeWhile isBlank).reverse, ?_, ?_, ?_⟩
  · rw [List.append_assoc, ← hrest]
    exact List.takeWhile_append_dropWhile.symm
  · exact fun c => List.mem_takeWhile_imp
  · exact Blank.reverse fun c => List.mem_takeWhile_imp

/-! ## Positions in bytes -/

/-- How many bytes a text takes in UTF-8. -/
def byteCount : List Char → ℕ
  | [] => 0
  | c :: s => c.utf8Size + byteCount s

/-- Why a text cannot be cut at a position. -/
inductive SliceError
  | inside | beyond
  deriving DecidableEq

/-- What is left of a text after so many bytes. -/
def dropBytes : ℕ → List Char → Except SliceError (List Char)
  | 0, s => .ok s
  | _ + 1, [] => .error .beyond
  | n + 1, c :: s =>
    if c.utf8Size ≤ n + 1 then dropBytes (n + 1 - c.utf8Size) s else .error .inside

/-- So many bytes at the front of a text. -/
def takeBytes : ℕ → List Char → Except SliceError (List Char)
  | 0, _ => .ok []
  | _ + 1, [] => .error .beyond
  | n + 1, c :: s =>
    if c.utf8Size ≤ n + 1 then (c :: ·) <$> takeBytes (n + 1 - c.utf8Size) s else .error .inside

/-- The part of a text that has `size` bytes and begins after `start` bytes. -/
def slice (start size : ℕ) (s : List Char) : Except SliceError (List Char) :=
  dropBytes start s >>= takeBytes size

/-- Every character takes one byte. -/
def SingleBytes (s : List Char) : Prop := ∀ c ∈ s, c.utf8Size = 1

theorem SingleBytes.byteCount (h : SingleBytes s) : byteCount s = s.length := by
  induction s with
  | nil => rfl
  | cons c s ih =>
      obtain ⟨hc, hs⟩ := List.forall_mem_cons.mp h
      rw [Text.byteCount, hc, ih hs, List.length_cons, Nat.add_comm]

theorem SingleBytes.dropBytes (h : SingleBytes s) (le : n ≤ s.length) :
    dropBytes n s = .ok (s.drop n) := by
  induction s generalizing n with
  | nil =>
      rw [List.length_nil, Nat.le_zero] at le
      rw [le]
      rfl
  | cons c s ih =>
      obtain ⟨hc, hs⟩ := List.forall_mem_cons.mp h
      cases n with
      | zero => rfl
      | succ n =>
          rw [Text.dropBytes, hc, if_pos (by omega)]
          exact ih hs (by simpa using le)

theorem SingleBytes.takeBytes (h : SingleBytes s) (le : n ≤ s.length) :
    takeBytes n s = .ok (s.take n) := by
  induction s generalizing n with
  | nil =>
      rw [List.length_nil, Nat.le_zero] at le
      rw [le]
      rfl
  | cons c s ih =>
      obtain ⟨hc, hs⟩ := List.forall_mem_cons.mp h
      cases n with
      | zero => rfl
      | succ n =>
          rw [Text.takeBytes, hc, if_pos (by omega), Nat.add_sub_cancel, ih hs (by simpa using le)]
          rfl

/-- If every character takes one byte, positions within the text are never inside a character. -/
theorem slice_eq (h : SingleBytes s) (le : start + size ≤ s.length) :
    slice start size s = .ok ((s.drop start).take size) := by
  have hrest : SingleBytes (s.drop start) := fun c hc => h c (List.mem_of_mem_drop hc)
  have hsize : size ≤ (s.drop start).length := by
    rw [List.length_drop]
    omega
  rw [slice, h.dropBytes (by omega)]
  exact hrest.takeBytes hsize

/-- A character of two bytes cannot be cut in the middle. -/
example : slice 0 2 ['1', 'é'] = .error .inside := rfl

end Trellis.Text
