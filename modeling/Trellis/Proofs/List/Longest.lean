import Mathlib.Data.List.Chain
import Mathlib.Data.List.DropRight

/-!
# The longest start or end of a list

* `Outer` — a part that a list starts or ends with.
* `Longest` — the longest start or end of a list that fits.
-/

namespace Trellis

variable {τ υ : Type} {atEnd : Bool} {fits fits' : List τ → Prop} {part list : List τ}

/-- The list starts with the part, or with `atEnd` it ends with the part. -/
def Outer (atEnd : Bool) (part list : List τ) : Prop :=
  match atEnd with
  | false => part <+: list
  | true => part <:+ list

theorem Outer.subset (h : Outer atEnd part list) : part ⊆ list := by
  cases atEnd with
  | false => exact List.IsPrefix.subset h
  | true => exact List.IsSuffix.subset h

theorem Outer.length_le (h : Outer atEnd part list) : part.length ≤ list.length := by
  cases atEnd with
  | false => exact List.IsPrefix.length_le h
  | true => exact List.IsSuffix.length_le h

theorem Outer.isChain {R : τ → τ → Prop} (h : Outer atEnd part list) (chain : list.IsChain R) :
    part.IsChain R := by
  cases atEnd with
  | false => exact chain.prefix h
  | true => exact chain.suffix h

theorem outer_map_iff {f : τ → υ} {part : List υ} :
    Outer atEnd part (list.map f) ↔ ∃ other, Outer atEnd other list ∧ part = other.map f := by
  cases atEnd with
  | false => exact List.prefix_map_iff
  | true => exact List.suffix_map_iff

/-- The longest start of the list that fits, or with `atEnd` the longest end that fits. -/
structure Longest (atEnd : Bool) (fits : List τ → Prop) (part list : List τ) : Prop where
  outer : Outer atEnd part list
  part_fits : fits part
  longest : ∀ other, Outer atEnd other list → fits other → other.length ≤ part.length

namespace Longest

/-- What fits matters only of the starts or ends of the list. -/
theorem congr (h : Longest atEnd fits part list)
    (same : ∀ other, Outer atEnd other list → (fits other ↔ fits' other)) :
    Longest atEnd fits' part list where
  outer := h.outer
  part_fits := (same part h.outer).mp h.part_fits
  longest other outer hfits := h.longest other outer ((same other outer).mpr hfits)

theorem map {f : υ → τ} {part list : List υ}
    (h : Longest atEnd (fun other => fits (other.map f)) part list) :
    Longest atEnd fits (part.map f) (list.map f) where
  outer := outer_map_iff.mpr ⟨part, h.outer, rfl⟩
  part_fits := h.part_fits
  longest other outer hfits := by
    obtain ⟨other, houter, rfl⟩ := outer_map_iff.mp outer
    simpa using h.longest other houter hfits

theorem cons {x : τ} {xs : List τ} (h : Longest false (fun other => fits (x :: other)) part xs) :
    Longest false fits (x :: part) (x :: xs) where
  outer := List.prefix_cons_inj x |>.mpr h.outer
  part_fits := h.part_fits
  longest other outer hfits := by
    rcases List.prefix_cons_iff.mp outer with rfl | ⟨rest, rfl, hrest⟩
    · exact Nat.zero_le _
    · exact Nat.succ_le_succ (h.longest rest hrest hfits)

/-- A list that fits is its own longest start. -/
theorem refl (h : fits list) : Longest false fits list list where
  outer := List.prefix_rfl
  part_fits := h
  longest _ outer _ := Outer.length_le outer

/-- A list that does not fit has the longest start of the list without its last entry. -/
theorem concat {x : τ} (h : Longest false fits part list) (not_fits : ¬ fits (list ++ [x])) :
    Longest false fits part (list ++ [x]) where
  outer := List.IsPrefix.trans h.outer (List.prefix_append list [x])
  part_fits := h.part_fits
  longest other outer hfits := by
    rcases List.prefix_concat_iff.mp outer with rfl | hother
    · exact absurd hfits not_fits
    · exact h.longest other hother hfits

/-- The longest end of one list is as long as the longest start of another one if the ends that fit
are as long as the starts that do. -/
theorem eq_rtake_take {whole : List υ} {other : List υ} {fits' : List υ → Prop}
    (h : Longest true fits part list) (h' : Longest false fits' other whole)
    (lengths : whole.length = list.length)
    (same : ∀ count, fits' (whole.take count) ↔ fits (list.rtake count)) :
    part = list.rtake part.length ∧ other = whole.take part.length := by
  have hpart : part = list.rtake part.length := List.suffix_iff_eq_drop.mp h.outer
  have hother : other = whole.take other.length := List.prefix_iff_eq_take.mp h'.outer
  -- Each part, cut to the length of the other one, fits.
  have hle := h.longest (list.rtake other.length) (List.drop_suffix _ _)
    ((same _).mp (hother ▸ h'.part_fits))
  have hle' := h'.longest (whole.take part.length) (List.take_prefix _ _)
    ((same _).mpr (hpart ▸ h.part_fits))
  have hlength := h.outer.length_le
  have hlength' := h'.outer.length_le
  rw [List.rtake, List.length_drop] at hle
  rw [List.length_take] at hle'
  have heq : other.length = part.length := by omega
  exact ⟨hpart, heq ▸ hother⟩

end Longest

end Trellis
