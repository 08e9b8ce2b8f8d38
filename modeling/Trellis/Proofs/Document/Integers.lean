import Trellis.Document.Getters
import Trellis.Proofs.Number.Whole
import Trellis.Proofs.Text.Spelled

/-!
# Integers in documents

What a value of a document is as a number, and what becomes of the number where an integer is asked
for. The integer part is taken, and kept within 64 bits before it is compared with the range that is
asked for, so that a number beyond them passes for the last integer that is not.

* `Datum.Means` — what number a value is.
* `Exact.Truncates`, `Exact.Beyond` — the integer part, and what stands for one that is missing.
* `Node.int?_reads` — when a node has an integer within a range, and which one.
-/

namespace Trellis

open Exact Binary

/-! ## What stands for a number -/

namespace Exact

/-- A finite number with its fraction cut off. -/
def Truncates (x : Exact) (n : ℤ) : Prop := ∃ q, x = of q ∧ integerPart q = n

/-- What stands for a number that has no integer part of 64 bits: the end that is nearest to it, or
zero for what is no number. -/
inductive Beyond : Exact → ℤ → Prop
  | above {x : Exact} (above : of (Text.Integer.greatest + 1) ≤ x) : Beyond x Text.Integer.greatest
  | below {x : Exact} (below : x ≤ of (Text.Integer.least - 1)) : Beyond x Text.Integer.least
  | undefined : Beyond undefined 0

variable {x : Exact} {q : ℚ} {n : ℤ}

theorem le_integerPart_iff (h : 0 < n) : n ≤ integerPart q ↔ n ≤ q := by
  refine ⟨fun hle => ?_, le_integerPart⟩
  unfold integerPart at hle
  split at hle
  · exact Int.le_floor.mp hle
  · next hneg =>
      have hceil : ⌈q⌉ ≤ 0 := Int.ceil_le.mpr (by exact_mod_cast (not_le.mp hneg).le)
      omega

theorem integerPart_le_iff (h : n < 0) : integerPart q ≤ n ↔ q ≤ n := by
  have hneg := le_integerPart_iff (q := -q) (neg_pos.mpr h)
  rw [integerPart_neg, neg_le_neg_iff, Int.cast_neg, neg_le_neg_iff] at hneg
  exact hneg

theorem toInteger_of_greatest_le (h : of Text.Integer.greatest ≤ x) :
    x.toInteger Text.Integer.least Text.Integer.greatest = Text.Integer.greatest := by
  have hends : Text.Integer.least ≤ Text.Integer.greatest := by decide
  rcases le_iff.mp h with ⟨_, q, hp, rfl, hle⟩ | ⟨hp, -⟩ | ⟨rfl, -⟩
  · cases hp
    have hpart := le_integerPart hle
    rw [toInteger]
    omega
  · cases hp
  · rfl

theorem toInteger_of_le_least (h : x ≤ of Text.Integer.least) :
    x.toInteger Text.Integer.least Text.Integer.greatest = Text.Integer.least := by
  rcases le_iff.mp h with ⟨q, _, rfl, hp, hle⟩ | ⟨rfl, -⟩ | ⟨hp, -⟩
  · cases hp
    have hpart := integerPart_le hle
    rw [toInteger]
    omega
  · rfl
  · cases hp

theorem Beyond.toInteger_eq (h : x.Beyond n) :
    x.toInteger Text.Integer.least Text.Integer.greatest = n := by
  cases h with
  | above h =>
      refine toInteger_of_greatest_le (le_trans ?_ h)
      rw [of_le_of]
      linarith
  | below h =>
      refine toInteger_of_le_least (le_trans h ?_)
      rw [of_le_of]
      linarith
  | undefined => rfl

theorem toInteger_le (x : Exact) :
    x.toInteger Text.Integer.least Text.Integer.greatest ≤ Text.Integer.greatest := by
  have hends : Text.Integer.least ≤ Text.Integer.greatest := by decide
  have hzero : 0 ≤ Text.Integer.greatest := by decide
  cases x with
  | undefined => exact hzero
  | infinite negative =>
      cases negative with
      | false => exact le_rfl
      | true => exact hends
  | of q =>
      rw [toInteger]
      omega

/-- A number is made an integer of 64 bits by its integer part, or by what stands for it. -/
theorem toInteger_eq_iff : x.toInteger Text.Integer.least Text.Integer.greatest = n ↔
    x.Truncates n ∧ Text.Integer.fits n = true ∨ x.Beyond n := by
  constructor
  · rintro rfl
    cases x with
    | undefined => exact .inr .undefined
    | infinite negative =>
        cases negative with
        | false => exact .inr (.above (le_infinite nofun))
        | true => exact .inr (.below (infinite_le nofun))
    | of q =>
        have hleast : Text.Integer.least - 1 < 0 := by decide
        have hgreatest : 0 < Text.Integer.greatest + 1 := by decide
        by_cases hhigh : Text.Integer.greatest + 1 ≤ integerPart q
        · have hbeyond : (of q).Beyond Text.Integer.greatest := by
            refine .above (of_le_of.mpr ?_)
            exact_mod_cast (le_integerPart_iff hgreatest).mp hhigh
          rw [hbeyond.toInteger_eq]
          exact .inr hbeyond
        by_cases hlow : integerPart q ≤ Text.Integer.least - 1
        · have hbeyond : (of q).Beyond Text.Integer.least := by
            refine .below (of_le_of.mpr ?_)
            exact_mod_cast (integerPart_le_iff hleast).mp hlow
          rw [hbeyond.toInteger_eq]
          exact .inr hbeyond
        · have hpart : (of q).toInteger Text.Integer.least Text.Integer.greatest =
              integerPart q := by
            rw [toInteger]
            omega
          rw [hpart, Text.Integer.fits_iff]
          exact .inl ⟨⟨q, rfl, rfl⟩, by omega⟩
  · rintro (⟨⟨q, rfl, rfl⟩, hfits⟩ | hbeyond)
    · obtain ⟨hlow, hhigh⟩ := Text.Integer.fits_iff.mp hfits
      rw [toInteger]
      omega
    · exact hbeyond.toInteger_eq

end Exact

/-! ## Values of a document -/

/-- What number a value of a document is. Texts that spell one count: an integer of 64 bits is
exact, and any other number is read in double precision. -/
inductive Datum.Means : Datum → Exact → Prop
  | int (n : ℤ) : Means (.int n) (of n)
  | real (x : Float) : Means (.real x) (ofFloat x)
  | whole {s : String} {n : ℤ} (spelled : Text.Integer.Spells (Text.trim s.toList) n)
      (fits : Text.Integer.fits n = true) : Means (.text s) (of n)
  | rounded {s : String} {x : Float}
      (other : ∀ n, Text.Integer.Spells (Text.trim s.toList) n → Text.Integer.fits n = false)
      (read : Text.Real.read? (Text.trim s.toList) = some x) : Means (.text s) (ofFloat x)

namespace Datum

variable {d : Datum} {x : Exact} {n : ℤ} {s : String}

theorem fits_word : Fits .binary64 (2 ^ 63 : ℚ) := by
  refine ⟨⟨1, 63, ?_, by decide, by decide⟩, ?_⟩
  · norm_num
  · rw [abs_of_pos (by positivity), overflow_binary64, ← zpow_natCast]
    exact zpow_lt_zpow_right₀ one_lt_two (by decide)

/-- What is too large for 64 bits is still too large when it is rounded. -/
theorem truncate_ofInt (h : Text.Integer.fits n = false) : Text.Real.truncate (Float.ofInt n) =
    (of n).toInteger Text.Integer.least Text.Integer.greatest := by
  have hrounded := ofFloat_ofInt n
  have hfits : ¬(Text.Integer.least ≤ n ∧ n ≤ Text.Integer.greatest) := by
    rw [← Text.Integer.fits_iff, h]
    exact Bool.false_ne_true
  rw [truncate_eq]
  by_cases hlow : Text.Integer.least ≤ n
  · have hlarge : of (2 ^ 63 : ℚ) ≤ of n := by
      have : (2 ^ 63 : ℤ) ≤ n := by
        have hgreatest : Text.Integer.greatest + 1 = 2 ^ 63 := by decide
        omega
      rw [of_le_of]
      exact_mod_cast this
    have hgreatest : of (Text.Integer.greatest : ℚ) ≤ of (2 ^ 63 : ℚ) := by
      rw [of_le_of]
      norm_num [Text.Integer.greatest]
    rw [toInteger_of_greatest_le (le_trans hgreatest hlarge),
      toInteger_of_greatest_le (le_trans hgreatest (hrounded.floor _ fits_word hlarge))]
  · have hsmall : of n ≤ of Text.Integer.least := by
      rw [of_le_of]
      exact_mod_cast (not_le.mp hlow).le
    have hleast : Fits .binary64 (Text.Integer.least : ℚ) := by
      convert fits_word.neg using 1
      norm_num [Text.Integer.least]
    rw [toInteger_of_le_least hsmall, toInteger_of_le_least (hrounded.ceil _ hleast hsmall)]

/-- A number that a value is decides its integer. -/
theorem Means.toInt?_eq (h : d.Means x) :
    d.toInt? = some (x.toInteger Text.Integer.least Text.Integer.greatest) := by
  have hexact {n : ℤ} (hfits : Text.Integer.fits n = true) :
      (of n).toInteger Text.Integer.least Text.Integer.greatest = n :=
    toInteger_eq_iff.mpr (.inl ⟨⟨n, rfl, integerPart_intCast n⟩, hfits⟩)
  cases h with
  | int n =>
      show some (if Text.Integer.fits n then n else Text.Real.truncate (Float.ofInt n)) = _
      by_cases hfits : Text.Integer.fits n = true
      · rw [if_pos hfits, hexact hfits]
      · rw [if_neg hfits, truncate_ofInt (Bool.not_eq_true _ ▸ hfits)]
  | real x => exact congrArg some (truncate_eq x)
  | whole spelled fits =>
      have hread := Text.Integer.read_eq_ok.mpr ⟨spelled, fits⟩
      simp only [toInt?, hread, hexact fits]
  | rounded other read =>
      simp only [toInt?]
      split
      · next n hread =>
          obtain ⟨hspelled, hfits⟩ := Text.Integer.read_eq_ok.mp hread
          rw [other n hspelled] at hfits
          cases hfits
      · rw [read, Option.map_some, truncate_eq]

theorem exists_means (h : d.toInt? = some n) : ∃ x, d.Means x := by
  cases d with
  | null | flag | list | mapping => cases h
  | int m => exact ⟨_, .int m⟩
  | real y => exact ⟨_, .real y⟩
  | text s =>
      simp only [toInt?] at h
      split at h
      · next m hread =>
          obtain ⟨hspelled, hfits⟩ := Text.Integer.read_eq_ok.mp hread
          exact ⟨_, .whole hspelled hfits⟩
      · next fault hread =>
          obtain ⟨y, hy, -⟩ := Option.map_eq_some_iff.mp h
          refine ⟨_, .rounded (fun m hspelled => ?_) hy⟩
          by_contra hfits
          rw [Text.Integer.read_eq_ok.mpr ⟨hspelled, Bool.not_eq_false _ ▸ hfits⟩] at hread
          cases hread

/-- The integer of a value is that of the number. -/
theorem toInt?_eq_some : d.toInt? = some n ↔ ∃ x, d.Means x ∧
    x.toInteger Text.Integer.least Text.Integer.greatest = n := by
  constructor
  · intro h
    obtain ⟨x, hx⟩ := exists_means h
    exact ⟨x, hx, Option.some_inj.mp (hx.toInt?_eq.symm.trans h)⟩
  · rintro ⟨x, hx, rfl⟩
    exact hx.toInt?_eq

/-- A text means a number if it spells one. -/
theorem exists_means_text : (∃ x, (Datum.text s).Means x) ↔
    ∃ v, Text.Real.Spells (Text.trim s.toList) v := by
  constructor
  · rintro ⟨x, hx⟩
    cases hx with
    | whole spelled => exact ⟨_, .of_integer spelled⟩
    | rounded _ read => exact Text.Real.exists_spells read
  · rintro ⟨v, hv⟩
    obtain ⟨y, hread, -⟩ := Text.Real.read?_rounded hv
    by_cases h : ∃ n, Text.Integer.Spells (Text.trim s.toList) n ∧ Text.Integer.fits n = true
    · obtain ⟨n, hspelled, hfits⟩ := h
      exact ⟨_, .whole hspelled hfits⟩
    · refine ⟨_, .rounded (fun n hspelled => ?_) hread⟩
      by_contra hfits
      exact h ⟨n, hspelled, Bool.not_eq_false _ ▸ hfits⟩

/-- A text means what it spells, or a number of double precision that is nearest to it. -/
theorem Means.near (h : (Datum.text s).Means x) :
    ∃ v, Text.Real.Spells (Text.trim s.toList) v ∧ (x = v ∨ Rounded .binary64 v x) := by
  cases h with
  | whole spelled => exact ⟨_, .of_integer spelled, .inl rfl⟩
  | rounded _ read =>
      obtain ⟨v, hv⟩ := Text.Real.exists_spells read
      obtain ⟨y, hread, hrounded⟩ := Text.Real.read?_rounded hv
      rw [hread] at read
      cases read
      exact ⟨v, hv, .inr hrounded⟩

end Datum

/-! ## Integers that are asked for -/

/-- A node has an integer within a range if the value is a number and its integer part lies in the
range. A number that has no integer part of 64 bits passes for the nearest integer that has, and
what is no number for zero. -/
theorem Node.int?_reads (node : Node) (key : String) (low high : ℤ) :
    (∀ n, node.int? low high key = some n ↔ low ≤ n ∧ n ≤ high ∧
      ∃ d x, node.get? key = some d ∧ d.Means x ∧
        (x.Truncates n ∧ Text.Integer.fits n = true ∨ x.Beyond n)) ∧
    (∀ k : ℕ, node.natural? key = some k ↔
      node.int? 0 (2 ^ 64 - 1) key = some (k : ℤ)) ∧
    ∀ s, ((∃ x, (Datum.text s).Means x) ↔ ∃ v, Text.Real.Spells (Text.trim s.toList) v) ∧
      ∀ x, (Datum.text s).Means x → ∃ v, Text.Real.Spells (Text.trim s.toList) v ∧
        (x = v ∨ Rounded .binary64 v x) := by
  have hint (low high n : ℤ) : node.int? low high key = some n ↔ low ≤ n ∧ n ≤ high ∧
      ∃ d x, node.get? key = some d ∧ d.Means x ∧
        (x.Truncates n ∧ Text.Integer.fits n = true ∨ x.Beyond n) := by
    simp only [Node.int?, Option.filter_eq_some_iff, Option.bind_eq_some_iff, Bool.and_eq_true,
      decide_eq_true_eq, Datum.toInt?_eq_some, toInteger_eq_iff]
    constructor
    · rintro ⟨⟨d, hd, x, hx, hn⟩, hlow, hhigh⟩
      exact ⟨hlow, hhigh, d, x, hd, hx, hn⟩
    · rintro ⟨hlow, hhigh, d, x, hd, hx, hn⟩
      exact ⟨⟨d, hd, x, hx, hn⟩, hlow, hhigh⟩
  refine ⟨hint low high, fun k => ?_, fun s => ⟨Datum.exists_means_text, fun x h => h.near⟩⟩
  have hgreatest : Text.Integer.greatest ≤ 2 ^ 64 - 1 := by decide
  simp only [Node.natural?, Option.map_eq_some_iff, hint]
  constructor
  · rintro ⟨n, ⟨hlow, hhigh, hfound⟩, rfl⟩
    rw [Int.toNat_of_nonneg hlow]
    exact ⟨hlow, hhigh.trans hgreatest, hfound⟩
  · rintro ⟨hlow, hhigh, d, x, hd, hx, hn⟩
    refine ⟨k, ⟨hlow, ?_, d, x, hd, hx, hn⟩, Int.toNat_natCast k⟩
    rw [← toInteger_eq_iff.mpr hn]
    exact toInteger_le x

end Trellis
