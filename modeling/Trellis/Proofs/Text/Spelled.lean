import Trellis.Proofs.Number.Decimal

/-!
# What texts spell

The grammar of numbers, apart from how they are read.

* `Text.Integer.Spells`, `Text.Real.Spells` — what number a text spells.
* `Text.Integer.read_eq_ok` — integers are read if they have no more than 64 bits.
* `Text.Real.read?_rounded` — every other number is rounded.
-/

namespace Trellis.Text

/-- Decimal digits, at least one. -/
structure Digits (s : List Char) : Prop where
  nonempty : s ≠ []
  all : ∀ c ∈ s, isDigit c = true

/-- Decimal digits that follow a number. -/
def appendDigits (k : ℕ) (s : List Char) : ℕ :=
  s.foldl (fun n c => n * 10 + (hexDigit? c).getD 0) k

variable {s : List Char} {c : Char} {n e : ℤ} {k m : ℕ}

theorem digit_eq (h : isDigit c = true) :
    ((hexDigit? c).getD 0 : ℤ) = (c.toNat : ℤ) - '0'.toNat := by
  have hrange : '0' ≤ c ∧ c ≤ '9' := of_decide_eq_true h
  have hlow : '0'.toNat ≤ c.toNat := hrange.1
  rw [hexDigit?, if_pos hrange, Option.getD_some, Nat.cast_sub hlow]

/-- A sign is no digit. -/
theorem Digits.head (h : Digits s) :
    ∃ c rest, s = c :: rest ∧ isDigit c = true ∧ c ≠ '-' ∧ c ≠ '+' := by
  obtain ⟨c, rest, rfl⟩ := List.exists_cons_of_ne_nil h.nonempty
  have hc := h.all c List.mem_cons_self
  refine ⟨c, rest, rfl, hc, ?_, ?_⟩ <;> rintro rfl <;> exact absurd hc (by decide)

theorem le_appendDigits (k : ℕ) (s : List Char) : k ≤ appendDigits k s := by
  induction s generalizing k with
  | nil => exact le_refl k
  | cons c s ih =>
      have hnext : k * 10 + (hexDigit? c).getD 0 ≤ appendDigits k (c :: s) := ih _
      omega

/-! ## Integers -/

namespace Integer

/-- What integer a text spells: decimal digits, with a sign or without. -/
inductive Spells : List Char → ℤ → Prop
  | plain {s : List Char} : Digits s → Spells s (ofDigits 10 s)
  | plus {s : List Char} : Digits s → Spells ('+' :: s) (ofDigits 10 s)
  | minus {s : List Char} : Digits s → Spells ('-' :: s) (-ofDigits 10 s)

def withSign : Bool → ℕ → ℤ
  | true, k => -k
  | false, k => k

variable {negative : Bool}

theorem fits_iff : fits n = true ↔ least ≤ n ∧ n ≤ greatest := by
  simp [fits]

/-- A number with fewer digits has no more bits. -/
theorem fits_of_le (le : k ≤ m) (h : fits (withSign negative m) = true) :
    fits (withSign negative k) = true := by
  have hleast : least ≤ 0 := by decide
  have hgreatest : 0 ≤ greatest := by decide
  rw [fits_iff] at h ⊢
  cases negative <;> simp only [withSign] at h ⊢ <;> omega

/-- Digits are read as long as the number has no more than 64 bits. -/
theorem readDigits_eq_ok (h : fits (withSign negative k) = true) :
    readDigits negative (withSign negative k) s = .ok n ↔
      (∀ c ∈ s, isDigit c = true) ∧ withSign negative (appendDigits k s) = n ∧ fits n = true := by
  induction s generalizing k with
  | nil =>
      simp only [readDigits, appendDigits, List.foldl_nil, Except.ok.injEq]
      constructor
      · rintro rfl
        exact ⟨nofun, rfl, h⟩
      · exact fun h => h.2.1
  | cons c s ih =>
      rw [readDigits, List.forall_mem_cons]
      by_cases hc : isDigit c = true
      · rw [if_pos hc]
        have hnext : (if negative then withSign negative k * 10 - ((c.toNat : ℤ) - '0'.toNat)
              else withSign negative k * 10 + ((c.toNat : ℤ) - '0'.toNat)) =
            withSign negative (k * 10 + (hexDigit? c).getD 0) := by
          rw [← digit_eq hc]
          cases negative <;> simp only [withSign, if_true, Bool.false_eq_true, if_false] <;>
            push_cast <;> ring
        have hlarger := le_appendDigits (k * 10 + (hexDigit? c).getD 0) s
        simp only [hnext]
        by_cases hfits : fits (withSign negative (k * 10 + (hexDigit? c).getD 0)) = true
        · obtain ⟨hlow, hhigh⟩ := fits_iff.mp hfits
          rw [if_neg (not_lt.mpr hlow), if_neg (not_lt.mpr hhigh), ih hfits]
          simp only [hc, true_and]
          rfl
        · have hrest : ¬((∀ c ∈ s, isDigit c = true) ∧
              withSign negative (appendDigits k (c :: s)) = n ∧ fits n = true) := by
            rintro ⟨-, rfl, hall⟩
            exact hfits (fits_of_le hlarger hall)
          simp only [hc, true_and, hrest, iff_false]
          rw [fits_iff] at hfits
          split
          · exact nofun
          · split
            · exact nofun
            · omega
      · rw [if_neg hc]
        simp [hc]

/-- A text is read if it spells an integer of 64 bits. -/
theorem read_eq_ok : read s = .ok n ↔ Spells s n ∧ fits n = true := by
  have hdigits (negative : Bool) (s : List Char) :
      readDigits negative 0 s = .ok n ↔ (∀ c ∈ s, isDigit c = true) ∧
        withSign negative (ofDigits 10 s) = n ∧ fits n = true := by
    have hstart : withSign negative 0 = 0 := by cases negative <;> rfl
    have hfits : fits (withSign negative 0) = true := by
      rw [hstart]
      decide
    rw [← hstart]
    exact readDigits_eq_ok hfits
  constructor
  · intro h
    unfold read at h
    split at h
    · cases h
    · cases h
    · cases h
    · next digits hne =>
        obtain ⟨hall, rfl, hfits⟩ := (hdigits _ _).mp h
        exact ⟨.minus ⟨fun hnil => hne (by rw [hnil]), hall⟩, hfits⟩
    · next digits hne =>
        obtain ⟨hall, rfl, hfits⟩ := (hdigits _ _).mp h
        exact ⟨.plus ⟨fun hnil => hne (by rw [hnil]), hall⟩, hfits⟩
    · next digits hne _ _ _ _ =>
        obtain ⟨hall, rfl, hfits⟩ := (hdigits _ _).mp h
        exact ⟨.plain ⟨fun hnil => hne hnil, hall⟩, hfits⟩
  · rintro ⟨h, hfits⟩
    cases h with
    | plain h =>
        obtain ⟨c, rest, rfl, -, hminus, hplus⟩ := h.head
        have hread : read (c :: rest) = readDigits false 0 (c :: rest) := by
          unfold read
          split
          all_goals simp_all
        rw [hread, hdigits]
        exact ⟨h.all, rfl, hfits⟩
    | plus h =>
        obtain ⟨c, rest, rfl, -⟩ := h.head
        have hread : read ('+' :: c :: rest) = readDigits false 0 (c :: rest) := rfl
        rw [hread, hdigits]
        exact ⟨h.all, rfl, hfits⟩
    | minus h =>
        obtain ⟨c, rest, rfl, -⟩ := h.head
        have hread : read ('-' :: c :: rest) = readDigits true 0 (c :: rest) := rfl
        rw [hread, hdigits]
        exact ⟨h.all, rfl, hfits⟩

end Integer

/-! ## Decimal fractions -/

namespace Real

open Exact Binary

/-- An exponent, or nothing at all. -/
inductive Exponent : List Char → ℤ → Prop
  | none : Exponent [] 0
  | some {c : Char} {s : List Char} {e : ℤ} (letter : c = 'e' ∨ c = 'E')
      (spelled : Integer.Spells s e) : Exponent (c :: s) e

/-- What decimal fraction `m · 10^e` a text spells: digits with a point or without, of which there
is at least one, and maybe an exponent. -/
inductive Decimal : List Char → ℕ → ℤ → Prop
  | whole {w t : List Char} {e : ℤ} (digits : Digits w) (exponent : Exponent t e) :
      Decimal (w ++ t) (ofDigits 10 w) e
  | point {w f t : List Char} {e : ℤ} (digits : Digits (w ++ f)) (exponent : Exponent t e) :
      Decimal (w ++ '.' :: (f ++ t)) (ofDigits 10 (w ++ f)) (e - f.length)

/-- What number a text without a sign spells. -/
inductive Unsigned : List Char → Exact → Prop
  | decimal {s : List Char} {m : ℕ} {e : ℤ} (spelled : Decimal s m e) :
      Unsigned s (of (m * 10 ^ e))
  | infinite {s : List Char} (name : s.map Char.toLower = "inf".toList ∨
      s.map Char.toLower = "infinity".toList) : Unsigned s (infinite false)
  | undefined {s : List Char} (name : s.map Char.toLower = "nan".toList) : Unsigned s undefined

/-- What number a text spells, with a sign or without. -/
inductive Spells : List Char → Exact → Prop
  | plain {s : List Char} {x : Exact} : Unsigned s x → Spells s x
  | plus {s : List Char} {x : Exact} : Unsigned s x → Spells ('+' :: s) x
  | minus {s : List Char} {x : Exact} : Unsigned s x → Spells ('-' :: s) x.neg

/-- An integer is a number. -/
theorem Spells.of_integer (h : Integer.Spells s n) : Spells s (of n) := by
  have hunsigned {s : List Char} (h : Digits s) : Unsigned s (of (ofDigits 10 s : ℕ)) := by
    have hdecimal := Unsigned.decimal (Decimal.whole h .none)
    rwa [List.append_nil, zpow_zero, mul_one] at hdecimal
  cases h with
  | plain h => exact .plain (hunsigned h)
  | plus h => exact .plus (hunsigned h)
  | minus h =>
      rw [Int.cast_neg]
      exact .minus (hunsigned h)

/-- The exponent is an integer of any size. -/
theorem readExponent?_eq_some : readExponent? s = some e ↔ Exponent s e := by
  have hdigits (negative : Bool) (digits : List Char) :
      (if digits.isEmpty = true ∨ ¬digits.all isDigit = true then none
        else some (if negative = true then -(ofDigits 10 digits : ℤ) else ofDigits 10 digits)) =
          some e ↔ Digits digits ∧ Integer.withSign negative (ofDigits 10 digits) = e := by
    have hall : ¬(digits.isEmpty = true ∨ ¬digits.all isDigit = true) ↔ Digits digits := by
      rw [not_or, not_not, List.isEmpty_iff, List.all_eq_true]
      exact ⟨fun h => ⟨h.1, h.2⟩, fun h => ⟨h.nonempty, h.all⟩⟩
    by_cases h : Digits digits
    · rw [if_neg (hall.mpr h), Option.some_inj]
      cases negative <;> simp [h, Integer.withSign]
    · rw [if_pos (not_not.mp (mt hall.mp h))]
      simp [h]
  constructor
  · intro h
    unfold readExponent? at h
    split at h
    · cases h
      exact .none
    · split at h
      · next hc =>
          dsimp only at h
          refine .some hc ?_
          split at h
          · obtain ⟨hspelled, rfl⟩ := (hdigits true _).mp h
            exact .minus hspelled
          · obtain ⟨hspelled, rfl⟩ := (hdigits false _).mp h
            exact .plus hspelled
          · obtain ⟨hspelled, rfl⟩ := (hdigits false _).mp h
            exact .plain hspelled
      · cases h
  · intro h
    cases h with
    | none => rfl
    | some letter spelled =>
        unfold readExponent?
        dsimp only
        rw [if_pos letter]
        cases spelled with
        | plain h =>
            obtain ⟨c, rest, rfl, -, hminus, hplus⟩ := h.head
            split
            · simp_all
            · simp_all
            · exact (hdigits false _).mpr ⟨h, rfl⟩
        | plus h => exact (hdigits false _).mpr ⟨h, rfl⟩
        | minus h => exact (hdigits true _).mpr ⟨h, rfl⟩

/-- Digits are told from what follows them, if that starts with none. -/
theorem span_digits {w t : List Char} (digits : ∀ c ∈ w, isDigit c = true)
    (stop : ∀ c ∈ t.head?, isDigit c = false) :
    (w ++ t).takeWhile isDigit = w ∧ (w ++ t).dropWhile isDigit = t := by
  rw [List.takeWhile_append_of_pos digits, List.dropWhile_append_of_pos digits]
  cases t with
  | nil => simp
  | cons c t => simp [stop c rfl]

theorem Exponent.stop {t : List Char} (h : Exponent t e) : ∀ c ∈ t.head?, isDigit c = false := by
  cases h with
  | none => exact nofun
  | some letter =>
      rintro c ⟨⟩
      rcases letter with rfl | rfl <;> decide

/-- A number has a digit before the point or after it. -/
theorem readDecimal?_eq_some {x : Float} :
    readDecimal? s = some x ↔ ∃ m e, Decimal s m e ∧ ofDecimal m e = x := by
  have hdigits {w f : List Char} (hw : ∀ c ∈ w, isDigit c = true)
      (hf : ∀ c ∈ f, isDigit c = true) : ¬(w.isEmpty = true ∧ f.isEmpty = true) ↔
        Digits (w ++ f) := by
    rw [List.isEmpty_iff, List.isEmpty_iff, ← List.append_eq_nil_iff]
    exact ⟨fun h => ⟨h, List.forall_mem_append.mpr ⟨hw, hf⟩⟩, fun h => h.nonempty⟩
  have hall (s : List Char) : ∀ c ∈ s.takeWhile isDigit, isDigit c = true :=
    fun c => List.mem_takeWhile_imp
  constructor
  · intro h
    unfold readDecimal? at h
    dsimp only at h
    have hs : s.takeWhile isDigit ++ s.dropWhile isDigit = s := List.takeWhile_append_dropWhile
    split at h
    · next after hafter =>
        rw [hafter] at hs
        split at h
        · cases h
        · next hne =>
            obtain ⟨e, he, rfl⟩ := Option.map_eq_some_iff.mp h
            refine ⟨_, _, ?_, rfl⟩
            have hpoint := Decimal.point ((hdigits (hall s) (hall after)).mp hne)
              (readExponent?_eq_some.mp he)
            rwa [List.takeWhile_append_dropWhile, hs] at hpoint
    · split at h
      · cases h
      · next hne =>
          obtain ⟨e, he, rfl⟩ := Option.map_eq_some_iff.mp h
          have hw := (hdigits (hall s) (f := []) nofun).mp hne
          rw [List.append_nil] at hw
          have hwhole := Decimal.whole hw (readExponent?_eq_some.mp he)
          rw [hs] at hwhole
          refine ⟨_, _, hwhole, ?_⟩
          rw [List.append_nil]
          simp
  · rintro ⟨m, e, h, rfl⟩
    unfold readDecimal?
    cases h with
    | whole digits exponent =>
        obtain ⟨htake, hdrop⟩ := span_digits digits.all exponent.stop
        have hne := (hdigits digits.all (f := []) nofun).mpr (by rwa [List.append_nil])
        dsimp only
        rw [htake, hdrop]
        split
        · cases exponent with
          | some letter => simp at letter
        · rw [if_neg hne, readExponent?_eq_some.mpr exponent]
          simp
    | @point w f t e digits exponent =>
        obtain ⟨hw, hf⟩ := List.forall_mem_append.mp digits.all
        obtain ⟨htake, hdrop⟩ := span_digits hf exponent.stop
        obtain ⟨hwhole, hrest⟩ := span_digits hw (t := '.' :: (f ++ t)) (by
          rintro c ⟨⟩
          decide)
        dsimp only
        rw [hwhole, hrest]
        simp only [htake, hdrop]
        rw [if_neg ((hdigits hw hf).mpr digits), readExponent?_eq_some.mpr exponent]
        rfl

/-! ## Signs and names -/

/-- Only letters change their case. -/
theorem toLower_eq (h : isDigit c = true ∨ c = '.' ∨ c = '-' ∨ c = '+') : c.toLower = c := by
  refine dif_neg fun hupper => ?_
  have hlow : 65 ≤ c.toNat := hupper.1
  rcases h with h | rfl | rfl | rfl
  · have hrange : '0' ≤ c ∧ c ≤ '9' := of_decide_eq_true h
    have hhigh : c.toNat ≤ 57 := hrange.2
    omega
  all_goals exact absurd hlow (by decide)

theorem Decimal.head (h : Decimal s m e) :
    ∃ c rest, s = c :: rest ∧ (isDigit c = true ∨ c = '.') := by
  cases h with
  | whole digits =>
      obtain ⟨c, rest, rfl, hc, -⟩ := digits.head
      exact ⟨c, _, rfl, .inl hc⟩
  | @point w f t e digits =>
      cases w with
      | nil => exact ⟨'.', _, rfl, .inr rfl⟩
      | cons c w => exact ⟨c, _, rfl, .inl (digits.all c List.mem_cons_self)⟩

theorem readUnsigned?_decimal (h : Decimal s m e) : readUnsigned? s = some (ofDecimal m e) := by
  obtain ⟨c, rest, rfl, hc⟩ := h.head
  have hlower : c.toLower = c := toLower_eq (hc.imp_right .inl)
  have hname {d : Char} {name : List Char} (hd : isDigit d = false ∧ d ≠ '.') :
      String.ofList ((c :: rest).map Char.toLower) ≠ String.ofList (d :: name) := by
    intro heq
    have hlist := String.ofList_injective heq
    rw [List.map_cons, hlower] at hlist
    obtain rfl : c = d := (List.cons.inj hlist).1
    rcases hc with hc | hc
    · rw [hd.1] at hc
      cases hc
    · exact hd.2 hc
  unfold readUnsigned?
  split
  · next heq => exact absurd heq (hname (by decide))
  · next heq => exact absurd heq (hname (by decide))
  · next heq => exact absurd heq (hname (by decide))
  · exact readDecimal?_eq_some.mpr ⟨m, e, h, rfl⟩

/-- A text that spells a number without a sign does not start with one. -/
theorem Unsigned.head {x : Exact} (h : Unsigned s x) :
    ∃ c rest, s = c :: rest ∧ c ≠ '-' ∧ c ≠ '+' := by
  have hname {d : Char} {name : List Char} (heq : s.map Char.toLower = d :: name)
      (hd : d ≠ '-' ∧ d ≠ '+') : ∃ c rest, s = c :: rest ∧ c ≠ '-' ∧ c ≠ '+' := by
    obtain ⟨c, rest, rfl, rfl, -⟩ := List.map_eq_cons_iff.mp heq
    refine ⟨c, rest, rfl, ?_, ?_⟩
    · rintro rfl
      exact hd.1 (toLower_eq (.inr (.inr (.inl rfl))))
    · rintro rfl
      exact hd.2 (toLower_eq (.inr (.inr (.inr rfl))))
  cases h with
  | decimal spelled =>
      obtain ⟨c, rest, rfl, hc⟩ := spelled.head
      refine ⟨c, rest, rfl, ?_, ?_⟩
      all_goals
        rintro rfl
        exact absurd hc (by decide)
  | infinite name =>
      rcases name with name | name
      · exact hname name (by decide)
      · exact hname name (by decide)
  | undefined name => exact hname name (by decide)

theorem ofFloat_infinity : ofFloat (1.0 / 0.0) = infinite false := by
  decide +kernel

theorem ofFloat_nan : ofFloat (0.0 / 0.0) = undefined := by
  decide +kernel

/-- A text without a sign is read as a nearest number. -/
theorem readUnsigned?_rounded {v : Exact} (h : Unsigned s v) :
    ∃ x, readUnsigned? s = some x ∧ Rounded .binary64 v (ofFloat x) := by
  have hname {name : String} (heq : s.map Char.toLower = name.toList) :
      String.ofList (s.map Char.toLower) = name := by
    rw [heq, String.ofList_toList]
  cases h with
  | decimal spelled => exact ⟨_, readUnsigned?_decimal spelled, ofFloat_ofDecimal _ _⟩
  | infinite name =>
      refine ⟨1.0 / 0.0, ?_, ofFloat_infinity ▸ .refl _ _⟩
      rcases name with name | name
      · simp [readUnsigned?, hname name]
      · simp [readUnsigned?, hname name]
  | undefined name =>
      refine ⟨0.0 / 0.0, ?_, ofFloat_nan ▸ .refl _ _⟩
      simp [readUnsigned?, hname name]

theorem exists_unsigned {x : Float} (h : readUnsigned? s = some x) : ∃ v, Unsigned s v := by
  have hname {name : String} (heq : String.ofList (s.map Char.toLower) = name) :
      s.map Char.toLower = name.toList := by
    rw [← heq, String.toList_ofList]
  unfold readUnsigned? at h
  split at h
  · next heq => exact ⟨_, .infinite (.inl (hname heq))⟩
  · next heq => exact ⟨_, .infinite (.inr (hname heq))⟩
  · next heq => exact ⟨_, .undefined (hname heq)⟩
  · obtain ⟨m, e, hspelled, -⟩ := readDecimal?_eq_some.mp h
    exact ⟨_, .decimal hspelled⟩

/-- A text is read as a nearest number to the one that it spells. -/
theorem read?_rounded {v : Exact} (h : Spells s v) :
    ∃ x, read? s = some x ∧ Rounded .binary64 v (ofFloat x) := by
  cases h with
  | plain h =>
      obtain ⟨x, hread, hrounded⟩ := readUnsigned?_rounded h
      obtain ⟨c, rest, rfl, hminus, hplus⟩ := h.head
      refine ⟨x, ?_, hrounded⟩
      rw [← hread]
      unfold read?
      split
      all_goals simp_all
  | plus h =>
      obtain ⟨x, hread, hrounded⟩ := readUnsigned?_rounded h
      exact ⟨x, hread, hrounded⟩
  | minus h =>
      obtain ⟨x, hread, hrounded⟩ := readUnsigned?_rounded h
      refine ⟨-x, congrArg (Option.map _) hread, ?_⟩
      rw [ofFloat_neg]
      exact hrounded.neg

/-- Only texts that spell a number are read. -/
theorem exists_spells {x : Float} (h : read? s = some x) : ∃ v, Spells s v := by
  unfold read? at h
  split at h
  · obtain ⟨y, hread, -⟩ := Option.map_eq_some_iff.mp h
    obtain ⟨v, hv⟩ := exists_unsigned hread
    exact ⟨_, .minus hv⟩
  · obtain ⟨v, hv⟩ := exists_unsigned h
    exact ⟨v, .plus hv⟩
  · obtain ⟨v, hv⟩ := exists_unsigned h
    exact ⟨v, .plain hv⟩

end Real

end Trellis.Text
