import Trellis.Color
import Trellis.Proofs.Number.Exact
import Trellis.Proofs.Text.Parts

/-!
# Colours as they are written

* `Color.Written` — which texts are colours: digits after `#`, or a name of the palette, with white
  space around them.
* `Color.parseSlices?` — the digits taken out of the text by positions in bytes, as UTF-8 has them.
* `Color.parse?_written` — exactly these texts are read, no cut fails, and what is printed is read
  again.
-/

namespace Trellis

namespace Text

/-- The ASCII characters that are hexadecimal digits. -/
def hexDigits : List Char := "0123456789abcdefABCDEF".toList

variable {c : Char} {n : ℕ} {digits name s : List Char}

theorem isHexDigit_iff : isHexDigit c = true ↔ c ∈ hexDigits := by
  constructor
  · intro h
    have hsmall : c.toNat < 128 := by
      by_contra hlarge
      have hhex : hexDigit? c = none := by
        have h9 : ¬c ≤ '9' := fun hle => hlarge (lt_of_le_of_lt hle (by decide))
        have hf : ¬c ≤ 'f' := fun hle => hlarge (lt_of_le_of_lt hle (by decide))
        have hF : ¬c ≤ 'F' := fun hle => hlarge (lt_of_le_of_lt hle (by decide))
        simp [hexDigit?, h9, hf, hF]
      simp [isHexDigit, hhex] at h
    have hall : ∀ n < 128, isHexDigit (Char.ofNat n) = true → Char.ofNat n ∈ hexDigits := by
      decide +kernel
    have hc := hall c.toNat hsmall
    rw [Char.ofNat_toNat] at hc
    exact hc h
  · have hall : hexDigits.all isHexDigit = true := by decide +kernel
    exact List.all_eq_true.mp hall c

/-- The value of a hexadecimal digit. -/
def hexValue (c : Char) : ℕ := (hexDigit? c).getD 0

theorem hexDigit?_eq (h : isHexDigit c = true) : hexDigit? c = some (hexValue c) := by
  obtain ⟨n, hn⟩ := Option.isSome_iff_exists.mp h
  rw [hexValue, hn]
  rfl

theorem hexValue_lt (h : isHexDigit c = true) : hexValue c < 16 := by
  have hall : hexDigits.all (hexValue · < 16) = true := by decide +kernel
  exact of_decide_eq_true (List.all_eq_true.mp hall c (isHexDigit_iff.mp h))

theorem hexDigit?_hexChar (h : n < 16) : hexDigit? (hexChar n) = some n :=
  (by decide +kernel : ∀ n < 16, hexDigit? (hexChar n) = some n) n h

/-- Digits are read if all of them are. -/
theorem mapM_hexDigit? (digits : List Char) :
    digits.mapM hexDigit? =
      if digits.all isHexDigit then some (digits.map hexValue) else none := by
  induction digits with
  | nil => rfl
  | cons c digits ih =>
      rw [List.mapM_cons, ih, List.all_cons]
      by_cases hc : isHexDigit c = true
      · by_cases hall : digits.all isHexDigit = true <;> simp [hc, hall, hexDigit?_eq hc]
      · have hnone : hexDigit? c = none := by simpa [isHexDigit] using hc
        simp [hc, hnone]

/-- A hexadecimal digit has one byte and is no white space. -/
theorem hexDigits_plain (h : c ∈ hexDigits) : c.utf8Size = 1 ∧ isBlank c = false := by
  have hall : hexDigits.all (fun c => c.utf8Size = 1 ∧ isBlank c = false) = true := by
    decide +kernel
  exact of_decide_eq_true (List.all_eq_true.mp hall c h)

/-- White space has no other case. -/
theorem toLower_of_isBlank (h : isBlank c = true) : c.toLower = c := by
  have hnot : ¬(c.val ≥ 'A'.val ∧ c.val ≤ 'Z'.val) := by
    rintro ⟨hlow, hhigh⟩
    have hlow' : 65 ≤ c.toNat := hlow
    have hhigh' : c.toNat ≤ 90 := hhigh
    simp only [isBlank, Bool.or_eq_true, Bool.and_eq_true, decide_eq_true_eq, beq_iff_eq] at h
    omega
  exact dif_neg hnot

end Text

namespace Color

open Text

/-- Two texts that differ in the case of their ASCII letters at most. -/
def SameName (s t : List Char) : Prop := s.map Char.toLower = t.map Char.toLower

/-- A colour as it is written. -/
inductive Form : List Char → Prop
  | digits {d : List Char} (hex : ∀ c ∈ d, c ∈ hexDigits)
      (count : d.length = 3 ∨ d.length = 6 ∨ d.length = 8) : Form ('#' :: d)
  | name {n : List Char} (entry : ∃ e ∈ palette, SameName n e.1.toList) : Form n

/-- A colour as it is written, with white space around it. -/
def Written (s : List Char) : Prop :=
  ∃ before body after, s = before ++ body ++ after ∧ Blank before ∧ Blank after ∧ Form body

/-! ## Taking the digits out by their positions -/

/-- Why no colour is read: the text is none, or it cannot be cut. -/
inductive Refusal
  | noColor
  | cut (error : SliceError)
  deriving DecidableEq

def Refusal.orElse {β : Type} : Option β → Except Refusal β
  | some b => .ok b
  | none => .error .noColor

/-- Reads a number of eight bits from hexadecimal digits, with a plus sign or without. -/
def byte? (s : List Char) : Option ℕ := do
  let digits := match s with
    | '+' :: digits => digits
    | digits => digits
  let values ← digits.mapM hexDigit?
  let n := values.foldl (fun n v => n * 16 + v) 0
  if digits = [] ∨ 255 < n then none else some n

/-- The channel whose two digits begin after `start` bytes. -/
def channel (digits : List Char) (start : ℕ) : Except Refusal ℕ := do
  let s ← (slice start 2 digits).mapError .cut
  Refusal.orElse (byte? s)

/-- Doubles each digit and puts it into its place among the channels. There may be no such place. -/
def doubled : ℕ → List ℕ → List Char → Except Refusal (List ℕ)
  | _, channels, [] => return channels
  | i, channels, c :: rest => do
    let v ← Refusal.orElse (hexDigit? c)
    if i < channels.length then doubled (i + 1) (channels.set i (v * 16 + v)) rest
    else .error (.cut .beyond)

variable {α : Type} [Number α]

/-- The colour spelled by the digits after `#`, by their positions in bytes. -/
def ofSlices (digits : List Char) : Except Refusal (Color α) :=
  if digits.all isHexDigit = true then
    match byteCount digits with
    | 3 => do
      match ← doubled 0 [0, 0, 0] digits with
      | [r, g, b] => return opaque8 r g b
      | _ => .error .noColor
    | 6 => return opaque8 (← channel digits 0) (← channel digits 2) (← channel digits 4)
    | 8 =>
      return ofBytes (← channel digits 0) (← channel digits 2) (← channel digits 4)
        (← channel digits 6)
    | _ => .error .noColor
  else .error .noColor

/-- Reads a colour, its digits by their positions in bytes. -/
def parseSlices (s : List Char) : Except Refusal (Color α) :=
  match trim s with
  | '#' :: digits => ofSlices digits
  | name => Refusal.orElse (ofName? name)

variable {digits name s : List Char} {c : Color α}

theorem singleBytes_of_all (h : ∀ c ∈ digits, isHexDigit c = true) : SingleBytes digits :=
  fun c hc => (hexDigits_plain (isHexDigit_iff.mp (h c hc))).1

/-- A sign is no hexadecimal digit, so none is skipped. -/
theorem byte?_pair {c d : Char} (hc : isHexDigit c = true) (hd : isHexDigit d = true) :
    byte? [c, d] = some (hexValue c * 16 + hexValue d) := by
  have hplus : c ≠ '+' := by
    rintro rfl
    exact absurd hc (by decide)
  have hlt := hexValue_lt hc
  have hlt' := hexValue_lt hd
  have hfits : ¬255 < hexValue c * 16 + hexValue d := by omega
  unfold byte?
  split
  · next h => exact absurd (List.cons.inj h).1 hplus
  · simp [hexDigit?_eq hc, hexDigit?_eq hd, hfits]

theorem channel_eq {start : ℕ} {c d : Char} {rest : List Char}
    (h : ∀ c ∈ digits, isHexDigit c = true) (hdrop : digits.drop start = c :: d :: rest) :
    channel digits start = .ok (hexValue c * 16 + hexValue d) := by
  have hlength := congrArg List.length hdrop
  have hmem (x : Char) (hx : x ∈ digits.drop start) : isHexDigit x = true :=
    h x (List.mem_of_mem_drop hx)
  rw [List.length_drop, List.length_cons, List.length_cons] at hlength
  rw [hdrop] at hmem
  have hpair := byte?_pair (hmem c (by simp)) (hmem d (by simp))
  rw [channel, slice_eq (singleBytes_of_all h) (by omega), hdrop]
  show Refusal.orElse (byte? [c, d]) = _
  rw [hpair]
  rfl

/-- The channels of a colour are bytes. -/
inductive OfBytes : Color α → Prop
  | intro {r g b a : ℕ} (hr : r < 256) (hg : g < 256) (hb : b < 256) (ha : a < 256) :
      OfBytes (ofBytes r g b a)

theorem ofHex?_of_not_all (h : ¬∀ c ∈ digits, isHexDigit c = true) :
    ofHex? digits = (none : Option (Color α)) := by
  rw [← List.all_eq_true] at h
  rw [ofHex?, mapM_hexDigit?, if_neg h]
  rfl

theorem ofHex?_of_length (h3 : digits.length ≠ 3) (h6 : digits.length ≠ 6)
    (h8 : digits.length ≠ 8) : ofHex? digits = (none : Option (Color α)) := by
  rw [ofHex?, mapM_hexDigit?]
  split
  · have hlength : (digits.map hexValue).length = digits.length := List.length_map ..
    simp only [Option.bind_eq_bind, Option.bind_some]
    split
    · next heq => exact absurd (by rw [← hlength, heq]; rfl) h3
    · next heq => exact absurd (by rw [← hlength, heq]; rfl) h6
    · next heq => exact absurd (by rw [← hlength, heq]; rfl) h8
    · rfl
  · rfl

theorem ofHex?_of_all (h : ∀ c ∈ digits, isHexDigit c = true) :
    ofHex? digits = (match digits.map hexValue with
      | [r, g, b] => some (opaque8 (r * 16 + r) (g * 16 + g) (b * 16 + b))
      | [r, r', g, g', b, b'] => some (opaque8 (r * 16 + r') (g * 16 + g') (b * 16 + b'))
      | [r, r', g, g', b, b', a, a'] =>
        some (ofBytes (r * 16 + r') (g * 16 + g') (b * 16 + b') (a * 16 + a'))
      | _ => none : Option (Color α)) := by
  rw [ofHex?, mapM_hexDigit?, if_pos (List.all_eq_true.mpr h)]
  rfl

/-- No cut fails, and cutting gives what the digits spell. -/
theorem ofSlices_eq (digits : List Char) :
    ofSlices digits = Refusal.orElse (ofHex? digits : Option (Color α)) := by
  by_cases h : ∀ c ∈ digits, isHexDigit c = true
  · have hcount := (singleBytes_of_all h).byteCount
    have hall := List.all_eq_true.mpr h
    rw [ofSlices, if_pos hall, hcount]
    split
    · next h3 =>
        obtain ⟨r, g, b, rfl⟩ := List.length_eq_three.mp h3
        have hr := hexDigit?_eq (h r (by simp))
        have hg := hexDigit?_eq (h g (by simp))
        have hb := hexDigit?_eq (h b (by simp))
        rw [ofHex?_of_all h, doubled, hr]
        simp only [Refusal.orElse, doubled, hg, hb]
        rfl
    · next h6 =>
        match digits, h6 with
        | [r, r', g, g', b, b'], _ =>
          rw [channel_eq h rfl, channel_eq h rfl, channel_eq h rfl, ofHex?_of_all h]
          rfl
    · next h8 =>
        match digits, h8 with
        | [r, r', g, g', b, b', a, a'], _ =>
          rw [channel_eq h rfl, channel_eq h rfl, channel_eq h rfl, channel_eq h rfl,
            ofHex?_of_all h]
          rfl
    · next h3 h6 h8 =>
        rw [ofHex?_of_length h3 h6 h8]
        rfl
  · have hall := mt List.all_eq_true.mp h
    rw [ofSlices, if_neg hall, ofHex?_of_not_all h]
    rfl

/-! ## What is read -/

theorem ofHex?_isSome_iff : (ofHex? digits : Option (Color α)).isSome = true ↔
    (∀ c ∈ digits, c ∈ hexDigits) ∧
      (digits.length = 3 ∨ digits.length = 6 ∨ digits.length = 8) := by
  constructor
  · intro h
    constructor
    · intro c hc
      by_contra hnot
      have hall : ¬∀ c ∈ digits, isHexDigit c = true :=
        fun hall => hnot (isHexDigit_iff.mp (hall c hc))
      rw [ofHex?_of_not_all hall] at h
      cases h
    · by_contra hnot
      rw [not_or, not_or] at hnot
      rw [ofHex?_of_length hnot.1 hnot.2.1 hnot.2.2] at h
      cases h
  · rintro ⟨hall, hlength⟩
    rw [ofHex?_of_all fun c hc => isHexDigit_iff.mpr (hall c hc)]
    rcases hlength with h | h | h
    · obtain ⟨r, g, b, rfl⟩ := List.length_eq_three.mp h
      rfl
    · match digits, h with
      | [_, _, _, _, _, _], _ => rfl
    · match digits, h with
      | [_, _, _, _, _, _, _, _], _ => rfl

/-- The names of the palette are spelled in lower-case letters. -/
theorem palette_letters {e : String × ℕ} (h : e ∈ palette) :
    ∀ c ∈ e.1.toList, c ≠ '#' ∧ isBlank c = false ∧ c.toLower = c := by
  have hall : (palette.all fun e => e.1.toList.all fun c =>
      c ≠ '#' ∧ isBlank c = false ∧ c.toLower = c) = true := by
    decide +kernel
  exact fun c hc => of_decide_eq_true (List.all_eq_true.mp (List.all_eq_true.mp hall e h) c hc)

theorem sameName_iff {e : String × ℕ} (h : e ∈ palette) :
    SameName name e.1.toList ↔ e.1 = String.ofList (name.map Char.toLower) := by
  have hlower : e.1.toList.map Char.toLower = e.1.toList :=
    (List.map_congr_left fun c hc => (palette_letters h c hc).2.2).trans (List.map_id _)
  rw [SameName, hlower]
  constructor
  · intro hname
    rw [hname, String.ofList_toList]
  · intro hname
    rw [hname, String.toList_ofList]

theorem ofName?_isSome_iff : (ofName? name : Option (Color α)).isSome = true ↔
    ∃ e ∈ palette, SameName name e.1.toList := by
  rw [ofName?, Option.isSome_map, List.find?_isSome]
  constructor
  · rintro ⟨e, he, hname⟩
    exact ⟨e, he, (sameName_iff he).mpr (by simpa using hname)⟩
  · rintro ⟨e, he, hname⟩
    exact ⟨e, he, by simpa using (sameName_iff he).mp hname⟩

/-- A name has no white space in it and no `#`. -/
theorem SameName.plain {e : String × ℕ} (he : e ∈ palette) (h : SameName name e.1.toList) :
    ∀ c ∈ name, c ≠ '#' ∧ isBlank c = false := by
  intro c hc
  have hmem : c.toLower ∈ e.1.toList := by
    have hlower := (sameName_iff he).mp h
    rw [hlower, String.toList_ofList]
    exact List.mem_map_of_mem hc
  obtain ⟨hhash, hblank, -⟩ := palette_letters he _ hmem
  constructor
  · rintro rfl
    exact hhash rfl
  · by_contra hnot
    rw [toLower_of_isBlank (by simpa using hnot)] at hblank
    exact hnot hblank

theorem Form.not_blank (h : Form s) : ∀ c ∈ s, isBlank c = false := by
  cases h with
  | digits hex _ =>
      intro c hc
      rcases List.mem_cons.mp hc with rfl | hc
      · decide
      · exact (hexDigits_plain (hex c hc)).2
  | name entry =>
      obtain ⟨e, he, hname⟩ := entry
      exact fun c hc => (hname.plain he c hc).2

theorem parseChars?_isSome_iff :
    (parseChars? s : Option (Color α)).isSome = true ↔ Form (trim s) := by
  rw [parseChars?]
  split
  · next digits heq =>
      rw [heq, ofHex?_isSome_iff]
      constructor
      · rintro ⟨hex, count⟩
        exact .digits hex count
      · intro h
        generalize htext : '#' :: digits = text at h
        cases h with
        | digits hex count =>
            cases htext
            exact ⟨hex, count⟩
        | name entry =>
            obtain ⟨e, he, hname⟩ := entry
            exact absurd rfl (hname.plain he '#' (by simp [← htext])).1
  · next hne =>
      rw [ofName?_isSome_iff]
      constructor
      · exact .name
      · intro h
        generalize htext : trim s = text at h hne ⊢
        cases h with
        | digits hex count => exact absurd rfl (hne _)
        | name entry => exact entry

theorem form_trim_iff : Form (trim s) ↔ Written s := by
  constructor
  · intro h
    obtain ⟨before, after, heq, hbefore, hafter⟩ := exists_padding s
    exact ⟨before, trim s, after, heq, hbefore, hafter, h⟩
  · rintro ⟨before, body, after, rfl, hbefore, hafter, h⟩
    rwa [trim_padded hbefore hafter h.not_blank]

theorem parseSlices_eq (s : List Char) :
    parseSlices s = Refusal.orElse (parseChars? s : Option (Color α)) := by
  rw [parseSlices]
  split
  · next digits hdigits =>
      rw [parseChars?, hdigits]
      exact ofSlices_eq digits
  · next hname =>
      rw [parseChars?]
      split
      · next digits hdigits => exact absurd hdigits (hname digits)
      · rfl

/-! ## What is printed -/

theorem ofBytes_of_ofHex? (h : ofHex? digits = some c) : OfBytes c := by
  have hisSome : (ofHex? digits : Option (Color α)).isSome = true := by rw [h]; rfl
  have hall : ∀ c ∈ digits, isHexDigit c = true :=
    fun c hc => isHexDigit_iff.mpr ((ofHex?_isSome_iff.mp hisSome).1 c hc)
  have hvalue : ∀ n ∈ digits.map hexValue, n < 16 := by
    intro n hn
    obtain ⟨c, hc, rfl⟩ := List.mem_map.mp hn
    exact hexValue_lt (hall c hc)
  rw [ofHex?_of_all hall] at h
  split at h
  · next heq =>
      simp only [heq, List.forall_mem_cons] at hvalue
      cases h
      exact .intro (by omega) (by omega) (by omega) (by omega)
  · next heq =>
      simp only [heq, List.forall_mem_cons] at hvalue
      cases h
      exact .intro (by omega) (by omega) (by omega) (by omega)
  · next heq =>
      simp only [heq, List.forall_mem_cons] at hvalue
      cases h
      exact .intro (by omega) (by omega) (by omega) (by omega)
  · cases h

theorem ofBytes_of_parse? {s : String} (h : parse? s = some c) : OfBytes c := by
  rw [parse?, parseChars?] at h
  split at h
  · exact ofBytes_of_ofHex? h
  · rw [ofName?] at h
    obtain ⟨e, -, rfl⟩ := Option.map_eq_some_iff.mp h
    exact .intro (Nat.mod_lt _ (by decide)) (Nat.mod_lt _ (by decide))
      (Nat.mod_lt _ (by decide)) (by decide)

/-- Two digits are the byte they are printed for. -/
theorem toHex_two (n : ℕ) : toHex 2 n = [hexChar (n / 16 % 16), hexChar (n % 16)] := rfl

/-- A colour whose channels are bytes is read again from what is printed for it, provided that the
arithmetic finds these bytes again. -/
theorem parse?_text (hbyte : ∀ n < 256, channelByte (Number.natural n / 255 : α) = n)
    (h : OfBytes c) : parse? c.text = some c := by
  cases h with
  | @intro r g b a hr hg hb ha =>
      let digits := toHex 2 r ++ toHex 2 g ++ toHex 2 b ++ toHex 2 a
      have htext : (ofBytes r g b a : Color α).text.toList = '#' :: digits := by
        rw [text, String.toList_ofList, textChars, ofBytes]
        simp only [List.map_cons, List.map_nil, hbyte r hr, hbyte g hg, hbyte b hb, hbyte a ha]
        rfl
      have hchar (n : ℕ) : hexDigit? (hexChar (n % 16)) = some (n % 16) :=
        hexDigit?_hexChar (Nat.mod_lt _ (by decide))
      have hsplit {n : ℕ} (hn : n < 256) : n / 16 % 16 * 16 + n % 16 = n := by omega
      have hread : ofHex? digits = some (ofBytes r g b a : Color α) := by
        simp only [ofHex?, digits, toHex_two, List.cons_append, List.nil_append, List.mapM_cons,
          List.mapM_nil, hchar, Option.bind_eq_bind, Option.bind_some, Option.pure_def,
          hsplit hr, hsplit hg, hsplit hb, hsplit ha]
      have hform : Form ('#' :: digits) := by
        have hisSome := ofHex?_isSome_iff.mp (by rw [hread]; rfl)
        exact .digits hisSome.1 hisSome.2
      have htrim : trim ('#' :: digits) = '#' :: digits := by
        have hpadded : trim ([] ++ '#' :: digits ++ []) = '#' :: digits :=
          trim_padded nofun nofun hform.not_blank
        rwa [List.nil_append, List.append_nil] at hpadded
      rw [parse?, htext, parseChars?, htrim]
      exact hread

/-- Exact arithmetic finds the byte of a channel again. -/
theorem channelByte_exact {n : ℕ} (h : n < 256) :
    channelByte (Number.natural n / 255 : Exact) = n := by
  let q : ℚ := n / 255
  have hdiv : (Number.natural n / 255 : Exact) = .of q := by
    show Exact.div (.of n) (.of (255 : ℕ)) = _
    rw [Exact.div, if_neg (by norm_num)]
    norm_num [q]
  have hq0 : 0 ≤ q := by positivity
  have hq1 : q ≤ 1 := by
    have hle : (n : ℚ) ≤ 255 := by exact_mod_cast Nat.le_of_lt_succ h
    rw [div_le_one (by norm_num)]
    exact hle
  have hunit : Number.unit (Exact.of q) = .of q := by
    have hlow : ¬(Exact.of q < 0) := by
      show ¬(decide (q < (0 : ℕ)) = true)
      simpa using hq0
    have hhigh : ¬(1 < Exact.of q) := by
      show ¬(decide ((1 : ℕ) < q) = true)
      simpa using hq1
    rw [Number.unit, if_neg hlow, if_neg hhigh]
  have hmul : (Exact.of q * 255 : Exact) = .of n := by
    show Exact.of (q * (255 : ℕ)) = _
    congr 1
    simp [q]
  rw [channelByte, hdiv, hunit, hmul]
  show min 255 ⌊(n : ℚ) + 1 / 2⌋.toNat = n
  have hfloor : ⌊(n : ℚ) + 1 / 2⌋ = n := by
    rw [Int.floor_natCast_add]
    norm_num
  rw [hfloor, Int.toNat_natCast]
  omega

/-- Exactly the texts that are written like a colour are read. Taking the digits out by their
positions in bytes never cuts a text where it has no such position, and gives the same colour. A
colour that is read is read again from what is printed for it. -/
theorem parse?_written (s : String) :
    (∀ (α : Type) [Number α], (∃ c : Color α, parse? s = some c) ↔ Written s.toList) ∧
      (∀ (α : Type) [Number α],
        parseSlices s.toList = Refusal.orElse (parse? s : Option (Color α))) ∧
      (parse? s : Option (Color Exact)).bind (fun c => parse? c.text) =
        (parse? s : Option (Color Exact)) := by
  refine ⟨?_, ?_, ?_⟩
  · intro α _
    rw [← form_trim_iff, ← parseChars?_isSome_iff (α := α), Option.isSome_iff_exists]
    rfl
  · intro α _
    exact parseSlices_eq s.toList
  · cases h : (parse? s : Option (Color Exact)) with
    | none => rfl
    | some c =>
        rw [Option.bind_some]
        exact parse?_text (fun n => channelByte_exact) (ofBytes_of_parse? h)

end Color

end Trellis
