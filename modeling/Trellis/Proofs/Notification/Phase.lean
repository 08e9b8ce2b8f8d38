import Trellis.Proofs.Notification.Still

/-!
# The order of what happens to a binding

The entries about one binding come in a fixed order: a change of it opens a round, a round calls its
watchers one after another, each call comes to its end before the next begins, and a round that saw
another change is followed by another round. `Phase.next` is that order, as a machine that reads a
history.

* `Phase.follow_append` — a history is read piece by piece.
* `Phase.exists_close` — a history that ends between the rounds ends the round it begins in.
* `Phase.fulfilled_of_follow` — what a round is followed by.
* `Phase.countP_rounds_of_changed` — a binding that changes once is told of in one round.
-/

namespace Trellis

/-- Whether an entry begins or ends the call of a watcher for a binding. -/
def Entry.isCallFor (b : BindingId) : Entry → Bool
  | .called _ c | .returned _ c => c = b
  | _ => false

/-- Whether an entry begins a round of a binding or ends its rounds. -/
def Entry.closes (b : BindingId) : Entry → Bool
  | .round c _ | .settled c => c = b
  | _ => false

/-- Whether an entry begins a round of a binding. -/
def Entry.isRoundOf (b : BindingId) : Entry → Bool
  | .round c _ => c = b
  | _ => false

/-- The calls of watchers for a binding, one after another. -/
def Entry.calls (b : BindingId) (watchers : List WatcherId) : List Entry :=
  watchers.flatMap fun x => [.called x b, .returned x b]

/-- What follows the entry that begins a round. Its watchers are called one after another, nobody
else is called for the binding, and no other round of it begins until they are done. Then the rounds
of the binding end, or there is another one if the binding changed meanwhile. -/
def Entry.Fulfilled (b : BindingId) (watchers : List WatcherId) (later : List Entry) : Prop :=
  ∃ during close rest, later = during ++ close :: rest ∧
    during.filter (Entry.isCallFor b) = Entry.calls b watchers ∧
    (∀ entry ∈ during, entry.closes b = false) ∧
    (close = .settled b ∧ .changed b ∉ during ∨
      ∃ next, close = .round b next ∧ .changed b ∈ during)

/-- An entry about something else. -/
theorem Entry.foreign {b : BindingId} {entry : Entry} (h : entry.binding? ≠ some b) :
    entry.isCallFor b = false ∧ entry.closes b = false ∧ .changed b ≠ entry := by
  cases entry with
  | note line => simp [isCallFor, closes]
  | edited m => simp [isCallFor, closes]
  | changed c =>
      have hne : c ≠ b := by simpa [binding?] using h
      simp [isCallFor, closes, hne.symm]
  | round c ws =>
      have hne : c ≠ b := by simpa [binding?] using h
      simp [isCallFor, closes, hne]
  | called x c =>
      have hne : c ≠ b := by simpa [binding?] using h
      simp [isCallFor, closes, hne]
  | returned x c =>
      have hne : c ≠ b := by simpa [binding?] using h
      simp [isCallFor, closes, hne]
  | settled c =>
      have hne : c ≠ b := by simpa [binding?] using h
      simp [isCallFor, closes, hne]

/-- How far the telling of a binding has come. -/
inductive Phase
  /-- Nobody is being told. -/
  | idle
  /-- The watchers to call before the round ends, and whether there will be another round. -/
  | ready (rest : List WatcherId) (again : Bool)
  /-- The watcher that is being called, the watchers to call after it, and whether there will be
  another round. -/
  | within (x : WatcherId) (rest : List WatcherId) (again : Bool)
  deriving DecidableEq

namespace Phase

/-- The phase after an entry about the binding, if the entry may come in this phase. -/
def next : Phase → Entry → Option Phase
  | .idle, .changed _ => some (.ready [] true)
  | .ready [] true, .round _ watchers => some (.ready watchers false)
  | .ready [] false, .settled _ => some .idle
  | .ready (x :: rest) again, .called y _ => if x = y then some (.within x rest again) else none
  | .within x rest _, .changed _ => some (.within x rest true)
  | .within x rest again, .returned y _ => if x = y then some (.ready rest again) else none
  | _, _ => none

/-- The phase of a binding after an entry. -/
def step (b : BindingId) (p : Phase) (entry : Entry) : Option Phase :=
  if entry.binding? = some b then p.next entry else some p

/-- The phase of a binding after a stretch of history. -/
def follow (b : BindingId) (p : Phase) (entries : List Entry) : Option Phase :=
  entries.foldlM (step b) p

/-- Whether there will be another round. -/
def again : Phase → Bool
  | .idle => false
  | .ready _ again | .within _ _ again => again

/-- The calls that are left to the round. -/
def owed (b : BindingId) : Phase → List Entry
  | .idle => []
  | .ready rest _ => Entry.calls b rest
  | .within x rest _ => .returned x b :: Entry.calls b rest

variable {b : BindingId} {p q : Phase}

/-! ## Reading a history -/

theorem follow_append (front back : List Entry) :
    follow b p (front ++ back) = (follow b p front).bind (follow b · back) :=
  List.foldlM_append ..

theorem follow_append_of_eq {front : List Entry} (h : follow b p front = some q)
    (back : List Entry) : follow b p (front ++ back) = follow b q back := by
  rw [follow_append, h]
  rfl

theorem follow_cons (entry : Entry) (rest : List Entry) :
    follow b p (entry :: rest) = (p.step b entry).bind (follow b · rest) :=
  List.foldlM_cons ..

theorem step_of_eq {entry : Entry} (h : entry.binding? = some b) :
    p.step b entry = p.next entry := by
  rw [step, if_pos h]

theorem step_of_ne {entry : Entry} (h : entry.binding? ≠ some b) : p.step b entry = some p := by
  rw [step, if_neg h]

/-- Entries about no binding leave the phase alone. -/
theorem follow_of_ne {entries : List Entry} (h : ∀ entry ∈ entries, entry.binding? ≠ some b) :
    follow b p entries = some p := by
  induction entries with
  | nil => rfl
  | cons entry rest ih =>
      rw [follow_cons, step_of_ne (h entry List.mem_cons_self)]
      exact ih fun e he => h e (List.mem_cons_of_mem entry he)

/-- The phase in the middle of a history. -/
theorem exists_step_of_follow {before after : List Entry} {entry : Entry}
    (h : follow b p (before ++ entry :: after) = some q) :
    ∃ u v, follow b p before = some u ∧ u.step b entry = some v ∧ follow b v after = some q := by
  rw [follow_append] at h
  obtain ⟨u, hu, h⟩ := Option.bind_eq_some_iff.mp h
  rw [follow_cons] at h
  obtain ⟨v, hv, h⟩ := Option.bind_eq_some_iff.mp h
  exact ⟨u, v, hu, hv, h⟩

/-! ## What one entry says about the phases around it -/

theorem eq_of_step_round {watchers : List WatcherId}
    (h : p.step b (.round b watchers) = some q) : q = .ready watchers false := by
  rw [step_of_eq rfl] at h
  unfold next at h
  split at h <;> simp_all

theorem again_of_step_changed (h : p.step b (.changed b) = some q) : q.again = true := by
  rw [step_of_eq rfl] at h
  unfold next at h
  split at h <;> simp_all <;> subst h <;> rfl

/-- An entry about the binding either closes the round, which has nothing left to call, or makes
some way in it. -/
theorem next_cases {entry : Entry} (hb : entry.binding? = some b) (hp : p ≠ .idle)
    (h : p.next entry = some q) :
    (p.owed b = [] ∧ entry.closes b = true ∧
      (entry = .settled b ∧ p.again = false ∨ ∃ ws, entry = .round b ws ∧ p.again = true)) ∨
    (q ≠ .idle ∧ entry.closes b = false ∧
      [entry].filter (Entry.isCallFor b) ++ q.owed b = p.owed b ∧
      (q.again = true ↔ p.again = true ∨ entry = .changed b)) := by
  unfold next at h
  split at h
  · exact absurd rfl hp
  · simp only [Entry.binding?, Option.some.injEq] at hb
    subst hb
    exact .inl ⟨rfl, by simp [Entry.closes], .inr ⟨_, rfl, rfl⟩⟩
  · simp only [Entry.binding?, Option.some.injEq] at hb
    subst hb
    exact .inl ⟨rfl, by simp [Entry.closes], .inl ⟨rfl, rfl⟩⟩
  · simp only [Entry.binding?, Option.some.injEq] at hb
    split_ifs at h with hx
    cases h
    subst hb hx
    exact .inr ⟨by simp, rfl, by simp [Entry.isCallFor, owed, Entry.calls], by simp [again]⟩
  · simp only [Entry.binding?, Option.some.injEq] at hb
    cases h
    subst hb
    exact .inr ⟨by simp, rfl, by simp [Entry.isCallFor, owed], by simp [again]⟩
  · simp only [Entry.binding?, Option.some.injEq] at hb
    split_ifs at h with hx
    cases h
    subst hb hx
    exact .inr ⟨by simp, rfl, by simp [Entry.isCallFor, owed], by simp [again]⟩
  · cases h

/-! ## How a round ends -/

/-- A history that begins in a round and ends outside of any closes that round: what was left to
call is called, and the entry that closes it tells whether the binding changed meanwhile. -/
theorem exists_close {entries : List Entry} (hp : p ≠ .idle)
    (h : follow b p entries = some .idle) :
    ∃ during close rest, entries = during ++ close :: rest ∧
      during.filter (Entry.isCallFor b) = p.owed b ∧
      (∀ entry ∈ during, entry.closes b = false) ∧
      (close = .settled b ∧ p.again = false ∧ .changed b ∉ during ∨
        ∃ next, close = .round b next ∧ (p.again = true ∨ .changed b ∈ during)) := by
  induction entries generalizing p with
  | nil =>
      cases h
      exact absurd rfl hp
  | cons entry entries ih =>
      rw [follow_cons] at h
      obtain ⟨q, hq, h⟩ := Option.bind_eq_some_iff.mp h
      by_cases hb : entry.binding? = some b
      · rw [step_of_eq hb] at hq
        -- The entry closes the round at once, or the stretch goes on with it.
        rcases next_cases hb hp hq with ⟨howed, -, hclose⟩ | ⟨hqi, hopen, howed, hagain⟩
        · refine ⟨[], entry, entries, rfl, howed.symm, by simp, ?_⟩
          rcases hclose with ⟨hsettled, hno⟩ | ⟨ws, hround, hyes⟩
          · exact .inl ⟨hsettled, hno, by simp⟩
          · exact .inr ⟨ws, hround, .inl hyes⟩
        · obtain ⟨during, close, rest, rfl, hcalls, hnone, hclose⟩ := ih hqi h
          refine ⟨entry :: during, close, rest, rfl, ?_, ?_, ?_⟩
          · rw [← List.singleton_append, List.filter_append, hcalls, howed]
          · intro e he
            rcases List.mem_cons.mp he with rfl | he
            · exact hopen
            · exact hnone e he
          · rcases hclose with ⟨hsettled, hno, hsame⟩ | ⟨ws, hround, hyes⟩
            · -- No change is left to tell, so this entry was none either.
              rw [← Bool.not_eq_true, hagain, not_or, Bool.not_eq_true] at hno
              refine .inl ⟨hsettled, hno.1, ?_⟩
              intro hmem
              rcases List.mem_cons.mp hmem with heq | hmem
              · exact hno.2 heq.symm
              · exact hsame hmem
            · refine .inr ⟨ws, hround, ?_⟩
              rcases hyes with hyes | hmem
              · rcases hagain.mp hyes with hyes | heq
                · exact .inl hyes
                · exact .inr (List.mem_cons.mpr (.inl heq.symm))
              · exact .inr (List.mem_cons_of_mem _ hmem)
      · -- An entry about something else belongs to the stretch, and changes nothing.
        rw [step_of_ne hb, Option.some.injEq] at hq
        subst hq
        obtain ⟨during, close, rest, rfl, hcalls, hnone, hclose⟩ := ih hp h
        obtain ⟨hcall, hopen, hchanged⟩ := Entry.foreign hb
        refine ⟨entry :: during, close, rest, rfl, ?_, ?_, ?_⟩
        · rw [List.filter_cons_of_neg (by simp [hcall]), hcalls]
        · intro e he
          rcases List.mem_cons.mp he with rfl | he
          · exact hopen
          · exact hnone e he
        · have hmem : .changed b ∈ entry :: during ↔ .changed b ∈ during := by
            rw [List.mem_cons, or_iff_right hchanged]
          rw [hmem]
          exact hclose

/-- What a round is followed by, in a history that ends outside of any. -/
theorem fulfilled_of_follow {before later : List Entry} {watchers : List WatcherId}
    (h : follow b p (before ++ .round b watchers :: later) = some .idle) :
    Entry.Fulfilled b watchers later := by
  obtain ⟨u, v, -, hv, hlater⟩ := exists_step_of_follow h
  -- Whatever the phase was, it is a round with all its watchers now.
  have hready := eq_of_step_round hv
  subst hready
  obtain ⟨during, close, rest, heq, hcalls, hnone, hclose⟩ := exists_close (by simp) hlater
  refine ⟨during, close, rest, heq, hcalls, hnone, ?_⟩
  rcases hclose with ⟨hsettled, -, hsame⟩ | ⟨next, hround, hyes⟩
  · exact .inl ⟨hsettled, hsame⟩
  · exact .inr ⟨next, hround, hyes.resolve_left (by simp [again])⟩

/-- A change is followed by a round, in a history that ends outside of any. -/
theorem exists_round_of_changed {before later : List Entry}
    (h : follow b p (before ++ .changed b :: later) = some .idle) :
    ∃ during watchers rest, later = during ++ .round b watchers :: rest := by
  obtain ⟨u, v, -, hv, hlater⟩ := exists_step_of_follow h
  have hagain := again_of_step_changed hv
  have hidle : v ≠ .idle := by
    rintro rfl
    exact absurd hagain (by simp [again])
  obtain ⟨during, close, rest, heq, -, -, hclose⟩ := exists_close hidle hlater
  rcases hclose with ⟨-, hno, -⟩ | ⟨watchers, rfl, -⟩
  · rw [hagain] at hno
    cases hno
  · exact ⟨during, watchers, rest, heq⟩

/-! ## How many rounds there are -/

/-- An entry that begins a round uses up a change. -/
theorem step_rounds {entry : Entry} (h : p.step b entry = some q) :
    (entry.isRoundOf b).toNat + q.again.toNat ≤
      (decide (entry = .changed b)).toNat + p.again.toNat := by
  by_cases hb : entry.binding? = some b
  · rw [step_of_eq hb] at h
    unfold next at h
    split at h <;> simp_all [Entry.isRoundOf, Entry.binding?] <;> grind [again]
  · rw [step_of_ne hb, Option.some.injEq] at h
    subst h
    cases entry <;> simp_all [Entry.isRoundOf, Entry.binding?]

/-- There are no more rounds than changes. The induction is on the history. -/
theorem countP_rounds_le {entries : List Entry} (h : follow b p entries = some q) :
    entries.countP (Entry.isRoundOf b) + q.again.toNat ≤
      entries.count (.changed b) + p.again.toNat := by
  induction entries generalizing p with
  | nil =>
      cases h
      simp
  | cons entry entries ih =>
      rw [follow_cons] at h
      obtain ⟨u, hu, h⟩ := Option.bind_eq_some_iff.mp h
      have hstep := step_rounds hu
      have hrest := ih h
      have hround : (entry :: entries).countP (Entry.isRoundOf b) =
          entries.countP (Entry.isRoundOf b) + (entry.isRoundOf b).toNat := by
        rw [List.countP_cons]
        cases entry.isRoundOf b <;> rfl
      have hchanged : (entry :: entries).count (.changed b) =
          entries.count (.changed b) + (decide (entry = .changed b)).toNat := by
        rw [List.count_cons]
        by_cases heq : entry = .changed b <;> simp [heq]
      omega

/-- A binding that changes once is told of in one round. -/
theorem countP_rounds_of_changed {before later : List Entry}
    (h : follow b .idle (before ++ .changed b :: later) = some .idle)
    (before_unchanged : .changed b ∉ before) (later_unchanged : .changed b ∉ later) :
    (before ++ .changed b :: later).countP (Entry.isRoundOf b) = 1 := by
  have hle := countP_rounds_le h
  rw [List.count_append, List.count_cons_self, List.count_eq_zero.mpr before_unchanged,
    List.count_eq_zero.mpr later_unchanged] at hle
  have hpos : 0 < (before ++ .changed b :: later).countP (Entry.isRoundOf b) := by
    obtain ⟨during, watchers, rest, rfl⟩ := exists_round_of_changed h
    exact List.countP_pos_iff.mpr ⟨.round b watchers, by simp, by simp [Entry.isRoundOf]⟩
  simp only [again, Bool.toNat_false] at hle
  omega

/-- A binding that does not change is told of in no round. -/
theorem countP_rounds_of_unchanged {entries : List Entry} (h : follow b .idle entries = some q)
    (unchanged : .changed b ∉ entries) : entries.countP (Entry.isRoundOf b) = 0 := by
  have hle := countP_rounds_le h
  rw [List.count_eq_zero.mpr unchanged] at hle
  simp only [again, Bool.toNat_false] at hle
  omega

end Phase

end Trellis
