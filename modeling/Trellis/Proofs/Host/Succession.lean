import Trellis.Proofs.Host.Lifecycle
import Trellis.Proofs.Host.Tasks

/-!
# How a view takes over

A view that is set takes over with the next frame, and frames try to prepare it until that succeeds,
however often it fails. There is one exception: if the view before it cannot be destroyed, both are
let go of, and nothing is shown until another view is set.

* `HostEntry.visits` — the calls on a view, each with the view that is shown at that moment.
* `Succession` — what comes of frames once a view has been set.
* `Ledger.billing` — which view is shown and which one waits. `Framed.debut`, `Framed.stays` and
  `Framed.vacant` tell what a frame makes of it.
* `HostStep.play_succession` — every view that is set takes over like that.
-/

namespace Trellis

variable {κ ρ ν χ ε δ τ : Type}

namespace HostEntry

/-- The calls on a view, each with the view that was shown then. -/
def visits (n : Nat) (entries : List (HostEntry χ τ)) : List (ViewCall × Option Nat) :=
  entries.filterMap fun
    | .called m call shown => if m = n then some (call, shown) else none
    | _ => none

/-- A view could not be destroyed. -/
def Clings (entries : List (HostEntry χ τ)) : Prop :=
  ∃ m shown, (.destroyed false, shown) ∈ visits m entries

variable {n m : Nat} {entries later last : List (HostEntry χ τ)} {call : ViewCall}
  {shown : Option Nat} {calls more : List (ViewCall × Option Nat)}

theorem visits_append : visits n (entries ++ later) = visits n entries ++ visits n later :=
  List.filterMap_append

theorem clings_append : Clings (entries ++ later) ↔ Clings entries ∨ Clings later := by
  simp only [Clings, visits_append, List.mem_append, exists_or]

theorem visits_called :
    visits n [(.called m call shown : HostEntry χ τ)] = if m = n then [(call, shown)] else [] := by
  by_cases h : m = n <;> simp [visits, h]

theorem clings_called :
    Clings [(.called m call shown : HostEntry χ τ)] ↔ call = .destroyed false := by
  constructor
  · rintro ⟨k, shown', h⟩
    rw [visits_called] at h
    split at h
    · cases List.mem_singleton.mp h
      rfl
    · cases h
  · rintro rfl
    exact ⟨m, shown, by simp [visits_called]⟩

/-- Entries that are about no view. -/
def Aside : HostEntry χ τ → Prop
  | .called .. => False
  | _ => True

theorem Work.aside {entry : HostEntry χ τ} (h : entry.Work) : entry.Aside := by
  cases entry with
  | called | closing => exact h.elim
  | deferred | started => trivial

theorem Aside.unvisited {entry : HostEntry χ τ} (h : entry.Aside) : visits n [entry] = [] := by
  cases entry with
  | called => exact h.elim
  | closing | deferred | started => rfl

/-- These calls on a view have been written down, and not that any view could not be destroyed. -/
def Visited (n : Nat) (calls : List (ViewCall × Option Nat))
    (entries later : List (HostEntry χ τ)) : Prop :=
  ∃ news, later = entries ++ news ∧ visits n news = calls ∧ ¬ Clings news

namespace Visited

theorem refl (n : Nat) (entries : List (HostEntry χ τ)) : Visited n [] entries entries := by
  refine ⟨[], (List.append_nil _).symm, rfl, ?_⟩
  rintro ⟨m, shown, h⟩
  cases h

theorem trans (h : Visited n calls entries later) (h' : Visited n more later last) :
    Visited n (calls ++ more) entries last := by
  obtain ⟨news, rfl, rfl, hclings⟩ := h
  obtain ⟨news', rfl, rfl, hclings'⟩ := h'
  refine ⟨news ++ news', List.append_assoc .., visits_append, ?_⟩
  rw [clings_append, not_or]
  exact ⟨hclings, hclings'⟩

theorem aside (h : Added Aside entries later) : Visited n [] entries later := by
  obtain ⟨news, rfl, hnews⟩ := h
  have hvisits (m : Nat) : visits m news = [] := by
    have hadded : Added Aside [] news := ⟨news, rfl, hnews⟩
    exact hadded.kept (fun _ _ => visits_append) fun _ h => h.unvisited
  refine ⟨news, rfl, hvisits n, ?_⟩
  rintro ⟨m, shown, h⟩
  rw [hvisits] at h
  cases h

theorem deferred (tasks : List τ) : Visited n [] entries (entries ++ [.deferred tasks]) :=
  aside (.single trivial)

theorem called (n : Nat) (h : call ≠ .destroyed false) :
    Visited n [(call, shown)] entries (entries ++ [.called n call shown]) := by
  refine ⟨[.called n call shown], rfl, ?_, fun hclings => h (clings_called.mp hclings)⟩
  rw [visits_called, if_pos rfl]

theorem called_of_ne (hne : m ≠ n) (h : call ≠ .destroyed false) :
    Visited n [] entries (entries ++ [.called m call shown]) := by
  refine ⟨[.called m call shown], rfl, ?_, fun hclings => h (clings_called.mp hclings)⟩
  rw [visits_called, if_neg hne]

/-- What has been written down is known. -/
theorem cancel (h : Visited n calls entries (entries ++ later)) :
    visits n later = calls ∧ ¬ Clings later := by
  obtain ⟨news, heq, hcalls, hclings⟩ := h
  cases List.append_cancel_left heq
  exact ⟨hcalls, hclings⟩

end Visited

end HostEntry

open HostEntry

/-! ## Frames after a view has been set -/

/-- The view could not be prepared. -/
structure Chapter.Tried (n : Nat) (c : Chapter κ ρ) : Prop where
  calls : visits n c.entries = [(.prepared false, some n)]
  failed : ∃ e, c.answer = .framed (.error e)
  parted : ¬ Clings c.entries

/-- The view could be prepared and is shown. -/
structure Chapter.Appeared (n : Nat) (c : Chapter κ ρ) : Prop where
  calls : visits n c.entries = [(.prepared true, some n), (.handled, some n), (.drew, some n)]
  shows : c.answer.Shows
  parted : ¬ Clings c.entries

/-- The view had been prepared before and is shown. -/
structure Chapter.Stayed (n : Nat) (c : Chapter κ ρ) : Prop where
  calls : visits n c.entries = [(.handled, some n), (.drew, some n)]
  shows : c.answer.Shows
  parted : ¬ Clings c.entries

/-- The view before it could not be destroyed, so the view is not called. -/
structure Chapter.Botched (n : Nat) (c : Chapter κ ρ) : Prop where
  calls : visits n c.entries = []
  failed : ∃ e, c.answer = .framed (.error e)
  clings : Clings c.entries

/-- There is no view to show. -/
structure Chapter.Vacant (c : Chapter κ ρ) : Prop where
  calls : ∀ m, visits m c.entries = []
  blank : c.answer = .framed (.ok none)

/-- Frames that show a view from the first of them on. -/
def Reign (n : Nat) : List (Chapter κ ρ) → Prop
  | [] => True
  | c :: frames => c.Appeared n ∧ ∀ d ∈ frames, d.Stayed n

/-- What comes of frames once a view has been set, and no other one after it. -/
inductive Succession (n : Nat) : List (Chapter κ ρ) → Prop
  /-- The view takes over. Frames try to prepare it until that succeeds, and then it stays. -/
  | kept {tries frames : List (Chapter κ ρ)} (tried : ∀ c ∈ tries, c.Tried n)
      (reign : Reign n frames) : Succession n (tries ++ frames)
  /-- The view before it could not be destroyed, and both are gone. -/
  | lost {c : Chapter κ ρ} {frames : List (Chapter κ ρ)} (botched : c.Botched n)
      (vacant : ∀ d ∈ frames, d.Vacant) : Succession n (c :: frames)

/-! ## Which view is shown and which one waits -/

/-- The view that a host shows, whether it has been prepared, and the view that waits. -/
structure Billing where
  shown : Option Nat
  next : Option Nat
  prepared : Bool
  closed : Bool

namespace Ledger

variable {l l' l₁ l₂ : Ledger ν χ τ} {n : Nat}

def billing (l : Ledger ν χ τ) : Billing where
  shown := l.host.view.map (·.1)
  next := l.host.next.map (·.1)
  prepared := l.host.prepared
  closed := l.host.closed

theorem Worked.visited (h : Worked l l') : Visited n [] l.entries l'.entries :=
  .aside (h.added.mono fun _ => Work.aside)

theorem Worked.billing (h : Worked l l') : l'.billing = l.billing := by
  rw [Ledger.billing, h.host, Ledger.billing]

/-- A call on the view that is shown. -/
theorem visited_call (shown : l.billing.shown = some n) {call : ViewCall} {u : Nat × ν}
    (view : l.host.view = some u) (h : call ≠ .destroyed false) :
    Visited n [(call, some n)] l.entries (l.call u.1 call).entries := by
  have hn : u.1 = n := by
    rw [Ledger.billing, view] at shown
    exact Option.some.inj shown
  have hshown : l.host.view.map (·.1) = some n := shown
  rw [Ledger.call, hn, hshown]
  exact .called n h

/-- A view that waits takes over from the one before it, if that can be destroyed. -/
theorem Swapped.takes_over (h : Swapped l (.none : Option ε) l') {old : Option Nat}
    {prepared : Bool} (billing : l.billing = ⟨old, some n, prepared, false⟩)
    (other : old ≠ some n) :
    Visited n [] l.entries l'.entries ∧ l'.billing = ⟨some n, .none, false, false⟩ := by
  obtain ⟨rfl, hnext, rfl, hclosed⟩ := Billing.mk.inj billing
  cases h with
  | none next =>
      rw [next] at hnext
      cases hnext
  | @first v next view =>
      rw [next] at hnext
      cases hnext
      exact ⟨.refl _ _, by rw [← hclosed]; rfl⟩
  | @replaced u v tasks next view =>
      rw [next] at hnext
      cases hnext
      have hne : u.1 ≠ v.1 := fun h => other (by rw [view]; exact congrArg some h)
      exact ⟨(Visited.deferred tasks).trans (.called_of_ne hne (by decide)), by rw [← hclosed]; rfl⟩

/-- If the view before it cannot be destroyed, a view that waits is let go of, too. -/
theorem Swapped.loses {e : ε} (h : Swapped l (some e) l') {old : Option Nat} {prepared : Bool}
    (billing : l.billing = ⟨old, some n, prepared, false⟩) (other : old ≠ some n) :
    (∃ news, l'.entries = l.entries ++ news ∧ visits n news = [] ∧ Clings news) ∧
      l'.billing = ⟨.none, .none, prepared, false⟩ := by
  obtain ⟨rfl, hnext, rfl, hclosed⟩ := Billing.mk.inj billing
  cases h with
  | @failed u v tasks _ next view =>
      rw [next] at hnext
      cases hnext
      have hne : u.1 ≠ v.1 := fun h => other (by rw [view]; exact congrArg some h)
      refine ⟨⟨[.deferred tasks] ++ [.called u.1 (.destroyed false) .none], ?_, ?_, ?_⟩, ?_⟩
      · exact List.append_assoc ..
      · rw [visits_append, visits_called, if_neg hne]
        rfl
      · exact clings_append.mpr (.inr (clings_called.mpr rfl))
      · rw [← hclosed]
        rfl

/-- With no view waiting, nothing is swapped. -/
theorem Swapped.of_no_next {failure : Option ε} (h : Swapped l failure l')
    (next : l.billing.next = .none) : failure = .none ∧ l' = l := by
  have hnone : l.host.next = .none := Option.map_eq_none_iff.mp next
  cases h with
  | none => exact ⟨rfl, rfl⟩
  | first hnext | replaced _ hnext | failed _ _ hnext =>
      rw [hnone] at hnext
      cases hnext

/-- A view that has not been prepared is. -/
theorem Begun.prepares {failure : Option ε} (h : Begun l failure l')
    (billing : l.billing = ⟨some n, none, false, false⟩) :
    Visited n [(.prepared failure.isNone, some n)] l.entries l'.entries ∧
      l'.billing = ⟨some n, none, failure.isNone, false⟩ := by
  obtain ⟨hshown, hnext, hprepared, hclosed⟩ := Billing.mk.inj billing
  cases h with
  | ready h =>
      rcases h with h | h
      · rw [hprepared] at h
        cases h
      · rw [h] at hshown
        cases hshown
  | @prepared u tasks after _ _ view =>
      have hdestroyed : ViewCall.prepared failure.isNone ≠ .destroyed false := nofun
      have hcalled := visited_call (l := l.add (.deferred tasks)) hshown view hdestroyed
      refine ⟨(Visited.deferred tasks).trans hcalled, ?_⟩
      rw [view] at hshown
      exact congr (congrArg₂ (Billing.mk · · _) hshown hnext) hclosed

/-- A view that has been prepared handles events and is drawn. -/
theorem visited_shown {handled drawn : List τ} {u : Nat × ν} {l₄ : Ledger ν χ τ}
    (billing : l.billing = ⟨some n, none, true, false⟩) (view : l.host.view = some u)
    (before : Worked l l₁) (after : Worked ((l₁.call u.1 .handled).add (.deferred handled)) l₄) :
    let l' := (l₄.call u.1 .drew).add (.deferred drawn)
    Visited n [(.handled, some n), (.drew, some n)] l.entries l'.entries ∧
      l'.billing = ⟨some n, none, true, false⟩ := by
  have hbilling : l₁.billing = ⟨some n, none, true, false⟩ := before.billing.trans billing
  have hbilling' : l₄.billing = ⟨some n, none, true, false⟩ := after.billing.trans hbilling
  have hview : l₁.host.view = some u := before.host ▸ view
  have hview' : l₄.host.view = some u := after.host ▸ hview
  have hhandled : Visited n [(.handled, some n)] l₁.entries (l₁.call u.1 .handled).entries :=
    visited_call (by rw [hbilling]) hview (by decide)
  have hdrew : Visited n [(.drew, some n)] l₄.entries (l₄.call u.1 .drew).entries :=
    visited_call (by rw [hbilling']) hview' (by decide)
  refine ⟨?_, hbilling'⟩
  exact before.visited.trans (hhandled.trans ((Visited.deferred handled).trans
    (after.visited.trans (hdrew.trans (Visited.deferred drawn)))))

/-! ## Frames -/

/-- A frame that tries to prepare a view shows it if that succeeds. -/
inductive Debut (n : Nat) (l : Ledger ν χ τ) : Except ε (Option δ) → Ledger ν χ τ → Prop
  | failed {l' : Ledger ν χ τ} (e : ε)
      (calls : Visited n [(.prepared false, some n)] l.entries l'.entries)
      (billing : l'.billing = ⟨some n, none, false, false⟩) : Debut n l (.error e) l'
  | shown {l' : Ledger ν χ τ} (answer : δ)
      (calls : Visited n [(.prepared true, some n), (.handled, some n), (.drew, some n)]
        l.entries l'.entries)
      (billing : l'.billing = ⟨some n, none, true, false⟩) : Debut n l (.ok (some answer)) l'

variable {closed : ε} {outcome : Except ε (Option δ)}

/-- If swapping succeeds, a view is to be prepared. -/
theorem Framed.debut (h : Framed closed l outcome l') (opened : l.billing.closed = false)
    (swapped : ∀ ⦃l₁⦄, Swapped l (none : Option ε) l₁ →
      Visited n [] l.entries l₁.entries ∧ l₁.billing = ⟨some n, none, false, false⟩) :
    (∃ e, outcome = .error e ∧ Swapped l (some e) l') ∨ Debut n l outcome l' := by
  cases h with
  | closed h =>
      rw [Ledger.billing, h] at opened
      cases opened
  | @swapFailed _ e _ swap => exact .inl ⟨e, rfl, swap⟩
  | @beginFailed _ _ e _ swap begin =>
      obtain ⟨hswap, hbilling⟩ := swapped swap
      obtain ⟨hbegin, hbilling⟩ := begin.prepares hbilling
      exact .inr (.failed e (hswap.trans hbegin) hbilling)
  | empty _ swap begin view =>
      obtain ⟨-, hbilling⟩ := swapped swap
      obtain ⟨-, hbilling⟩ := begin.prepares hbilling
      rw [Ledger.billing, view] at hbilling
      cases (Billing.mk.inj hbilling).1
  | shown handled drawn answer _ swap begin view before after =>
      obtain ⟨hswap, hbilling⟩ := swapped swap
      obtain ⟨hbegin, hbilling⟩ := begin.prepares hbilling
      obtain ⟨hshown, hbilling⟩ := visited_shown hbilling view before after
      exact .inr (.shown answer (hswap.trans (hbegin.trans hshown)) hbilling)

theorem Framed.retries (h : Framed closed l outcome l')
    (billing : l.billing = ⟨some n, none, false, false⟩) : Debut n l outcome l' := by
  have hswapped {failure : Option ε} {l₁ : Ledger ν χ τ} (swap : Swapped l failure l₁) :
      failure = none ∧ l₁ = l := swap.of_no_next (by rw [billing])
  refine (h.debut (by rw [billing]) fun l₁ swap => ?_).resolve_left ?_
  · obtain ⟨-, rfl⟩ := hswapped swap
    exact ⟨.refl n _, billing⟩
  · rintro ⟨e, -, swap⟩
    cases (hswapped swap).1

/-- With no view waiting, and none to be prepared, a frame shows what there is. -/
theorem Framed.of_settled (h : Framed closed l outcome l') (opened : l.billing.closed = false)
    (next : l.billing.next = none)
    (ready : l.billing.prepared = true ∨ l.billing.shown = none) :
    (outcome = .ok none ∧ l.host.view = none ∧ l' = l) ∨
      ∃ u answer handled drawn l₁ l₂, outcome = .ok (some answer) ∧ l.host.view = some u ∧
        Worked l l₁ ∧ Worked ((l₁.call u.1 .handled).add (.deferred handled)) l₂ ∧
        l' = (l₂.call u.1 .drew).add (.deferred drawn) := by
  have hswap {failure : Option ε} {l₁ : Ledger ν χ τ} (swap : Swapped l failure l₁) :
      failure = none ∧ l₁ = l := swap.of_no_next next
  have hbegin {failure : Option ε} {l₁ : Ledger ν χ τ} (begin : Begun l failure l₁) :
      failure = none ∧ l₁ = l := by
    cases begin with
    | ready => exact ⟨rfl, rfl⟩
    | prepared _ _ _ unprepared view =>
        rcases ready with ready | ready
        · exact nomatch unprepared.symm.trans ready
        · rw [billing, view] at ready
          cases ready
  cases h with
  | closed h => exact nomatch opened.symm.trans h
  | swapFailed _ swap => cases (hswap swap).1
  | beginFailed _ swap begin =>
      obtain ⟨-, rfl⟩ := hswap swap
      cases (hbegin begin).1
  | empty _ swap begin view =>
      obtain ⟨-, rfl⟩ := hswap swap
      obtain ⟨-, rfl⟩ := hbegin begin
      exact .inl ⟨rfl, view, rfl⟩
  | @shown _ _ l₁ l₂ u handled drawn answer _ swap begin view before after =>
      obtain ⟨-, rfl⟩ := hswap swap
      obtain ⟨-, rfl⟩ := hbegin begin
      exact .inr ⟨u, answer, handled, drawn, l₁, l₂, rfl, view, before, after, rfl⟩

/-- A view that has been prepared is shown. -/
theorem Framed.stays (h : Framed closed l outcome l')
    (billing : l.billing = ⟨some n, none, true, false⟩) :
    (∃ answer, outcome = .ok (some answer)) ∧
      Visited n [(.handled, some n), (.drew, some n)] l.entries l'.entries ∧
      l'.billing = ⟨some n, none, true, false⟩ := by
  rcases h.of_settled (by rw [billing]) (by rw [billing]) (.inl (by rw [billing])) with
    ⟨-, view, -⟩ | ⟨u, answer, handled, drawn, l₁, l₂, rfl, view, before, after, rfl⟩
  · rw [Ledger.billing, view] at billing
    cases (Billing.mk.inj billing).1
  · exact ⟨⟨answer, rfl⟩, visited_shown billing view before after⟩

/-- Without a view nothing is shown. -/
theorem Framed.vacant (h : Framed closed l outcome l') {prepared : Bool}
    (billing : l.billing = ⟨none, none, prepared, false⟩) : outcome = .ok none ∧ l' = l := by
  rcases h.of_settled (by rw [billing]) (by rw [billing]) (.inr (by rw [billing])) with
    ⟨rfl, -, rfl⟩ | ⟨u, _, _, _, _, _, -, view, -⟩
  · exact ⟨rfl, rfl⟩
  · rw [Ledger.billing, view] at billing
    cases (Billing.mk.inj billing).1

/-! ## Counting views -/

theorem Worked.count (h : Worked l l') : l'.count = l.count := by
  induction h with
  | done => rfl
  | next _ _ _ _ ih => exact ih

theorem Framed.count (h : Framed closed l outcome l') : l'.count = l.count := by
  have hswap {l₁ : Ledger ν χ τ} {failure : Option ε} (swap : Swapped l failure l₁) :
      l₁.count = l.count := by
    cases swap <;> rfl
  have hbegin {l₁ l₂ : Ledger ν χ τ} {failure : Option ε} (begin : Begun l₁ failure l₂) :
      l₂.count = l₁.count := by
    cases begin <;> rfl
  cases h with
  | closed => rfl
  | swapFailed _ swap => exact hswap swap
  | beginFailed _ swap begin => exact (hbegin begin).trans (hswap swap)
  | empty _ swap begin => exact (hbegin begin).trans (hswap swap)
  | shown _ _ _ _ swap begin _ before after =>
      exact after.count.trans (before.count.trans ((hbegin begin).trans (hswap swap)))

theorem Ended.count {failure : Option ε} (h : Ended l failure l') : l'.count = l.count := by
  have hparted {l₁ : Ledger ν χ τ} (h : Parted l failure l₁) : l₁.count = l.count := by
    cases h <;> rfl
  cases h with
  | closed => rfl
  | @silent l₁ _ _ parted =>
      show l₁.count = _
      exact hparted parted
  | @called l₁ _ _ _ _ parted =>
      show l₁.count = _
      exact hparted parted

end Ledger

/-! ## Runs of frames -/

namespace HostStep

def isFrame : HostStep κ ρ → Bool
  | .frame _ => true
  | _ => false

def isSetView : HostStep κ ρ → Bool
  | .setView _ => true
  | _ => false

/-- The step has no say in which view is shown next. -/
def Steady : HostStep κ ρ → Prop
  | .onClose _ | .act _ | .frame _ => True
  | _ => False

end HostStep

namespace Ledger

variable {l l' : Ledger (View κ) κ (Task κ)} {n : Nat} {chapters frames : List (Chapter κ ρ)}

/-- The frames of a run in which no other step has a say in which view is shown. -/
inductive Programme : Billing → List (Chapter κ ρ) → Prop
  | nil (billing : Billing) : Programme billing []
  | cons {l l' : Ledger (View κ) κ (Task κ)} {c : Chapter κ ρ} {frames : List (Chapter κ ρ)}
      {outcome : Except ViewError (Option (List (DrawOp Float)))}
      (framed : Framed .closed l outcome l') (answer : c.answer = .framed outcome)
      (entries : l'.entries = l.entries ++ c.entries) (rest : Programme l'.billing frames) :
      Programme l.billing (c :: frames)

theorem Runs.programme (h : Runs l chapters l') (steady : ∀ c ∈ chapters, c.step.Steady) :
    Programme l.billing (chapters.filter (·.step.isFrame)) := by
  induction h with
  | nil => exact .nil _
  | @cons l l₁ l' c chapters turned entries _ ih =>
      obtain ⟨hc, hrest⟩ := List.forall_mem_cons.mp steady
      obtain ⟨step, answer, news⟩ := c
      cases turned with
      | setView | close | drop => exact hc.elim
      | onClose | act => exact ih hrest
      | frame size framed => exact .cons framed rfl entries (ih hrest)

namespace Programme

variable {billing : Billing}

/-- The induction is on the frames, none of which changes anything. -/
theorem vacant (h : Programme billing frames) {prepared : Bool}
    (bare : billing = ⟨none, none, prepared, false⟩) : ∀ c ∈ frames, c.Vacant := by
  induction h with
  | nil => exact List.forall_mem_nil _
  | cons framed answer entries _ ih =>
      obtain ⟨rfl, rfl⟩ := framed.vacant bare
      have hnothing := List.append_right_eq_self.mp entries.symm
      refine List.forall_mem_cons.mpr ⟨⟨fun m => ?_, answer⟩, ih bare⟩
      rw [hnothing]
      rfl

theorem stayed (h : Programme billing frames) (ready : billing = ⟨some n, none, true, false⟩) :
    ∀ c ∈ frames, c.Stayed n := by
  induction h with
  | nil => exact List.forall_mem_nil _
  | cons framed answer entries _ ih =>
      obtain ⟨⟨ops, rfl⟩, hvisited, hbilling⟩ := framed.stays ready
      rw [entries] at hvisited
      refine List.forall_mem_cons.mpr ⟨⟨hvisited.cancel.1, ?_, hvisited.cancel.2⟩, ih hbilling⟩
      rw [answer]
      trivial

/-- A frame in which a view makes its debut, and those after it. -/
theorem debut {c : Chapter κ ρ} {outcome : Except ViewError (Option (List (DrawOp Float)))}
    (h : Debut n l outcome l') (answer : c.answer = .framed outcome)
    (entries : l'.entries = l.entries ++ c.entries) (rest : Programme l'.billing frames)
    (later : l'.billing = ⟨some n, none, false, false⟩ →
      ∃ tries shown, frames = tries ++ shown ∧ (∀ c ∈ tries, c.Tried n) ∧ Reign n shown) :
    ∃ tries shown, c :: frames = tries ++ shown ∧ (∀ c ∈ tries, c.Tried n) ∧ Reign n shown := by
  cases h with
  | failed e calls billing =>
      rw [entries] at calls
      obtain ⟨tries, shown, rfl, htried, hreign⟩ := later billing
      have hc : c.Tried n := ⟨calls.cancel.1, ⟨e, answer⟩, calls.cancel.2⟩
      exact ⟨c :: tries, shown, rfl, List.forall_mem_cons.mpr ⟨hc, htried⟩, hreign⟩
  | shown ops calls billing =>
      rw [entries] at calls
      have hshows : c.answer.Shows := by
        rw [answer]
        trivial
      have hc : c.Appeared n := ⟨calls.cancel.1, hshows, calls.cancel.2⟩
      exact ⟨[], c :: frames, rfl, List.forall_mem_nil _, hc, rest.stayed billing⟩

/-- A view that has not been prepared is shown once that succeeds. -/
theorem retried (h : Programme billing frames) (unready : billing = ⟨some n, none, false, false⟩) :
    ∃ tries shown, frames = tries ++ shown ∧ (∀ c ∈ tries, c.Tried n) ∧ Reign n shown := by
  induction h with
  | nil => exact ⟨[], [], rfl, List.forall_mem_nil _, trivial⟩
  | cons framed answer entries rest ih =>
      exact debut (framed.retries unready) answer entries rest ih

theorem succession (h : Programme billing frames) {old : Option Nat} {prepared : Bool}
    (waits : billing = ⟨old, some n, prepared, false⟩) (other : old ≠ some n) :
    Succession n frames := by
  cases h with
  | nil =>
      have hreign : Reign n ([] : List (Chapter κ ρ)) := trivial
      exact .kept (List.forall_mem_nil _) hreign
  | @cons l l' c frames outcome framed answer entries rest =>
      rcases framed.debut (by rw [waits]) fun l₁ swap => swap.takes_over waits other with
        ⟨e, rfl, swap⟩ | hdebut
      · obtain ⟨⟨news, hnews, hcalls, hclings⟩, hbilling⟩ := swap.loses waits other
        obtain rfl := List.append_cancel_left (entries.symm.trans hnews)
        exact .lost ⟨hcalls, ⟨e, answer⟩, hclings⟩ (rest.vacant hbilling)
      · obtain ⟨tries, shown, heq, htried, hreign⟩ := debut hdebut answer entries rest rest.retried
        rw [heq]
        exact .kept htried hreign

end Programme

/-- Views are numbered in the order they are set in. -/
theorem Runs.count (h : Runs l chapters l') :
    l'.count = l.count + chapters.countP (·.step.isSetView) := by
  induction h with
  | nil => rfl
  | @cons l l₁ l' c chapters turned _ _ ih =>
      obtain ⟨step, answer, news⟩ := c
      have hstep : l₁.count = l.count + if step.isSetView then 1 else 0 := by
        cases turned with
        | setView | onClose | act => rfl
        | frame size framed => exact framed.count
        | close ended => exact ended.count
        | drop ended => exact ended.count
      rw [ih, hstep, List.countP_cons, Nat.add_assoc, Nat.add_comm (chapters.countP _)]

/-- A view that has just been set waits, and it is another one than the one that is shown. -/
theorem Orderly.succession (h : l.Orderly) (opened : l.host.closed = false) {view : View κ}
    {c : Chapter κ ρ} {chapters : List (Chapter κ ρ)} (step : c.step = .setView view)
    (runs : Runs l (c :: chapters) l') (steady : ∀ d ∈ chapters, d.step.Steady) :
    Succession l.count (chapters.filter (·.step.isFrame)) := by
  obtain ⟨_, answer, news⟩ := c
  subst step
  have hother : l.host.view.map (·.1) ≠ some l.count := by
    intro heq
    obtain ⟨u, hu, hcount⟩ := Option.map_eq_some_iff.mp heq
    obtain ⟨p, -, hstands⟩ := h.shown u hu
    exact Nat.ne_of_lt (hstands.alive _ _ rfl).1 hcount
  cases runs with
  | cons turned _ rest =>
      cases turned with
      | setView => exact (rest.programme steady).succession (by rw [← opened]; rfl) hother

end Ledger

/-- In every run of a host, a view that is set while the host is open, and is the last one to be,
takes over with the next frame, whatever views fail to be prepared and however often, unless the
view before it cannot be destroyed. -/
theorem HostStep.play_succession [Ordered ρ] {s : Setting κ ρ} {config : Config}
    {steps : List (HostStep κ ρ)} {answers : List HostAnswer} {w w' : World κ ρ}
    (run : play s config steps w = .ok (answers, w')) :
    ∃ chapters, retrace s config steps w = .ok (chapters, w') ∧
      chapters.map (·.step) = steps ∧ chapters.map (·.answer) = answers ∧
      ∀ before c after view, chapters = before ++ c :: after → c.step = .setView view →
        (∀ d ∈ before, ¬ d.step.Closes) → (∀ d ∈ after, d.step.Steady) →
          Succession (before.countP (·.step.isSetView)) (after.filter (·.step.isFrame)) := by
  obtain ⟨chapters, l, hretrace, hsteps, hanswers, hruns, -, -⟩ := play_retraced run
  refine ⟨chapters, hretrace, hsteps, hanswers, ?_⟩
  rintro before c after view rfl hset hopen hsteady
  obtain ⟨l₁, hbefore, hrest⟩ := hruns.split
  have hclosed : l₁.host.closed = false := (hbefore.unclosed hopen).2.2
  have horderly : l₁.Orderly := hbefore.orderly (Ledger.orderly_bare rfl rfl Ledger.stands_nil)
  have hcount : l₁.count = before.countP (·.step.isSetView) := hbefore.count.trans (Nat.zero_add _)
  rw [← hcount]
  exact horderly.succession hclosed hset hrest hsteady

/-- A view that is never ready, one that clings to its place, and one that never gets there. -/
def HostStep.clinging : List (HostStep Bool Empty) :=
  [.setView { id := "sulking", model := .scripted false }, .frame Vec.zero,
    .setView { id := "clinging", model := .scripted true }, .frame Vec.zero] ++
  .setView { id := "lost", model := .scripted false } :: [.frame Vec.zero, .frame Vec.zero]

/-- The second view takes over from the first one, which was never ready. The third one is lost
together with the second one. -/
theorem HostStep.play_succession_clinging :
    ∃ (answers : List HostAnswer) (before after : List (Chapter Bool Empty))
      (c : Chapter Bool Empty) (w : World Bool Empty),
      play .moody {} clinging {} = .ok (answers, w) ∧
      retrace .moody {} clinging {} = .ok (before ++ c :: after, w) ∧
      Succession 2 (after.filter (·.step.isFrame)) ∧
      let entries := (before ++ c :: after).flatMap (·.entries)
      visits 0 entries = [(.prepared false, some 0), (.destroyed true, none)] ∧
      visits 1 entries = [(.prepared true, some 1), (.handled, some 1), (.drew, some 1),
        (.destroyed false, none)] ∧
      visits 2 entries = [] := by
  obtain ⟨answers, w, hplay⟩ := Machine.exists_eq_ok
    (m := play .moody {} clinging) (w := {}) (by decide +kernel)
  obtain ⟨chapters, hretrace, hsteps, -, hsuccession⟩ := play_succession hplay
  obtain ⟨before, later, rfl, hbefore, hlater⟩ := List.map_eq_append_iff.mp hsteps
  obtain ⟨c, after, rfl, hc, hafter⟩ := List.map_eq_cons_iff.mp hlater
  have hvisits : (retrace .moody {} clinging {}).toOption.map (fun r =>
      let entries := r.1.flatMap (·.entries)
      (visits 0 entries, visits 1 entries, visits 2 entries)) =
      some ([(.prepared false, some 0), (.destroyed true, none)],
        [(.prepared true, some 1), (.handled, some 1), (.drew, some 1), (.destroyed false, none)],
        []) := by decide +kernel
  rw [hretrace] at hvisits
  obtain ⟨hfirst, hrest⟩ := Prod.mk.inj (Option.some.inj hvisits)
  obtain ⟨hsecond, hthird⟩ := Prod.mk.inj hrest
  have hopen : ∀ d ∈ before, ¬ d.step.Closes := by
    have hall : ∀ step ∈ before.map (·.step), ¬ step.Closes := by
      rw [hbefore]
      simp [Closes]
    exact fun d hd => hall _ (List.mem_map_of_mem hd)
  have hsteady : ∀ d ∈ after, d.step.Steady := by
    have hall : ∀ step ∈ after.map (·.step), step.Steady := by
      rw [hafter]
      simp [Steady]
    exact fun d hd => hall _ (List.mem_map_of_mem hd)
  have hcount : before.countP (·.step.isSetView) = 2 := by
    show before.countP (isSetView ∘ (·.step)) = 2
    rw [← List.countP_map, hbefore]
    rfl
  have hlost := hsuccession before c after _ rfl hc hopen hsteady
  rw [hcount] at hlost
  exact ⟨answers, before, after, c, w, hplay, hretrace, hlost, hfirst, hsecond, hthird⟩

end Trellis
