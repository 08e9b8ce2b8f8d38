import Mathlib.Data.List.Induction
import Trellis.Proofs.Host.Runs

/-!
# The phases of a view

A view is new until it is first prepared, ready from when that succeeds, and gone once it has been
destroyed. The ledger tells the phase of each view.

* `IsLifetime` — the calls that a view may receive in its life.
* `ViewPhase.after` — the phase after one more call.
* `ViewPhase.lifetime` — the calls that lead to a phase are a lifetime.
* `HostEntry.InTurn` — the order between the calls on different views.
* `Ledger.Stands` — which view is alive and in which phase, all others being new or gone.
-/

namespace Trellis

variable {ν χ τ : Type}

/-- Where a view is in its life. -/
inductive ViewPhase
  | new
  | unready
  | ready
  /-- Events have been handled, and drawing is to follow. -/
  | midway
  | gone
  deriving DecidableEq

namespace ViewPhase

/-- The phase after a call, if the call is due. -/
def after : ViewPhase → ViewCall → Option ViewPhase
  | .new, .prepared ok | .unready, .prepared ok => some (if ok then .ready else .unready)
  | .ready, .handled => some .midway
  | .midway, .drew => some .ready
  | .new, .destroyed _ | .unready, .destroyed _ | .ready, .destroyed _ => some .gone
  | _, _ => none

/-- The phase of a view that has received some calls, if each was due. -/
def of? (calls : List ViewCall) : Option ViewPhase := calls.foldlM after .new

theorem of?_append_singleton (calls : List ViewCall) (call : ViewCall) :
    of? (calls ++ [call]) = (of? calls).bind (·.after call) := by
  rw [of?, List.foldlM_append, ← of?]
  cases of? calls with
  | none => rfl
  | some p =>
      show (p.after call).bind some = p.after call
      cases p.after call <;> rfl

/-- The frames of a view that has been prepared. -/
def frames (n : Nat) : List ViewCall :=
  .prepared true :: (List.replicate n [.handled, .drew]).flatten

/-- The calls that lead to a phase. -/
def Shape : ViewPhase → List ViewCall → Prop
  | .new, calls => calls = []
  | .unready, calls => ∃ tries, calls = List.replicate tries (.prepared false)
  | .ready, calls => ∃ tries n, calls = List.replicate tries (.prepared false) ++ frames n
  | .midway, calls =>
    ∃ tries n, calls = List.replicate tries (.prepared false) ++ frames n ++ [.handled]
  | .gone, calls => ∃ lived ok, calls = lived ++ [.destroyed ok] ∧
      ∃ tries, lived = List.replicate tries (.prepared false) ∨
        ∃ n, lived = List.replicate tries (.prepared false) ++ frames n

theorem shape_prepared {tries : Nat} {calls : List ViewCall}
    (h : calls = List.replicate tries (.prepared false)) (ok : Bool) :
    Shape (if ok then .ready else .unready) (calls ++ [.prepared ok]) := by
  subst h
  cases ok with
  | true => exact ⟨tries, 0, rfl⟩
  | false => exact ⟨tries + 1, List.replicate_succ'.symm⟩

theorem shape_after {p q : ViewPhase} {calls : List ViewCall} {call : ViewCall} (h : p.Shape calls)
    (hafter : p.after call = some q) : q.Shape (calls ++ [call]) := by
  cases p <;> cases call <;> cases hafter
  case new.prepared.refl ok => exact shape_prepared (h.trans List.replicate_zero.symm) ok
  case unready.prepared.refl ok =>
    obtain ⟨tries, hcalls⟩ := h
    exact shape_prepared hcalls ok
  case ready.handled.refl =>
    obtain ⟨tries, n, rfl⟩ := h
    exact ⟨tries, n, rfl⟩
  case midway.drew.refl =>
    obtain ⟨tries, n, rfl⟩ := h
    refine ⟨tries, n + 1, ?_⟩
    rw [frames, frames, List.replicate_succ', List.flatten_concat]
    simp
  case new.destroyed.refl ok => exact ⟨[], ok, by rw [h], 0, .inl rfl⟩
  case unready.destroyed.refl ok =>
    obtain ⟨tries, rfl⟩ := h
    exact ⟨_, ok, rfl, tries, .inl rfl⟩
  case ready.destroyed.refl ok =>
    obtain ⟨tries, n, rfl⟩ := h
    exact ⟨_, ok, rfl, tries, .inr ⟨n, rfl⟩⟩

/-- The induction is on the calls, from the last one backwards. -/
theorem shape_of {calls : List ViewCall} {p : ViewPhase} (h : of? calls = some p) :
    p.Shape calls := by
  induction calls using List.reverseRecOn generalizing p with
  | nil =>
      cases h
      rfl
  | append_singleton calls call ih =>
      rw [of?_append_singleton] at h
      obtain ⟨q, hq, hafter⟩ := Option.bind_eq_some_iff.mp h
      exact shape_after (ih hq) hafter

end ViewPhase

/-! ## All views of a host -/

open HostEntry

/-- A view is prepared when every other view has been destroyed or never been called. It is shown,
and has been prepared, when it handles events and when it draws. -/
def HostEntry.InTurn (before : List (HostEntry χ τ)) : HostEntry χ τ → Prop
  | .called n (.prepared _) shown =>
    shown = some n ∧ ∀ m, m ≠ n →
      callsOn m before = [] ∨ ∃ ok, (callsOn m before).getLast? = some (.destroyed ok)
  | .called n .handled shown | .called n .drew shown =>
    shown = some n ∧ .prepared true ∈ callsOn n before
  | _ => True

namespace ViewPhase

theorem prepared_mem {p : ViewPhase} {calls : List ViewCall} (h : of? calls = some p)
    (ready : p = .ready ∨ p = .midway) : .prepared true ∈ calls := by
  have hshape := shape_of h
  rcases ready with rfl | rfl <;> obtain ⟨tries, n, rfl⟩ := hshape <;> simp [frames]

theorem called_off {p : ViewPhase} {calls : List ViewCall} (h : of? calls = some p)
    (off : p = .new ∨ p = .gone) : calls = [] ∨ ∃ ok, calls.getLast? = some (.destroyed ok) := by
  have hshape := shape_of h
  rcases off with rfl | rfl
  · exact .inl hshape
  · obtain ⟨lived, ok, rfl, -⟩ := hshape
    exact .inr ⟨ok, List.getLast?_concat⟩

end ViewPhase

namespace Ledger

/-- The phase of a view, if every call on it was due. -/
def phase (l : Ledger ν χ τ) (n : Nat) : Option ViewPhase := ViewPhase.of? (callsOn n l.entries)

/-- At most one view is alive, and in the given phase. The others are new or gone. -/
structure Stands (l : Ledger ν χ τ) (live : Option (Nat × ViewPhase)) : Prop where
  unset : ∀ n, l.count ≤ n → l.phase n = some .new
  alive : ∀ n p, live = some (n, p) → n < l.count ∧ l.phase n = some p
  others : ∀ n, (∀ p, live ≠ some (n, p)) → l.phase n = some .new ∨ l.phase n = some .gone
  inTurn : Each InTurn l.entries

variable {l : Ledger ν χ τ} {live : Option (Nat × ViewPhase)} {n : Nat} {p q : ViewPhase}

theorem stands_nil : Stands ({} : Ledger ν χ τ) none where
  unset _ _ := rfl
  alive _ _ h := nomatch h
  others _ _ := .inl rfl
  inTurn before entry after h := by cases before <;> cases h

theorem phase_call_self (call : ViewCall) :
    (l.call n call).phase n = (l.phase n).bind (·.after call) := by
  rw [phase, phase, ← ViewPhase.of?_append_singleton, Ledger.call, add, callsOn_append]
  simp [callsOn]

theorem phase_call_other {m : Nat} (h : m ≠ n) (call : ViewCall) :
    (l.call n call).phase m = l.phase m := by
  rw [phase, phase, Ledger.call, add, callsOn_append]
  simp [callsOn, Ne.symm h]

theorem phase_quiet {entry : HostEntry χ τ}
    (uncalled : ∀ n call shown, entry ≠ .called n call shown) (n : Nat) :
    (l.add entry).phase n = l.phase n := by
  have hcalls : callsOn n [entry] = [] := by
    cases entry with
    | called m call shown => exact absurd rfl (uncalled m call shown)
    | closing | deferred | started => rfl
  rw [phase, add, callsOn_append, hcalls, List.append_nil, phase]

namespace Stands

theorem withHost (h : l.Stands live) (host : Host (Nat × ν) χ) :
    ({ l with host := host } : Ledger ν χ τ).Stands live :=
  ⟨h.unset, h.alive, h.others, h.inTurn⟩

/-- What is not a call on a view leaves the views where they are. -/
theorem quiet (h : l.Stands live) {entry : HostEntry χ τ}
    (uncalled : ∀ n call shown, entry ≠ .called n call shown) : (l.add entry).Stands live := by
  have hlast : InTurn l.entries entry := by
    cases entry with
    | called m call shown => exact absurd rfl (uncalled m call shown)
    | closing | deferred | started => trivial
  constructor
  · exact fun n hn => (phase_quiet uncalled n).trans (h.unset n hn)
  · intro n p hlive
    rw [phase_quiet uncalled]
    exact h.alive n p hlive
  · intro n hn
    rw [phase_quiet uncalled]
    exact h.others n hn
  · exact each_append_singleton.mpr ⟨h.inTurn, hlast⟩

theorem deferred (h : l.Stands live) (tasks : List τ) : (l.add (.deferred tasks)).Stands live :=
  h.quiet (by simp)

/-- A due call on the view that is alive. -/
theorem call (h : l.Stands (some (n, p))) {call : ViewCall} (due : p.after call = some q)
    (inTurn : InTurn l.entries (.called n call (l.host.view.map (·.1)))) :
    (l.call n call).Stands (some (n, q)) := by
  obtain ⟨hn, hphase⟩ := h.alive n p rfl
  constructor
  · intro m hm
    rw [phase_call_other (Nat.ne_of_gt (Nat.lt_of_lt_of_le hn hm))]
    exact h.unset m hm
  · rintro m q' hlive
    cases hlive
    exact ⟨hn, by rw [phase_call_self, hphase, Option.bind_some, due]⟩
  · intro m hm
    have hne : m ≠ n := fun heq => hm q (by rw [heq])
    rw [phase_call_other hne]
    refine h.others m fun p' heq => ?_
    cases heq
    exact hne rfl
  · exact each_append_singleton.mpr ⟨h.inTurn, inTurn⟩

/-- A view that is gone is none that is alive. -/
theorem bury (h : l.Stands (some (n, .gone))) : l.Stands none := by
  refine ⟨h.unset, fun _ _ hnone => (nomatch hnone), fun m _ => ?_, h.inTurn⟩
  rcases eq_or_ne m n with rfl | hne
  · exact .inr (h.alive m .gone rfl).2
  · refine h.others m fun p heq => ?_
    cases heq
    exact hne rfl

/-- A new view comes alive when none is. -/
theorem raise (h : l.Stands none) (set : n < l.count) (new : l.phase n = some .new) :
    l.Stands (some (n, .new)) := by
  refine ⟨h.unset, ?_, fun m _ => h.others m fun _ heq => (nomatch heq), h.inTurn⟩
  rintro m p hlive
  cases hlive
  exact ⟨set, new⟩

/-- One more view is set. -/
theorem set (h : l.Stands live) (host : Host (Nat × ν) χ) :
    ({ l with host := host, count := l.count + 1 } : Ledger ν χ τ).Stands live where
  unset n hn := h.unset n (Nat.le_of_succ_le hn)
  alive n p hlive := ⟨Nat.lt_succ_of_lt (h.alive n p hlive).1, (h.alive n p hlive).2⟩
  others := h.others
  inTurn := h.inTurn

/-- The other views have been destroyed or never been called. -/
theorem others_off (h : l.Stands (some (n, p))) (m : Nat) (hm : m ≠ n) :
    callsOn m l.entries = [] ∨ ∃ ok, (callsOn m l.entries).getLast? = some (.destroyed ok) := by
  have hlive (q : ViewPhase) : some (n, p) ≠ some (m, q) := by
    intro heq
    cases heq
    exact hm rfl
  rcases h.others m hlive with hnew | hover
  · exact ViewPhase.called_off hnew (.inl rfl)
  · exact ViewPhase.called_off hover (.inr rfl)

end Stands

end Ledger

end Trellis
