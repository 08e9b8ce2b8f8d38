import Mathlib.Algebra.BigOperators.Group.Finset.Basic
import Mathlib.Algebra.Field.ZMod
import Trellis.Program

/-!
# Values that go round in a circle

A relay is a circle of integer bindings, each with a watcher that sets the next binding to the value
plus a step, up to a limit. What such watchers do to the values can be told without any rounds.

* `Relay` — the circle; `Relay.callback` — what the watchers do.
* `Relay.pass` — the values once a value has been passed on, until a binding has it already.
* `Relay.walk` — what becomes of a value on the way; `Relay.exists_steady` — no value goes round
  forever.
-/

namespace Trellis

/-- Bindings in a circle. Each is watched, and passes its value on. -/
structure Relay (m : Nat) where
  binding : ZMod m → BindingId
  distinct : Function.Injective binding
  watcher : ZMod m → WatcherId
  step : ZMod m → Int
  limit : ZMod m → Option Int

namespace Relay

/-- A value up to a limit. -/
def capped : Option Int → Int → Int
  | none, v => v
  | some limit, v => min v limit

variable {m : Nat} (relay : Relay m)

/-- What a binding passes on. -/
def follow (i : ZMod m) (v : Int) : Int := capped (relay.limit i) (v + relay.step i)

/-- The callback that passes the value of a binding on. -/
def callback {κ ρ : Type} (i : ZMod m) : Program κ ρ Unit :=
  .read (relay.binding i) fun
    | some (_, .one (.int v)) =>
      .set (relay.binding (i + 1)) (.one (.int (relay.follow i v))) fun _ => .done ()
    | _ => .done ()

/-- The binding after this one has what this one passes on. -/
def Linked (values : ZMod m → Int) (i : ZMod m) : Prop :=
  values (i + 1) = relay.follow i (values i)

/-- The values after a binding has been set and its value been passed on, at most so many times. -/
def pass : Nat → ZMod m → Int → (ZMod m → Int) → ZMod m → Int
  | 0, i, v, values => Function.update values i v
  | d + 1, i, v, values =>
    if values i = v then values
    else pass d (i + 1) (relay.follow i v) (Function.update values i v)

/-- What becomes of a value that is passed on so many times. -/
def walk : Nat → ZMod m → Int → Int
  | 0, _, v => v
  | d + 1, i, v => walk d (i + 1) (relay.follow i v)

/-! ## Passing on -/

section

variable {relay} {d : Nat} {i j : ZMod m} {v : Int} {values : ZMod m → Int}

/-- One step and `e` more. -/
theorem succ_add_cast (i : ZMod m) (e : ℕ) : i + 1 + e = i + (e + 1 : ℕ) := by
  rw [add_assoc, add_comm 1, ← Nat.cast_succ]

/-- A step that does not go all the way round leads elsewhere. -/
theorem add_cast_ne {e : Nat} (pos : 0 < e) (short : e < m) (i : ZMod m) : i + e ≠ i := by
  intro h
  have hzero : (e : ZMod m) = 0 := add_eq_left.mp h
  have hdvd := (ZMod.natCast_eq_zero_iff e m).mp hzero
  exact absurd (Nat.le_of_dvd pos hdvd) (Nat.not_le.mpr short)

theorem pass_of_eq (h : values i = v) : relay.pass d i v values = values := by
  cases d with
  | zero => rw [pass, ← h, Function.update_eq_self]
  | succ d => rw [pass, if_pos h]

theorem pass_of_ne (h : values i ≠ v) : relay.pass (d + 1) i v values =
    relay.pass d (i + 1) (relay.follow i v) (Function.update values i v) := by
  rw [pass, if_neg h]

/-- Nothing else is set. -/
theorem pass_apart (h : ∀ e ≤ d, j ≠ i + e) : relay.pass d i v values j = values j := by
  induction d generalizing i v values with
  | zero =>
      have hj : j ≠ i := by simpa using h 0 Nat.le.refl
      exact Function.update_of_ne hj v values
  | succ d ih =>
      by_cases hv : values i = v
      · rw [pass_of_eq hv]
      · have hj : j ≠ i := by simpa using h 0 (Nat.zero_le _)
        rw [pass_of_ne hv, ih fun e he => ?_, Function.update_of_ne hj]
        rw [succ_add_cast]
        exact h (e + 1) (Nat.succ_le_succ he)

/-- Where the way goes on, it does not come back. -/
theorem pass_succ_self (short : d + 1 < m) (w : Int) :
    relay.pass d (i + 1) w values i = values i := by
  refine pass_apart fun e he h => add_cast_ne (Nat.succ_pos e) (by omega) i ?_
  rw [← succ_add_cast]
  exact h.symm

theorem pass_self (short : d < m) : relay.pass d i v values i = v := by
  by_cases hv : values i = v
  · rw [pass_of_eq hv, hv]
  · cases d with
    | zero => exact Function.update_self i v values
    | succ d => rw [pass_of_ne hv, pass_succ_self short, Function.update_self]

/-- Behind the front everything is linked. The induction is on the way that is left. -/
theorem linked_pass (short : d < m) (last : j ≠ i + d) (front : j + 1 ≠ i)
    (h : relay.Linked values j ∨ relay.pass d i v values j ≠ values j) :
    relay.Linked (relay.pass d i v values) j := by
  induction d generalizing i v values with
  | zero =>
      have hj : j ≠ i := by simpa using last
      rw [pass, Function.update_of_ne hj] at h
      have hlinked := h.resolve_right fun hne => hne rfl
      rw [Linked, pass, Function.update_of_ne front, Function.update_of_ne hj]
      exact hlinked
  | succ d ih =>
      by_cases hv : values i = v
      · rw [pass_of_eq hv] at h ⊢
        exact h.resolve_right fun hne => hne rfl
      · rw [pass_of_ne hv] at h ⊢
        by_cases hj : j = i
        · subst hj
          rw [Linked, pass_self (by omega), pass_succ_self short, Function.update_self]
        · refine ih (by omega) ?_ (fun heq => hj (add_right_cancel heq)) ?_
          · rwa [succ_add_cast]
          · rwa [Linked, Function.update_of_ne front, Function.update_of_ne hj]

/-- The binding where the way ends either keeps its value or gets the one that has gone all the
way. -/
theorem pass_last (short : d < m) (last : j = i + d) (h : relay.pass d i v values j ≠ values j) :
    relay.pass d i v values j = relay.walk d i v := by
  induction d generalizing i v values with
  | zero =>
      have hj : j = i := by simpa using last
      rw [hj, pass, Function.update_self, walk]
  | succ d ih =>
      by_cases hv : values i = v
      · rw [pass_of_eq hv] at h
        exact absurd rfl h
      · have hj : j ≠ i := last ▸ add_cast_ne (Nat.succ_pos d) short i
        rw [pass_of_ne hv] at h ⊢
        rw [walk]
        refine ih (by omega) ?_ ?_
        · rwa [succ_add_cast]
        · rwa [Function.update_of_ne hj]

end

/-! ## Once round -/

/-- The values after the value of a binding has been passed on, at most once round. -/
def sweep (k : ZMod m) (values : ZMod m → Int) : ZMod m → Int :=
  relay.pass (m - 1) (k + 1) (relay.follow k (values k)) values

section

variable {relay} [NeZero m] {j k : ZMod m} {values : ZMod m → Int}

/-- Once round ends where it begins. -/
theorem succ_add_pred (k : ZMod m) : k + 1 + ((m - 1 : Nat) : ZMod m) = k := by
  have hm : 1 + (m - 1) = m := Nat.add_sub_cancel' (NeZero.pos m)
  have hcast : ((1 + (m - 1) : Nat) : ZMod m) = 0 := by rw [hm, ZMod.natCast_self]
  rw [add_assoc, ← Nat.cast_one, ← Nat.cast_add, hcast, add_zero]

theorem pred_lt : m - 1 < m := Nat.sub_lt (NeZero.pos m) Nat.one_pos

theorem linked_sweep (hj : j ≠ k)
    (h : relay.Linked values j ∨ relay.sweep k values j ≠ values j) :
    relay.Linked (relay.sweep k values) j := by
  refine linked_pass pred_lt ?_ (fun heq => hj (add_right_cancel heq)) h
  rwa [succ_add_pred]

theorem linked_sweep_self (h : relay.sweep k values k = values k) :
    relay.Linked (relay.sweep k values) k := by
  rw [Linked, h]
  exact pass_self pred_lt

theorem sweep_self (h : relay.sweep k values k ≠ values k) :
    relay.sweep k values k = relay.walk m k (values k) := by
  have hwalk : relay.walk m k (values k) =
      relay.walk (m - 1) (k + 1) (relay.follow k (values k)) := by
    obtain ⟨n, rfl⟩ := Nat.exists_eq_succ_of_ne_zero (NeZero.ne m)
    rfl
  rw [hwalk]
  exact pass_last pred_lt (succ_add_pred k).symm h

end

/-! ## No value goes round forever -/

theorem capped_add (limit : Option Int) (v s : Int) :
    capped limit v + s = capped (limit.map (· + s)) (v + s) := by
  cases limit with
  | none => rfl
  | some limit => exact (min_add_add_right v limit s).symm

theorem capped_capped (limit limit' : Option Int) :
    ∃ least : Option Int, (least.isSome ↔ limit.isSome ∨ limit'.isSome) ∧
      ∀ v, capped limit (capped limit' v) = capped least v := by
  cases limit with
  | none => exact ⟨limit', by simp, fun v => rfl⟩
  | some limit =>
      cases limit' with
      | none => exact ⟨some limit, by simp, fun v => rfl⟩
      | some limit' => exact ⟨some (min limit' limit), by simp, fun v => min_assoc v limit' limit⟩

/-- Steps add up, and the least of the limits is the limit. -/
theorem exists_walk_eq (d : Nat) (i : ZMod m) :
    ∃ least : Option Int, (least.isSome ↔ ∃ e < d, (relay.limit (i + e)).isSome) ∧
      ∀ v, relay.walk d i v = capped least (v + ∑ e ∈ Finset.range d, relay.step (i + e)) := by
  induction d generalizing i with
  | zero => exact ⟨none, by simp, fun v => by simp [walk, capped]⟩
  | succ d ih =>
      obtain ⟨least, hleast, hwalk⟩ := ih (i + 1)
      simp only [succ_add_cast] at hleast hwalk
      obtain ⟨both, hboth, hcapped⟩ := capped_capped least
        ((relay.limit i).map (· + ∑ e ∈ Finset.range d, relay.step (i + ((e + 1 : Nat) : ZMod m))))
      refine ⟨both, ?_, fun v => ?_⟩
      · rw [hboth, hleast, Option.isSome_map]
        constructor
        · rintro (⟨e, he, hlimit⟩ | hlimit)
          · exact ⟨e + 1, Nat.succ_lt_succ he, hlimit⟩
          · exact ⟨0, Nat.succ_pos d, by simpa using hlimit⟩
        · rintro ⟨e, he, hlimit⟩
          cases e with
          | zero => exact .inr (by simpa using hlimit)
          | succ e => exact .inl ⟨e, Nat.lt_of_succ_lt_succ he, hlimit⟩
      · rw [walk, hwalk, follow, capped_add, hcapped, Finset.sum_range_succ', Nat.cast_zero,
          add_zero, add_assoc, add_comm (relay.step i)]

/-- A value that rises up to a limit, or does not change at all, comes to a stand. The induction is
on the distance from the limit. -/
theorem exists_steady_capped {least : Option Int} {s : Int} (rises : 0 ≤ s)
    (limited : 0 < s → least.isSome) (v : Int) :
    ∃ t, capped least ((fun v => capped least (v + s))^[t] v + s) =
      (fun v => capped least (v + s))^[t] v := by
  cases least with
  | none =>
      have hs : s = 0 := by
        by_contra hne
        exact absurd (limited (by omega)) Bool.false_ne_true
      exact ⟨0, by simp [capped, hs]⟩
  | some limit =>
      induction hgap : (limit - v).toNat using Nat.strong_induction_on generalizing v with
      | _ gap ih =>
          by_cases hstill : min (v + s) limit = v
          · exact ⟨0, hstill⟩
          · by_cases habove : limit < v
            · refine ⟨1, ?_⟩
              show min (min (v + s) limit + s) limit = min (v + s) limit
              omega
            · obtain ⟨t, ht⟩ := ih (limit - min (v + s) limit).toNat (by omega) _ rfl
              exact ⟨t + 1, ht⟩

section

variable {relay} [NeZero m]

/-- Once round every binding is met. -/
theorem exists_eq_add (k i : ZMod m) : ∃ e < m, k + (e : ZMod m) = i :=
  ⟨(i - k).val, ZMod.val_lt _, by rw [ZMod.natCast_zmod_val, add_sub_cancel]⟩

theorem sum_round (f : ZMod m → Int) (k : ZMod m) : ∑ e ∈ Finset.range m, f (k + e) = ∑ i, f i := by
  refine Finset.sum_nbij (fun e => k + (e : ZMod m)) ?_ ?_ ?_ fun _ _ => rfl
  · exact fun _ _ => Finset.mem_univ _
  · intro e he e' he' heq
    have hmod := (ZMod.natCast_eq_natCast_iff' e e' m).mp (add_left_cancel heq)
    rwa [Nat.mod_eq_of_lt (Finset.mem_range.mp he), Nat.mod_eq_of_lt (Finset.mem_range.mp he')]
      at hmod
  · intro i _
    obtain ⟨e, he, heq⟩ := exists_eq_add k i
    exact ⟨e, Finset.mem_coe.mpr (Finset.mem_range.mpr he), heq⟩

/-- No value goes round forever, if it does not fall and is limited as soon as it rises. -/
theorem exists_steady (rises : 0 ≤ ∑ i, relay.step i)
    (limited : 0 < ∑ i, relay.step i → ∃ i, (relay.limit i).isSome) (k : ZMod m) (v : Int) :
    ∃ t, relay.walk m k ((relay.walk m k)^[t] v) = (relay.walk m k)^[t] v := by
  obtain ⟨least, hleast, hwalk⟩ := exists_walk_eq relay m k
  rw [sum_round] at hwalk
  rw [show relay.walk m k = fun v => capped least (v + ∑ i, relay.step i) from funext hwalk]
  refine exists_steady_capped rises (fun hpos => ?_) v
  obtain ⟨i, hi⟩ := limited hpos
  obtain ⟨e, he, rfl⟩ := exists_eq_add k i
  exact hleast.mpr ⟨e, he, hi⟩

end

end Relay

end Trellis
