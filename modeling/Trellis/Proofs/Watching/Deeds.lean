import Mathlib.Data.List.Induction
import Trellis.Observable.Binding

/-!
# What is done to a list of watchers

A binding lists its watchers. Somebody may be registered, once or again, may be removed, or may be
found gone when a round begins, and what was done to the list decides who is on it and in which
order.

* `Deed`, `Deed.apply`, `Deed.replay` — what is done to the list, and what becomes of it.
* `Deed.Since` — the deed by which a watcher got its place.
* `Deed.Accounts`, `Deed.accounts_replay` — the watchers on the list are those who have a place, in
  the order of their places.
-/

namespace Trellis

/-- Something that is done to the list of a binding. -/
inductive Deed
  /-- A watcher is registered, or registered again. -/
  | watch (x : WatcherId)
  /-- A watcher is removed. -/
  | unwatch (x : WatcherId)
  /-- A round begins, which drops those who are gone. -/
  | round (gone : List WatcherId)
  deriving DecidableEq

namespace Deed

variable {log : List Deed} {roll : List WatcherId} {d : Deed} {x y : WatcherId} {i j : Nat}

/-- The list after a deed. -/
def apply (roll : List WatcherId) : Deed → List WatcherId
  | .watch x => if x ∈ roll then roll else roll ++ [x]
  | .unwatch x => roll.filter (· ≠ x)
  | .round gone => roll.filter (· ∉ gone)

/-- The list after a number of deeds, the first one first. -/
def replay (log : List Deed) (roll : List WatcherId) : List WatcherId :=
  log.foldl apply roll

@[simp] theorem map_replay_nil (roll : Option (List WatcherId)) : roll.map (replay []) = roll :=
  Option.map_id'

@[simp] theorem replay_append (log later : List Deed) (roll : List WatcherId) :
    replay (log ++ later) roll = replay later (replay log roll) :=
  List.foldl_append ..

/-- Whether a deed strikes a watcher off the list. -/
def Strikes (x : WatcherId) : Deed → Prop
  | .watch _ => False
  | .unwatch y => y = x
  | .round gone => x ∈ gone

/-- A round has found a watcher gone. -/
def Lost (log : List Deed) (x : WatcherId) : Prop := ∃ gone, .round gone ∈ log ∧ x ∈ gone

theorem mem_apply_watch : x ∈ apply roll (.watch y) ↔ x ∈ roll ∨ x = y := by
  simp only [apply]
  split
  · next hy => exact ⟨.inl, fun h => h.elim id fun heq => heq ▸ hy⟩
  · simp

/-- Only deeds that register somebody put somebody on the list. -/
theorem apply_sublist (h : ∀ y, d ≠ .watch y) (roll : List WatcherId) :
    (apply roll d).Sublist roll := by
  cases d with
  | watch y => exact absurd rfl (h y)
  | unwatch _ | round _ => exact List.filter_sublist

theorem mem_apply_of_ne (h : ∀ y, d ≠ .watch y) :
    x ∈ apply roll d ↔ x ∈ roll ∧ ¬ d.Strikes x := by
  cases d with
  | watch y => exact absurd rfl (h y)
  | unwatch y =>
      rw [apply, List.mem_filter, decide_eq_true_iff, ne_comm]
      rfl
  | round gone => simp [apply, Strikes]

/-- Whoever is on the list was on it or has been registered since. -/
theorem mem_replay (h : x ∈ replay log roll) : x ∈ roll ∨ .watch x ∈ log := by
  induction log using List.reverseRecOn with
  | nil => exact .inl h
  | append_singleton log d ih =>
      rw [replay_append] at h
      have hbefore : x ∈ replay log roll ∨ d = .watch x := by
        by_cases hd : ∃ y, d = .watch y
        · obtain ⟨y, rfl⟩ := hd
          exact (mem_apply_watch.mp h).imp_right fun heq => by rw [heq]
        · exact .inl (mem_apply_of_ne (fun y heq => hd ⟨y, heq⟩) |>.mp h).1
      rcases hbefore with hbefore | rfl
      · exact (ih hbefore).imp_right (List.mem_append_left _)
      · simp

/-! ## Places -/

/-- A watcher was registered by the deed of an index, and it was the first time since the last deed
that ends a registration: none of those came later, and one came after each earlier time. -/
structure Since (ends : Deed → Prop) (log : List Deed) (x : WatcherId) (i : Nat) : Prop where
  watched : log[i]? = some (.watch x)
  kept : ∀ j d, i < j → log[j]? = some d → ¬ ends d
  first : ∀ k, k < i → log[k]? = some (.watch x) → ∃ j d, k < j ∧ j < i ∧ log[j]? = some d ∧ ends d

variable {ends : Deed → Prop}

theorem Since.lt_length (h : Since ends log x i) : i < log.length :=
  (List.getElem?_eq_some_iff.mp h.watched).1

/-- A deed that strikes a watcher off the list came before the one by which it got its place. -/
theorem Since.lt_of_strikes (h : Since (Strikes x) log x i) (done : log[j]? = some d)
    (strikes : d.Strikes x) : j < i := by
  rcases Nat.lt_trichotomy j i with hji | rfl | hij
  · exact hji
  · rw [h.watched, Option.some.injEq] at done
    exact absurd (done ▸ strikes : Strikes x (.watch x)) id
  · exact absurd strikes (h.kept j d hij done)

/-- Whoever was registered, and not removed later, has a place. The induction goes back to the first
time of all. -/
theorem exists_since (plain : ¬ ends (.watch x)) (watched : log[i]? = some (.watch x))
    (kept : ∀ j d, i < j → log[j]? = some d → ¬ ends d) : ∃ k, Since ends log x k := by
  induction i using Nat.strongRecOn with
  | ind i ih =>
      by_cases hfirst : ∀ k, k < i → log[k]? = some (.watch x) →
          ∃ j d, k < j ∧ j < i ∧ log[j]? = some d ∧ ends d
      · exact ⟨i, watched, kept, hfirst⟩
      · push Not at hfirst
        obtain ⟨k, hki, hk, hnone⟩ := hfirst
        apply ih k hki hk
        intro j d hkj hj
        rcases Nat.lt_trichotomy j i with hji | rfl | hij
        · exact hnone j d hkj hji hj
        · rw [watched, Option.some.injEq] at hj
          exact hj ▸ plain
        · exact kept j d hij hj

/-- It depends on the deeds that were done only. -/
theorem since_congr {ends' : Deed → Prop} (h : ∀ d ∈ log, ends d ↔ ends' d) :
    Since ends log x i ↔ Since ends' log x i := by
  have hends {j : Nat} {d : Deed} (hj : log[j]? = some d) : ends d ↔ ends' d :=
    h d (List.mem_of_getElem? hj)
  constructor
  · intro ⟨watched, kept, first⟩
    refine ⟨watched, fun j d hij hj => (hends hj).not.mp (kept j d hij hj), fun k hki hk => ?_⟩
    obtain ⟨j, d, hkj, hji, hj, hd⟩ := first k hki hk
    exact ⟨j, d, hkj, hji, hj, (hends hj).mp hd⟩
  · intro ⟨watched, kept, first⟩
    refine ⟨watched, fun j d hij hj => (hends hj).not.mpr (kept j d hij hj), fun k hki hk => ?_⟩
    obtain ⟨j, d, hkj, hji, hj, hd⟩ := first k hki hk
    exact ⟨j, d, hkj, hji, hj, (hends hj).mpr hd⟩

/-- As long as no round has found a watcher gone, only its removal costs it its place. -/
theorem since_of_not_lost (h : ¬ Lost log x) :
    Since (Strikes x) log x i ↔ Since (· = .unwatch x) log x i := by
  apply since_congr
  intro d hd
  cases d with
  | watch y => simp [Strikes]
  | unwatch y => simp [Strikes]
  | round gone => simpa [Strikes] using fun hx => h ⟨gone, hd, hx⟩

/-- What another deed makes of the places: it takes some, and gives one to somebody who had none. -/
theorem since_concat (plain : ¬ ends (.watch x)) :
    Since ends (log ++ [d]) x i ↔ Since ends log x i ∧ ¬ ends d ∨
      i = log.length ∧ d = .watch x ∧ ∀ k, ¬ Since ends log x k := by
  have hold {j : Nat} (hj : j < log.length) : (log ++ [d])[j]? = log[j]? :=
    List.getElem?_append_left hj
  have hlast : (log ++ [d])[log.length]? = some d := List.getElem?_concat_length
  have hbefore {j : Nat} {d' : Deed} (hj : log[j]? = some d') : j < log.length :=
    (List.getElem?_eq_some_iff.mp hj).1
  constructor
  · intro h
    have hi := h.lt_length
    rw [List.length_append, List.length_singleton] at hi
    by_cases hlen : i < log.length
    · refine .inl ⟨⟨?_, fun j d' hij hj => ?_, fun k hki hk => ?_⟩, h.kept _ d hlen hlast⟩
      · rw [← hold hlen]
        exact h.watched
      · exact h.kept j d' hij (by rw [hold (hbefore hj), hj])
      · obtain ⟨j, d', hkj, hji, hj, hd'⟩ := h.first k hki (by rw [hold (hbefore hk), hk])
        exact ⟨j, d', hkj, hji, by rw [← hold (by omega), hj], hd'⟩
    · obtain rfl : i = log.length := by omega
      have hd : d = .watch x := by
        have hwatched := h.watched
        rwa [hlast, Option.some.injEq] at hwatched
      refine .inr ⟨rfl, hd, fun k hk => ?_⟩
      -- Somebody with a place was registered before, and nothing has ended that.
      have hklen := hk.lt_length
      obtain ⟨j, d', hkj, hjlen, hj, hd'⟩ := h.first k hklen (by rw [hold hklen, hk.watched])
      exact hk.kept j d' hkj (by rw [← hold hjlen, hj]) hd'
  · rintro (⟨h, hd⟩ | ⟨rfl, rfl, hnone⟩)
    · have hi := h.lt_length
      refine ⟨by rw [hold hi, h.watched], fun j d' hij hj => ?_, fun k hki hk => ?_⟩
      · by_cases hjlen : j < log.length
        · exact h.kept j d' hij (by rw [← hold hjlen, hj])
        · have hjlast := (List.getElem?_eq_some_iff.mp hj).1
          rw [List.length_append, List.length_singleton] at hjlast
          obtain rfl : j = log.length := by omega
          rw [hlast, Option.some.injEq] at hj
          exact hj ▸ hd
      · obtain ⟨j, d', hkj, hji, hj, hd'⟩ := h.first k hki (by rw [← hold (by omega), hk])
        exact ⟨j, d', hkj, hji, by rw [hold (by omega), hj], hd'⟩
    · refine ⟨hlast, fun j d' hij hj => ?_, fun k hki hk => ?_⟩
      · have hjlast := (List.getElem?_eq_some_iff.mp hj).1
        rw [List.length_append, List.length_singleton] at hjlast
        omega
      · rw [hold hki] at hk
        by_contra hkept
        push Not at hkept
        obtain ⟨i, hi⟩ := exists_since plain hk fun j d' hkj hj hd' =>
          hkept j d' hkj (hbefore hj) (by rw [hold (hbefore hj), hj]) hd'
        exact hnone i hi

/-! ## The list and its log -/

/-- A list agrees with what was done: nobody is on it twice, the watchers on it are those who have a
place, and they come in the order of their places. -/
structure Accounts (log : List Deed) (roll : List WatcherId) : Prop where
  nodup : roll.Nodup
  mem_iff : ∀ x, x ∈ roll ↔ ∃ i, Since (Strikes x) log x i
  ordered : roll.Pairwise fun x y =>
    ∀ i j, Since (Strikes x) log x i → Since (Strikes y) log y j → i < j

namespace Accounts

theorem nil : Accounts [] [] where
  nodup := List.nodup_nil
  mem_iff x := by
    refine iff_of_false List.not_mem_nil ?_
    rintro ⟨i, h⟩
    exact absurd h.lt_length (by simp)
  ordered := List.Pairwise.nil

/-- Whoever is on the list keeps the place it has, if any. -/
theorem since_of_concat (h : Accounts log roll) (listed : x ∈ roll)
    (since : Since (Strikes x) (log ++ [d]) x i) : Since (Strikes x) log x i := by
  rcases (since_concat id).mp since with ⟨hold, -⟩ | ⟨-, -, hnone⟩
  · exact hold
  · obtain ⟨k, hk⟩ := (h.mem_iff x).mp listed
    exact absurd hk (hnone k)

/-- The order of those who stay on the list is what it was. -/
theorem ordered_concat {kept : List WatcherId} (h : Accounts log roll) (sub : kept.Sublist roll)
    (d : Deed) : kept.Pairwise fun x y =>
      ∀ i j, Since (Strikes x) (log ++ [d]) x i → Since (Strikes y) (log ++ [d]) y j → i < j := by
  refine (h.ordered.sublist sub).imp_of_mem fun hx hy hbefore i j hi hj => ?_
  exact hbefore i j (h.since_of_concat (sub.subset hx) hi) (h.since_of_concat (sub.subset hy) hj)

/-- A deed that registers nobody. -/
theorem strike (h : Accounts log roll) (hd : ∀ y, d ≠ .watch y) :
    Accounts (log ++ [d]) (apply roll d) where
  nodup := h.nodup.sublist (apply_sublist hd roll)
  mem_iff x := by
    have hplaces (i : Nat) : Since (Strikes x) (log ++ [d]) x i ↔
        Since (Strikes x) log x i ∧ ¬ d.Strikes x := by
      rw [since_concat id]
      exact or_iff_left fun hnew => hd x hnew.2.1
    simp only [mem_apply_of_ne hd, h.mem_iff, hplaces, exists_and_right]
  ordered := h.ordered_concat (apply_sublist hd roll) d

/-- Somebody is registered. Whoever is on the list already keeps its place. -/
theorem watch (h : Accounts log roll) (y : WatcherId) :
    Accounts (log ++ [.watch y]) (apply roll (.watch y)) where
  nodup := by
    simp only [apply]
    split
    · exact h.nodup
    · next hy =>
        simpa [List.nodup_append, h.nodup] using fun x hx (heq : x = y) => hy (heq ▸ hx)
  mem_iff x := by
    rw [mem_apply_watch, h.mem_iff]
    constructor
    · rintro (⟨i, hi⟩ | rfl)
      · exact ⟨i, (since_concat id).mpr (.inl ⟨hi, id⟩)⟩
      · by_cases hlisted : ∃ i, Since (Strikes x) log x i
        · obtain ⟨i, hi⟩ := hlisted
          exact ⟨i, (since_concat id).mpr (.inl ⟨hi, id⟩)⟩
        · exact ⟨_, (since_concat id).mpr (.inr ⟨rfl, rfl, not_exists.mp hlisted⟩)⟩
    · rintro ⟨i, hi⟩
      rcases (since_concat id).mp hi with ⟨hold, -⟩ | ⟨-, heq, -⟩
      · exact .inl ⟨i, hold⟩
      · exact .inr (Deed.watch.inj heq).symm
  ordered := by
    have hold := h.ordered_concat (List.Sublist.refl roll) (.watch y)
    simp only [apply]
    split
    · exact hold
    · next hy =>
        refine List.pairwise_append.mpr ⟨hold, List.pairwise_singleton _ _, ?_⟩
        intro x hx z hz i j hi hj
        obtain rfl := List.mem_singleton.mp hz
        -- The others got their places by earlier deeds.
        have hi := (h.since_of_concat hx hi).lt_length
        rcases (since_concat id).mp hj with ⟨hplace, -⟩ | ⟨rfl, -, -⟩
        · exact absurd ((h.mem_iff z).mpr ⟨j, hplace⟩) hy
        · exact hi

theorem concat (h : Accounts log roll) (d : Deed) : Accounts (log ++ [d]) (apply roll d) := by
  cases d with
  | watch y => exact h.watch y
  | unwatch _ | round _ => exact h.strike (by simp)

/-- Whoever was registered, and was neither removed nor found gone later, is on the list. -/
theorem mem_of_watched (h : Accounts log roll) (watched : log[i]? = some (.watch x))
    (kept : ∀ j d, i < j → log[j]? = some d → ¬ d.Strikes x) : x ∈ roll :=
  (h.mem_iff x).mpr (exists_since id watched kept)

end Accounts

/-- Whatever is done to a list that was empty, the list agrees with it. The induction is on what was
done. -/
theorem accounts_replay (log : List Deed) : Accounts log (replay log []) := by
  induction log using List.reverseRecOn with
  | nil => exact .nil
  | append_singleton log d ih =>
      rw [replay_append]
      exact ih.concat d

end Deed

end Trellis
