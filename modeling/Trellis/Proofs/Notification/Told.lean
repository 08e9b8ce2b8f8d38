import Trellis.Proofs.Notification.Rounds

/-!
# Everybody is told

What a binding that is set from outside of any callback leaves behind, whatever its watchers do.

* `Duty.Effect.writes` — what a step adds to the history says which step it was.
* `Reaches.exists_next` — an entry of the history was written by one of the steps.
* `Machine.setContent_told` — rounds do not overlap, each calls exactly who listened when it began,
  and in the end nothing is left to tell.
-/

namespace Trellis

open Machine

variable {κ ρ : Type} {w w' : World κ ρ} {b : BindingId}

/-! ## Who wrote an entry -/

/-- What a step adds to the history, and what that says about the step. -/
structure Duty.Writes (duty : Duty κ ρ) (w w' : World κ ρ) (news : List Entry) : Prop where
  history : w'.history = w.history ++ news
  /-- A round begins with those who listen then. -/
  round : ∀ b watchers, .round b watchers ∈ news →
    news = [.round b watchers] ∧ duty = .rounds b [] ∧ watchers = w.listeners b
  /-- The call of a watcher is recorded before anything it does. -/
  called : ∀ x b, .called x b ∈ news →
    (∃ more, news = .called x b :: more ∧ ∀ entry ∈ more, entry.binding? = none) ∧
      ∃ rest, duty = .rounds b (x :: rest)
  /-- A content that differs is recorded. -/
  content : ∀ b, .changed b ∉ news →
    (w'.binding? b).map (·.content) = (w.binding? b).map (·.content)

namespace World

theorem Still.content (h : w.Still w') (b : BindingId) :
    (w'.binding? b).map (·.content) = (w.binding? b).map (·.content) := by
  have hb := h.bindings b
  generalize w.binding? b = before at hb
  generalize w'.binding? b = after at hb
  cases hb with
  | none => rfl
  | some hsame => exact congrArg some hsame.content

theorem content_inRound (w : World κ ρ) (c : BindingId) (b : BindingId) :
    ((w.inRound c).binding? b).map (·.content) = (w.binding? b).map (·.content) := by
  by_cases hc : c = b
  · subst hc
    rw [binding?_inRound_self, Option.map_map]
    rfl
  · rw [binding?_inRound_of_ne hc]

theorem content_settled (w : World κ ρ) (c : BindingId) (b : BindingId) :
    ((w.settled c).binding? b).map (·.content) = (w.binding? b).map (·.content) := by
  by_cases hc : c = b
  · subst hc
    rw [binding?_settled_self, Option.map_map]
    rfl
  · rw [binding?_settled_of_ne hc]

end World

namespace Duty.Effect

variable {duty : Duty κ ρ} {left : List (Duty κ ρ)}

/-- An entry about a binding is not among those about none. -/
theorem not_mem_of_binding? {news : List Entry} (hnone : ∀ entry ∈ news, entry.binding? = none)
    {entry : Entry} (h : entry.binding? = some b) : entry ∉ news := by
  intro hmem
  rw [hnone entry hmem] at h
  cases h

theorem writes_assigned {u : World κ ρ} {content : Content ρ} (still : w.Still u) :
    ∃ news, duty.Writes w (u.assigned b content) news := by
  obtain ⟨news, hnews, hnone⟩ := still.history
  refine ⟨news ++ [.changed b], ?_, ?_, ?_, ?_⟩
  · rw [World.history_assigned, hnews, List.append_assoc]
  · intro c watchers hmem
    rcases List.mem_append.mp hmem with hmem | hmem
    · exact absurd hmem (not_mem_of_binding? hnone rfl)
    · cases List.mem_singleton.mp hmem
  · intro x c hmem
    rcases List.mem_append.mp hmem with hmem | hmem
    · exact absurd hmem (not_mem_of_binding? hnone rfl)
    · cases List.mem_singleton.mp hmem
  · intro c hmem
    have hc : b ≠ c := by
      rintro rfl
      exact hmem (List.mem_append_right _ List.mem_cons_self)
    rw [World.binding?_assigned_of_ne hc]
    exact still.content c

/-- What a step adds to the history. -/
theorem writes (h : duty.Effect w left w') : ∃ news, duty.Writes w w' news := by
  cases h with
  | still _ _ still =>
      obtain ⟨news, hnews, hnone⟩ := still.history
      refine ⟨news, hnews, ?_, ?_, fun b _ => still.content b⟩
      · intro b watchers hmem
        exact absurd hmem (not_mem_of_binding? hnone rfl)
      · intro x b hmem
        exact absurd hmem (not_mem_of_binding? hnone rfl)
  | opens _ still => exact writes_assigned still
  | postpones _ still => exact writes_assigned still
  | @begins c =>
      refine ⟨_, World.history_inRound w c, ?_, ?_, fun b _ => World.content_inRound w c b⟩
      · intro b watchers hmem
        cases List.mem_singleton.mp hmem
        exact ⟨rfl, rfl, rfl⟩
      · intro x b hmem
        cases List.mem_singleton.mp hmem
  | @settles c =>
      refine ⟨_, World.history_settled w c, ?_, ?_, fun b _ => World.content_settled w c b⟩
      · intro b watchers hmem
        cases List.mem_singleton.mp hmem
      · intro x b hmem
        cases List.mem_singleton.mp hmem
  | @calls x c rest _ _ _ still =>
      obtain ⟨news, hnews, hnone⟩ := still.history
      rw [World.history_record, List.append_assoc] at hnews
      refine ⟨_, hnews, ?_, ?_, fun b _ => still.content b⟩
      · intro b watchers hmem
        rcases List.mem_cons.mp hmem with heq | hmem
        · cases heq
        · exact absurd hmem (not_mem_of_binding? hnone rfl)
      · intro y b hmem
        rcases List.mem_cons.mp hmem with heq | hmem
        · cases heq
          exact ⟨⟨news, rfl, hnone⟩, rest, rfl⟩
        · exact absurd hmem (not_mem_of_binding? hnone rfl)
  | @releases x c _ _ =>
      refine ⟨_, World.history_released w x c, ?_, ?_, fun _ _ => rfl⟩
      · intro b watchers hmem
        cases List.mem_singleton.mp hmem
      · intro y b hmem
        cases List.mem_singleton.mp hmem

end Duty.Effect

/-! ## Looking back on a run -/

variable [Ordered ρ] {app : App κ ρ} {m m' : Moment κ ρ}

namespace Reaches

/-- The history only grows, and a content that differs is recorded. -/
theorem grows (run : Reaches app m m') : ∃ news, m'.world.history = m.world.history ++ news ∧
    ∀ b, .changed b ∉ news →
      (m'.world.binding? b).map (·.content) = (m.world.binding? b).map (·.content) := by
  induction run with
  | refl => exact ⟨[], (List.append_nil _).symm, fun _ _ => rfl⟩
  | tail _ hnext ih =>
      obtain ⟨old, hold, hcontent⟩ := ih
      obtain @⟨duty, rest, left, u, v, hrun⟩ := hnext
      obtain ⟨news, hwrites⟩ := (Duty.effect_of_discharge hrun).writes
      refine ⟨old ++ news, ?_, ?_⟩
      · rw [hwrites.history, hold, List.append_assoc]
      · intro b hmem
        rw [List.mem_append, not_or] at hmem
        exact (hwrites.content b hmem.2).trans (hcontent b hmem.1)

/-- Every entry was written by one of the steps. The induction is on the steps, from the last. -/
theorem exists_next (run : Reaches app m m') {before later : List Entry} {entry : Entry}
    (history : m'.world.history = m.world.history ++ before ++ entry :: later) :
    ∃ duty rest u n front back, Reaches app m ⟨duty :: rest, u⟩ ∧
      Moment.Next app ⟨duty :: rest, u⟩ n ∧ Reaches app n m' ∧
      duty.Writes u n.world (front ++ entry :: back) ∧
      u.history ++ front = m.world.history ++ before := by
  induction run generalizing later with
  | refl =>
      have hlength := congrArg List.length history
      simp only [List.length_append, List.length_cons] at hlength
      omega
  | @tail k n hreach hnext ih =>
      obtain ⟨old, hold, -⟩ := grows hreach
      obtain @⟨duty, rest, left, u, v, hrun⟩ := hnext
      obtain ⟨news, hwrites⟩ := (Duty.effect_of_discharge hrun).writes
      have hwhole : m.world.history ++ (old ++ news) =
          m.world.history ++ (before ++ entry :: later) := by
        rw [← List.append_assoc, ← hold, ← List.append_assoc, ← history]
        exact hwrites.history.symm
      have heq := List.append_cancel_left hwhole
      -- Either the last step wrote the entry, or it was there before.
      rcases List.append_eq_append_iff.mp heq with ⟨front, rfl, rfl⟩ | ⟨more, rfl, hmore⟩
      · refine ⟨duty, rest, u, _, front, later, hreach, .discharge hrun, .refl, hwrites, ?_⟩
        rw [hold, List.append_assoc]
      · cases more with
        | nil =>
            refine ⟨duty, rest, u, _, [], later, hreach, .discharge hrun, .refl, ?_, ?_⟩
            · rw [List.nil_append, hmore]
              exact hwrites
            · rw [hold, List.append_nil, List.append_nil]
        | cons first more =>
            rw [List.cons_append, List.cons.injEq] at hmore
            obtain ⟨rfl, -⟩ := hmore
            have hearlier : u.history = m.world.history ++ before ++ entry :: more := by
              rw [hold, List.append_assoc]
            obtain ⟨duty', rest', u', n, front, back, hfirst, hmid, hlast, hbefore⟩ := ih hearlier
            exact ⟨duty', rest', u', n, front, back, hfirst, hmid, hlast.tail (.discharge hrun),
              hbefore⟩

/-- A round began in a state of the run, with those who listened then. -/
theorem exists_round (run : Reaches app m m') {before later : List Entry}
    {watchers : List WatcherId}
    (history : m'.world.history = m.world.history ++ before ++ .round b watchers :: later) :
    ∃ rest u, Reaches app m ⟨.rounds b [] :: rest, u⟩ ∧
      u.history = m.world.history ++ before ∧ watchers = u.listeners b := by
  obtain ⟨duty, rest, u, n, front, back, hfirst, -, -, hwrites, hbefore⟩ :=
    exists_next run history
  obtain ⟨hnews, rfl, hwatchers⟩ :=
    hwrites.round b watchers (List.mem_append_right _ List.mem_cons_self)
  -- The step that begins a round writes nothing else.
  cases front with
  | nil =>
      rw [List.append_nil] at hbefore
      exact ⟨rest, u, hfirst, hbefore, hwatchers⟩
  | cons first more => simp at hnews

/-- A watcher was called in a state of the run. From then on the content of a binding is the same
unless a change of it is recorded. -/
theorem exists_called (run : Reaches app m m') {before later : List Entry} {x : WatcherId}
    (history : m'.world.history = m.world.history ++ before ++ .called x b :: later) :
    ∃ watchers rest u, Reaches app m ⟨.rounds b (x :: watchers) :: rest, u⟩ ∧
      u.history = m.world.history ++ before ∧ ∀ c, .changed c ∉ later →
        (u.binding? c).map (·.content) = (m'.world.binding? c).map (·.content) := by
  obtain ⟨duty, rest, u, n, front, back, hfirst, hmid, hlast, hwrites, hbefore⟩ :=
    exists_next run history
  obtain ⟨⟨more, hnews, hnone⟩, watchers, rfl⟩ :=
    hwrites.called x b (List.mem_append_right _ List.mem_cons_self)
  cases front with
  | cons first front =>
      -- What a step writes after the call is about no binding.
      rw [List.cons_append, List.cons.injEq] at hnews
      have hmem : .called x b ∈ more := by
        rw [← hnews.2]
        exact List.mem_append_right _ List.mem_cons_self
      exact absurd hmem (Duty.Effect.not_mem_of_binding? hnone rfl)
  | nil =>
      rw [List.append_nil] at hbefore
      refine ⟨watchers, rest, u, hfirst, hbefore, fun c hc => ?_⟩
      obtain ⟨news, hnews, hcontent⟩ := grows (.head hmid hlast)
      have heq : news = .called x b :: later := by
        rw [history, ← hbefore] at hnews
        exact (List.append_cancel_left hnews).symm
      refine (hcontent c ?_).symm
      rw [heq]
      intro hmem
      rcases List.mem_cons.mp hmem with hmem | hmem
      · cases hmem
      · exact hc hmem

end Reaches

/-- What a run that is started from outside of any callback does to the rounds of all bindings. It
begins at `start`, ends in the state `w`, and adds `news` to the history. -/
structure Told (app : App κ ρ) (start : Moment κ ρ) (w : World κ ρ) (news : List Entry) : Prop where
  ends : Reaches app start ⟨[], w⟩
  history : w.history = start.world.history ++ news
  /-- No binding is left in a round, and none has a change left to tell. -/
  quiescent : w.Quiescent
  /-- A round calls everybody who listened when it began, once each and in order. No other round of
  the binding begins meanwhile, and there is another one afterwards if it changed meanwhile. -/
  round : ∀ b watchers before later, news = before ++ .round b watchers :: later →
    Entry.Fulfilled b watchers later ∧ watchers.Nodup ∧
      ∃ rest u, Reaches app start ⟨.rounds b [] :: rest, u⟩ ∧
        u.history = start.world.history ++ before ∧ watchers = u.listeners b
  /-- To set a binding that is in a round only stores the content. -/
  postponed : ∀ b content next rest u binding n,
    Reaches app start ⟨.run (.set b content next) :: rest, u⟩ →
    u.binding? b = some binding → binding.notifying = true →
    Moment.Next app ⟨.run (.set b content next) :: rest, u⟩ n →
      n = ⟨.run (next false) :: rest, u⟩ ∨
      n = ⟨.run (next true) :: rest,
        (u.modifyBinding b ({ · with content := content, pending := true })).record (.changed b)⟩
  /-- Whoever listens to a binding from its last change to the end is called after that change, when
  the content is the final one. -/
  last : ∀ b before later, news = before ++ .changed b :: later → .changed b ∉ later →
    ∀ x, (∀ n, Reaches app start n →
      start.world.history ++ before ++ [.changed b] <+: n.world.history →
        x ∈ n.world.listeners b) →
    ∃ during rest watchers agenda u, later = during ++ .called x b :: rest ∧
      Reaches app start ⟨.rounds b (x :: watchers) :: agenda, u⟩ ∧
      u.history = start.world.history ++ before ++ .changed b :: during ∧
      (u.binding? b).map (·.content) = (w.binding? b).map (·.content)

/-- In a round everybody who is to be called is called. -/
theorem Entry.Fulfilled.mem_called {watchers : List WatcherId} {later : List Entry}
    (h : Entry.Fulfilled b watchers later) {x : WatcherId} (hx : x ∈ watchers) :
    .called x b ∈ later := by
  obtain ⟨during, close, rest, rfl, hcalls, -, -⟩ := h
  have hmem : .called x b ∈ Entry.calls b watchers :=
    List.mem_flatMap.mpr ⟨x, hx, List.mem_cons_self⟩
  rw [← hcalls] at hmem
  exact List.mem_append_left _ (List.mem_filter.mp hmem).1

/-- A binding that is in a round and is set. -/
theorem Moment.Next.postponed {content : Content ρ} {next : Bool → Program κ ρ Unit}
    {rest : List (Duty κ ρ)} {u : World κ ρ} {binding : Binding ρ}
    (found : u.binding? b = some binding) (busy : binding.notifying = true)
    (h : Next app ⟨.run (.set b content next) :: rest, u⟩ m) :
    m = ⟨.run (next false) :: rest, u⟩ ∨
      m = ⟨.run (next true) :: rest,
        (u.modifyBinding b ({ · with content := content, pending := true })).record
          (.changed b)⟩ := by
  obtain @⟨_, _, left, _, v, run⟩ := h
  obtain ⟨⟨changed, rounds⟩, v', hassign, hthen⟩ := bind_eq_ok.mp run
  obtain ⟨rfl, rfl⟩ := pure_eq_ok.mp hthen
  rcases assign_eq_ok hassign with ⟨rfl, rfl, rfl, -⟩ | ⟨found', hfound, -, rfl, rfl, rfl⟩
  · exact .inl rfl
  · rw [found, Option.some.injEq] at hfound
    subst hfound
    refine .inr ?_
    rw [busy]
    refine congrArg (Moment.mk (.run (next true) :: rest)) ?_
    refine congrArg (World.record · (.changed b)) (World.modifyBinding_congr u b fun x hx => ?_)
    rw [found, Option.some.injEq] at hx
    subst hx
    rw [← busy]

/-- A callback that is run while nobody is being told of anything. -/
theorem Reaches.told {program : Program κ ρ Unit} (quiescent : w.Quiescent)
    (run : Reaches app ⟨[.run program], w⟩ ⟨[], w'⟩) :
    ∃ news, Told app ⟨[.run program], w⟩ w' news := by
  have hsound := (Moment.Sound.of_quiescent quiescent program).reaches run
  obtain ⟨hquiescent, news, hnews, hphase⟩ := hsound.settled
  have hround (b : BindingId) (watchers : List WatcherId) (before later : List Entry)
      (h : news = before ++ .round b watchers :: later) :
      ∃ rest u, Reaches app ⟨[.run program], w⟩ ⟨.rounds b [] :: rest, u⟩ ∧
        u.history = w.history ++ before ∧ watchers = u.listeners b := by
    have hhistory : w'.history = w.history ++ before ++ .round b watchers :: later := by
      rw [List.append_assoc, ← h]
      exact hnews
    exact run.exists_round hhistory
  refine ⟨news, run, hnews, hquiescent, ?_, ?_, ?_⟩
  · intro b watchers before later h
    -- Nobody listens twice, as nobody is registered twice.
    refine ⟨Phase.fulfilled_of_follow (h ▸ hphase b), ?_, hround b watchers before later h⟩
    obtain ⟨rest, u, hreach, -, rfl⟩ := hround b watchers before later h
    have hu := ((Moment.Sound.of_quiescent quiescent program).reaches hreach).nodup b
    rw [World.listeners]
    cases hb : u.binding? b with
    | none => exact List.nodup_nil
    | some binding => exact (hu binding hb).filter _
  · intro b content next rest u binding n _ found busy hnext
    exact hnext.postponed found busy
  · intro b before later h hlast x hlisten
    -- The last change is followed by a round, which calls the watcher if it listened then.
    obtain ⟨during, watchers, rest, hlater⟩ := Phase.exists_round_of_changed (h ▸ hphase b)
    have hsplit : news = (before ++ .changed b :: during) ++ .round b watchers :: rest := by
      rw [h, hlater, List.append_assoc]
      rfl
    obtain ⟨agenda, u, hreach, hu, hwatchers⟩ := hround b watchers _ rest hsplit
    have hx : x ∈ watchers := by
      rw [hwatchers]
      refine hlisten _ hreach ⟨during, ?_⟩
      rw [hu, List.append_assoc, List.append_assoc]
      rfl
    -- That call is in the history, and the content was final by then.
    have hfulfilled : Entry.Fulfilled b watchers rest :=
      Phase.fulfilled_of_follow (hsplit ▸ hphase b)
    obtain ⟨front, back, hrest⟩ := List.append_of_mem (hfulfilled.mem_called hx)
    have hcall : news =
        (before ++ .changed b :: (during ++ .round b watchers :: front)) ++ .called x b :: back := by
      rw [hsplit, hrest]
      simp only [List.append_assoc, List.cons_append]
    have hhistory : w'.history = w.history ++
        (before ++ .changed b :: (during ++ .round b watchers :: front)) ++
          .called x b :: back := by
      rw [List.append_assoc, ← hcall]
      exact hnews
    obtain ⟨after, agenda', u', hreach', hu', hcontent⟩ := run.exists_called hhistory
    refine ⟨during ++ .round b watchers :: front, back, after, agenda', u', ?_, hreach', ?_, ?_⟩
    · rw [hlater, hrest, List.append_assoc]
      rfl
    · rw [hu', List.append_assoc]
    · refine hcontent b fun hmem => hlast ?_
      rw [hlater, hrest]
      exact List.mem_append_right _ (List.mem_cons_of_mem _
        (List.mem_append_right _ (List.mem_cons_of_mem _ hmem)))

/-- Setting a binding from outside of any callback, whatever the watchers of all bindings do: rounds
of one binding never overlap, each of them calls exactly who listened when it began, and in the end
nothing is left to tell. -/
theorem Machine.setContent_told {fuel : Nat} {b : BindingId} {content : Content ρ} {changed : Bool}
    (quiescent : w.Quiescent)
    (run : setContent (.ofFuel app fuel) b content w = .ok (changed, w')) :
    ∃ news, Told app ⟨[.run (.set b content fun _ => .done ())], w⟩ w' news :=
  Reaches.told quiescent (.of_setContent run)

/-! ## An application that keeps a level down -/

/-- An application whose watcher sets a level that is above ten to ten. -/
def App.levelling : App Unit Empty :=
  { App.idle with
    watcher := fun _ b => .read b fun
      | some (_, .one (.int n)) =>
        if 10 < n then .set b (.one (.int 10)) fun _ => .done () else .done ()
      | _ => .done () }

/-- A level, which its watcher keeps down. -/
def World.levelled : World Unit Empty where
  bindings := #[{ name := "level", content := .one (.int 0), watchers := [⟨0⟩] }]
  watchers := #[{ watcher := .callback () }]

/-- Raising the level takes two rounds, as the watcher sets it in the first. -/
theorem Machine.setContent_told_levelled :
    World.levelled.Quiescent ∧ ∃ w news,
      setContent (.ofFuel App.levelling 2) ⟨0⟩ (.one (.int 20)) World.levelled = .ok (true, w) ∧
      w.history = [.changed ⟨0⟩, .round ⟨0⟩ [⟨0⟩], .called ⟨0⟩ ⟨0⟩, .changed ⟨0⟩, .returned ⟨0⟩ ⟨0⟩,
        .round ⟨0⟩ [⟨0⟩], .called ⟨0⟩ ⟨0⟩, .returned ⟨0⟩ ⟨0⟩, .settled ⟨0⟩] ∧
      Told App.levelling ⟨[.run (.set ⟨0⟩ (.one (.int 20)) fun _ => .done ())], World.levelled⟩ w
        news := by
  have hquiescent : World.levelled.Quiescent := by
    rintro ⟨i⟩ binding hb
    cases i with
    | zero =>
        cases hb
        exact ⟨rfl, rfl, List.nodup_cons.mpr ⟨List.not_mem_nil, List.nodup_nil⟩⟩
    | succ i => cases hb
  obtain ⟨w, hrun, hhistory⟩ : ∃ w,
      setContent (.ofFuel App.levelling 2) ⟨0⟩ (.one (.int 20)) World.levelled = .ok (true, w) ∧
      w.history = [.changed ⟨0⟩, .round ⟨0⟩ [⟨0⟩], .called ⟨0⟩ ⟨0⟩, .changed ⟨0⟩, .returned ⟨0⟩ ⟨0⟩,
        .round ⟨0⟩ [⟨0⟩], .called ⟨0⟩ ⟨0⟩, .returned ⟨0⟩ ⟨0⟩, .settled ⟨0⟩] := ⟨_, rfl, rfl⟩
  obtain ⟨news, htold⟩ := setContent_told hquiescent hrun
  exact ⟨hquiescent, w, news, hrun, hhistory, htold⟩

end Trellis
