import Trellis.Proofs.Mirror.Steady
import Trellis.Proofs.Notification.Relay
import Trellis.Proofs.Notification.Setting

/-!
# Setting a binding of a relay

A binding of a relay that is set has its watcher set the next one, and so on, until one has its
value already or the way leads back to the first, which is busy and tells of the change in another
round. As no value goes round forever, this comes to an end, with everything linked that has
changed.

* `Relay.At` — the values of a relay in a state, and how far the telling of each has come.
* `Relay.At.setContent` — a binding that is set while another one, further on, is busy.
* `Relay.At.drain` — the rounds of the first binding.
* `Relay.setContent_links` — a binding that is set from outside.
-/

namespace Trellis

variable {κ ρ : Type} {w w' : World κ ρ}

namespace Relay

variable {m : Nat} {relay : Relay m} {app : App κ ρ} {values values' : ZMod m → Int}
  {flags flags' : ZMod m → Bool × Bool} {i j k : ZMod m} {v : Int}

/-- The values of a relay in a state, with nobody else listening. The flags tell which bindings are
being told of, and which have a change left to tell. -/
structure At (relay : Relay m) (app : App κ ρ) (values : ZMod m → Int)
    (flags : ZMod m → Bool × Bool) (w : World κ ρ) : Prop where
  content : ∀ i, w.content? (relay.binding i) = some (.one (.int (values i)))
  flags : ∀ i, w.flags (relay.binding i) = flags i
  listeners : ∀ i, w.listeners (relay.binding i) = [relay.watcher i]
  calls : ∀ i, ∃ code, w.CallsBack (relay.watcher i) code ∧
    app.watcher code (relay.binding i) = relay.callback i

namespace At

theorem found (h : relay.At app values flags w) (i : ZMod m) :
    ∃ binding, w.binding? (relay.binding i) = some binding ∧
      binding.content = .one (.int (values i)) ∧
      flags i = (binding.notifying, binding.pending) := by
  obtain ⟨binding, hbinding, hcontent⟩ := Option.map_eq_some_iff.mp (h.content i)
  refine ⟨binding, hbinding, hcontent, ?_⟩
  rw [← h.flags i, World.flags_of_binding? hbinding]

/-- A change of something else. -/
theorem congr (h : relay.At app values flags w) (bindings : ∀ b, w'.binding? b = w.binding? b)
    (alive : w'.watcherAlive = w.watcherAlive) (watchers : w'.watchers = w.watchers) :
    relay.At app values flags w' where
  content i := by rw [World.content?, bindings, ← World.content?, h.content i]
  flags i := by rw [World.flags_eq_of_binding? (bindings _), h.flags i]
  listeners i := by rw [World.listeners_congr (by rw [bindings]) alive, h.listeners i]
  calls i := by
    obtain ⟨code, ⟨cell, hcell, hcode⟩, happ⟩ := h.calls i
    refine ⟨code, ⟨cell, ?_, hcode⟩, happ⟩
    rw [World.watcher?, watchers]
    exact hcell

/-- A change of one binding. -/
theorem alter (h : relay.At app values flags w) {f : Bool × Bool}
    (others : ∀ b, relay.binding i ≠ b → w'.binding? b = w.binding? b)
    (alive : w'.watcherAlive = w.watcherAlive) (watchers : w'.watchers = w.watchers)
    (content : w'.content? (relay.binding i) = some (.one (.int v)))
    (flag : w'.flags (relay.binding i) = f)
    (listeners : w'.listeners (relay.binding i) = w.listeners (relay.binding i)) :
    relay.At app (Function.update values i v) (Function.update flags i f) w' where
  content j := by
    by_cases hj : j = i
    · rw [hj, Function.update_self, content]
    · have hne : relay.binding i ≠ relay.binding j := fun heq => hj (relay.distinct heq.symm)
      rw [Function.update_of_ne hj, World.content?, others _ hne, ← World.content?, h.content j]
  flags j := by
    by_cases hj : j = i
    · rw [hj, Function.update_self, flag]
    · have hne : relay.binding i ≠ relay.binding j := fun heq => hj (relay.distinct heq.symm)
      rw [Function.update_of_ne hj, World.flags_eq_of_binding? (others _ hne), h.flags j]
  listeners j := by
    by_cases hj : j = i
    · rw [hj, listeners, h.listeners i]
    · have hne : relay.binding i ≠ relay.binding j := fun heq => hj (relay.distinct heq.symm)
      rw [World.listeners_congr (by rw [others _ hne]) alive, h.listeners j]
  calls j := by
    obtain ⟨code, ⟨cell, hcell, hcode⟩, happ⟩ := h.calls j
    refine ⟨code, ⟨cell, ?_, hcode⟩, happ⟩
    rw [World.watcher?, watchers]
    exact hcell

theorem assigned (h : relay.At app values flags w) (i : ZMod m) (v : Int) :
    relay.At app (Function.update values i v) (Function.update flags i (true, true))
      (w.assigned (relay.binding i) (.one (.int v))) := by
  obtain ⟨binding, hbinding, -, -⟩ := h.found i
  have halive : (w.assigned (relay.binding i) (.one (.int v))).watcherAlive = w.watcherAlive :=
    (World.sameHolders_assigned w _ _).watcherAlive rfl
  have hself : (w.assigned (relay.binding i) (.one (.int v))).binding? (relay.binding i) =
      some { binding with content := .one (.int v), notifying := true, pending := true } := by
    rw [World.assigned, World.binding?_record, World.binding?_modifyBinding_self, hbinding]
    rfl
  refine h.alter (fun b hb => World.binding?_assigned_of_ne hb _) halive rfl ?_ ?_ ?_
  · rw [World.content?, hself]
    rfl
  · exact World.flags_assigned hbinding _
  · refine World.listeners_congr ?_ halive
    rw [hself, hbinding]
    rfl

theorem inRound (h : relay.At app values flags w) (i : ZMod m) :
    relay.At app values (Function.update flags i ((flags i).1, false))
      (w.inRound (relay.binding i)) := by
  have hcontent : (w.inRound (relay.binding i)).content? (relay.binding i) =
      some (.one (.int (values i))) := by
    rw [World.content?, World.binding?_inRound_self, Option.map_map]
    exact h.content i
  have hat := h.alter (fun b hb => World.binding?_inRound_of_ne hb)
    (World.watcherAlive_inRound w _) rfl hcontent (World.flags_inRound w _)
    (World.listeners_inRound w _)
  rwa [Function.update_eq_self, h.flags i] at hat

theorem settled (h : relay.At app values flags w) (i : ZMod m) :
    relay.At app values (Function.update flags i (false, (flags i).2))
      (w.settled (relay.binding i)) := by
  have halive : (w.settled (relay.binding i)).watcherAlive = w.watcherAlive :=
    (World.sameHolders_settled w _).watcherAlive rfl
  have hcontent : (w.settled (relay.binding i)).content? (relay.binding i) =
      some (.one (.int (values i))) := by
    rw [World.content?, World.binding?_settled_self, Option.map_map]
    exact h.content i
  have hat := h.alter (fun b hb => World.binding?_settled_of_ne hb) halive rfl hcontent
    (World.flags_settled w _) (World.listeners_congr (by
      rw [World.binding?_settled_self, Option.map_map]; rfl) halive)
  rwa [Function.update_eq_self, h.flags i] at hat

end At

/-! ## What is written down -/

/-- Changes of these bindings of a relay, and of no other one of it, have been written down. -/
def Marks (relay : Relay m) (touched : ZMod m → Prop) (w w' : World κ ρ) : Prop :=
  ∃ news, w'.history = w.history ++ news ∧ ∀ i, .changed (relay.binding i) ∈ news ↔ touched i

namespace Marks

variable {touched later : ZMod m → Prop} {u : World κ ρ}

theorem trans (h : relay.Marks touched w u) (h' : relay.Marks later u w') :
    relay.Marks (fun i => touched i ∨ later i) w w' := by
  obtain ⟨news, hnews, hmem⟩ := h
  obtain ⟨news', hnews', hmem'⟩ := h'
  refine ⟨news ++ news', by rw [hnews', hnews, List.append_assoc], fun i => ?_⟩
  rw [List.mem_append, hmem, hmem']

theorem congr (h : relay.Marks touched w w') (same : ∀ i, touched i ↔ later i) :
    relay.Marks later w w' := by
  obtain ⟨news, hnews, hmem⟩ := h
  exact ⟨news, hnews, fun i => (hmem i).trans (same i)⟩

theorem refl (w : World κ ρ) : relay.Marks (fun _ => False) w w :=
  ⟨[], (List.append_nil _).symm, fun _ => by simp⟩

/-- An entry that is no change. -/
theorem quiet {entry : Entry} (history : w'.history = w.history ++ [entry])
    (unchanged : ∀ b, entry ≠ .changed b) : relay.Marks (fun _ => False) w w' :=
  ⟨[entry], history, fun i => by simpa using (unchanged _).symm⟩

theorem assigned (i : ZMod m) (content : Content ρ) :
    relay.Marks (· = i) w (w.assigned (relay.binding i) content) :=
  ⟨_, World.history_assigned w _ _, fun j => by simpa using relay.distinct.eq_iff⟩

end Marks

/-! ## Steps -/

section

variable [Ordered ρ] {r : Reentry κ ρ} {rounds : Nat} {b : BindingId}

open Machine

/-- One round with one watcher, which calls the application back. -/
theorem round_of_listener {x : WatcherId} {code : κ} {u : World κ ρ}
    (listeners : w.listeners b = [x]) (calls : w.CallsBack x code)
    (run : (app.watcher code b).run r ((w.inRound b).record (.called x b)) = .ok ((), u)) :
    Machine.round app r b w = .ok ((), u.released x b) := by
  obtain ⟨cell, hcell, hcode⟩ := calls
  have hcall : call app x b (w.inRound b) =
      .ok (app.watcher code b, (w.inRound b).record (.called x b)) := by
    refine bind_eq_ok.mpr ⟨(), _, rfl, bind_eq_ok.mpr ⟨_, _, rfl, ?_⟩⟩
    have hcell' : ((w.inRound b).record (.called x b)).watcher? x = some cell := hcell
    simp only [hcell', hcode]
    rfl
  have hbegin : beginRound b w = .ok ([x], w.inRound b) := listeners ▸ rfl
  refine bind_eq_ok.mpr ⟨[x], w.inRound b, hbegin, bind_eq_ok.mpr ⟨_, _, hcall, ?_⟩⟩
  exact bind_eq_ok.mpr ⟨(), u, run, bind_eq_ok.mpr ⟨(), u.released x b, rfl, rfl⟩⟩

namespace At

/-- The callback of a binding sets the next one. -/
theorem run_callback (h : relay.At app values flags w) {changed : Bool}
    (set : Machine.setContent r (relay.binding (i + 1))
      (.one (.int (relay.follow i (values i)))) w = .ok (changed, w')) :
    (relay.callback i).run r w = .ok ((), w') := by
  obtain ⟨binding, hbinding, hcontent, -⟩ := h.found i
  refine bind_eq_ok.mpr ⟨w, w, rfl, ?_⟩
  simp only [hbinding, Option.map_some, hcontent]
  exact bind_eq_ok.mpr ⟨changed, w', set, rfl⟩

/-- A binding that has the value already is left alone. -/
theorem setContent_of_eq (h : relay.At app values flags w) (same : values i = v) :
    Machine.setContent r (relay.binding i) (.one (.int v)) w = .ok (false, w) := by
  obtain ⟨binding, hbinding, hcontent, -⟩ := h.found i
  refine setContent_of_same fun other hother h => ?_
  cases hbinding.symm.trans hother
  rw [hcontent, same] at h
  exact bne_iff_ne.mp h.2 rfl

/-- A binding that has another value. -/
theorem found_of_ne (h : relay.At app values flags w) (other : values i ≠ v) :
    ∃ binding, w.binding? (relay.binding i) = some binding ∧
      binding.content.shape = (Content.one (.int v) : Content ρ).shape ∧
      binding.content.differs (.one (.int v)) = true ∧
      flags i = (binding.notifying, binding.pending) := by
  obtain ⟨binding, hbinding, hcontent, hflags⟩ := h.found i
  refine ⟨binding, hbinding, ?_, ?_, hflags⟩
  · rw [hcontent]
    rfl
  · rw [hcontent]
    exact bne_iff_ne.mpr other

theorem setContent_busy (h : relay.At app values flags w) (other : values i ≠ v)
    (busy : (flags i).1 = true) (fuel : Nat) :
    Machine.setContent (.ofFuel app (fuel + 1)) (relay.binding i) (.one (.int v)) w =
      .ok (true, w.assigned (relay.binding i) (.one (.int v))) := by
  obtain ⟨binding, hbinding, hshape, hdiffers, hflags⟩ := h.found_of_ne other
  rw [hflags] at busy
  exact setContent_of_busy hbinding hshape hdiffers busy

theorem setContent_idle (h : relay.At app values flags w) (other : values i ≠ v)
    (idle : (flags i).1 = false) {fuel : Nat} {u : World κ ρ}
    (drained : Machine.drain app (.ofFuel app fuel) (fuel + 1) (relay.binding i)
      (w.assigned (relay.binding i) (.one (.int v))) = .ok ((), u)) :
    Machine.setContent (.ofFuel app (fuel + 1)) (relay.binding i) (.one (.int v)) w =
      .ok (true, u.settled (relay.binding i)) := by
  obtain ⟨binding, hbinding, hshape, hdiffers, hflags⟩ := h.found_of_ne other
  rw [hflags] at idle
  exact setContent_of_drain hbinding hshape hdiffers idle drained

end At

/-- How a part of a run ends: with these values and flags, these changes written down, and everybody
held who was. -/
structure Ends (relay : Relay m) (app : App κ ρ) (values : ZMod m → Int)
    (flags : ZMod m → Bool × Bool) (touched : ZMod m → Prop) (w w' : World κ ρ) : Prop where
  at_end : relay.At app values flags w'
  holders : w.SameHolders w'
  awaiting : w'.awaiting = w.awaiting
  marks : relay.Marks touched w w'

/-- How setting a binding ends while another one, `k`, is busy: the value has been passed on. -/
def Passed (relay : Relay m) (app : App κ ρ) (d : Nat) (i k : ZMod m) (v : Int)
    (values : ZMod m → Int) (flags : ZMod m → Bool × Bool) (w w' : World κ ρ) : Prop :=
  let now := relay.pass d i v values
  relay.Ends app now (Function.update flags k (true, decide (now k ≠ values k)))
    (fun j => now j ≠ values j) w w'

/-- One round of a binding, given what comes of setting the next one. -/
theorem At.round (h : relay.At app values flags w) {d : Nat} (flag : flags i = (true, true))
    (set : ∀ u, relay.At app values (Function.update flags i (true, false)) u →
      ∃ changed u', (∀ fuel > d, Machine.setContent (.ofFuel app fuel) (relay.binding (i + 1))
        (.one (.int (relay.follow i (values i)))) u = .ok (changed, u')) ∧
        relay.Passed app d (i + 1) k (relay.follow i (values i)) values
          (Function.update flags i (true, false)) u u') :
    ∃ w', (∀ fuel > d, Machine.round app (.ofFuel app fuel) (relay.binding i) w = .ok ((), w')) ∧
      relay.Passed app d (i + 1) k (relay.follow i (values i)) values
        (Function.update flags i (true, false)) w w' := by
  obtain ⟨code, hcalls, happ⟩ := h.calls i
  let b := relay.binding i
  let x := relay.watcher i
  let u := (w.inRound b).record (.called x b)
  have hcalled : (w.inRound b).SameHolders u := World.sameHolders_record _ _
  have hholders : w.SameHolders u := trans_of World.SameHolders (w.sameHolders_inRound b) hcalled
  have hu : relay.At app values (Function.update flags i (true, false)) u := by
    have hbegun : relay.At app values (Function.update flags i ((flags i).1, false)) u :=
      (h.inRound i).congr (fun _ => rfl) (hcalled.watcherAlive rfl) rfl
    rwa [flag] at hbegun
  obtain ⟨changed, u', hset, hends⟩ := set u hu
  -- What the round has added to who is awaited is taken away again.
  have hawaiting : (u'.released x b).awaiting = w.awaiting := by
    show u'.awaiting.erase x = w.awaiting
    rw [hends.awaiting]
    show (w.listeners b ++ w.awaiting).erase x = w.awaiting
    rw [h.listeners i]
    exact List.erase_cons_head x w.awaiting
  have hend : w.SameHolders (u'.released x b) :=
    trans_of World.SameHolders (trans_of World.SameHolders hholders hends.holders)
      (u'.sameHolders_released x b)
  refine ⟨u'.released x b, fun fuel hfuel => ?_, ?_, hend, hawaiting, ?_⟩
  · refine round_of_listener (h.listeners i) hcalls ?_
    rw [happ]
    exact hu.run_callback (hset fuel hfuel)
  · refine hends.at_end.congr (fun _ => rfl) ?_ rfl
    rw [hend.watcherAlive hawaiting, hends.holders.watcherAlive hends.awaiting,
      hcalled.watcherAlive rfl, w.watcherAlive_inRound]
  · have hbegins : relay.Marks (fun _ => False) w u :=
      ((Marks.quiet (World.history_inRound w b) nofun).trans
        (Marks.quiet (World.history_record _ _) fun b => by simp)).congr fun _ => or_self_iff
    have hreleased : relay.Marks (fun _ => False) u' (u'.released x b) :=
      Marks.quiet (World.history_released u' x b) nofun
    refine ((hbegins.trans hends.marks).trans hreleased).congr fun i => ?_
    rw [false_or, or_false]

/-! ## Passing a value on -/

/-- A binding that has the value already is left alone, and so is the busy one. -/
theorem At.setContent_kept (h : relay.At app values flags w) {d : Nat}
    (busy : flags k = (true, false)) (same : values i = v) :
    ∃ changed w', (∀ fuel > d, Machine.setContent (.ofFuel app fuel) (relay.binding i)
      (.one (.int v)) w = .ok (changed, w')) ∧
      relay.Passed app d i k v values flags w w' := by
  have hflags : Function.update flags k (true, decide (values k ≠ values k)) = flags := by
    rw [decide_eq_false fun hne => hne rfl, ← busy, Function.update_eq_self]
  refine ⟨false, w, fun fuel _ => h.setContent_of_eq same, ?_⟩
  rw [Passed, pass_of_eq same, hflags]
  exact ⟨h, refl_of World.SameHolders w, rfl,
    (Marks.refl w).congr fun j => ⟨False.elim, fun hne => hne rfl⟩⟩

/-- The busy binding takes on the value, and tells of it in another round. -/
theorem At.setContent_reached (h : relay.At app values flags w) (busy : flags k = (true, false))
    (other : values k ≠ v) :
    ∃ changed w', (∀ fuel > 0, Machine.setContent (.ofFuel app fuel) (relay.binding k)
      (.one (.int v)) w = .ok (changed, w')) ∧
      relay.Passed app 0 k k v values flags w w' := by
  refine ⟨true, w.assigned (relay.binding k) (.one (.int v)), fun fuel hfuel => ?_, ?_⟩
  · obtain ⟨n, rfl⟩ := Nat.exists_eq_add_of_lt hfuel
    rw [Nat.zero_add]
    exact h.setContent_busy other (by rw [busy]) n
  · have hpass : Function.update values k v k ≠ values k := by
      rw [Function.update_self]
      exact Ne.symm other
    rw [Passed, pass, decide_eq_true hpass]
    refine ⟨h.assigned k v, w.sameHolders_assigned _ _, rfl,
      (Marks.assigned k _).congr fun j => ?_⟩
    by_cases hj : j = k
    · subst hj
      exact ⟨fun _ => hpass, fun _ => rfl⟩
    · rw [Function.update_of_ne hj]
      exact ⟨fun heq => absurd heq hj, fun hne => absurd rfl hne⟩

omit [Ordered ρ] in
/-- A binding has taken on a value, which has been passed on in its only round. -/
theorem Passed.settled {d : Nat} {u : World κ ρ}
    (h : relay.Passed app d (i + 1) k (relay.follow i v) (Function.update values i v)
      (Function.update flags i (true, false)) (w.assigned (relay.binding i) (.one (.int v))) u)
    (short : d + 1 < m) (hk : k ≠ i) (idle : flags i = (false, false)) (other : values i ≠ v) :
    relay.Passed app (d + 1) i k v values flags w (u.settled (relay.binding i)) := by
  rw [Passed, pass_of_ne other]
  rw [Passed, Function.update_of_ne hk] at h
  refine ⟨?_, ?_, h.awaiting, ?_⟩
  · have hsettled := h.at_end.settled i
    rwa [Function.update_of_ne hk.symm, Function.update_self, Function.update_comm hk.symm,
      Function.update_idem, ← idle, Function.update_comm hk, Function.update_eq_self] at hsettled
  · exact trans_of World.SameHolders (w.sameHolders_assigned _ _)
      (trans_of World.SameHolders h.holders (u.sameHolders_settled _))
  · have hmarks := ((Marks.assigned i _).trans h.marks).trans
      (Marks.quiet (World.history_settled u (relay.binding i)) fun _ h => by cases h)
    refine hmarks.congr fun j => ?_
    rw [or_false]
    by_cases hj : j = i
    · subst hj
      rw [pass_succ_self short, Function.update_self]
      exact ⟨fun _ => Ne.symm other, fun _ => .inl rfl⟩
    · rw [Function.update_of_ne hj, or_iff_right hj]

/-- A binding is set while another one, further on, is busy. The value is passed on until a binding
has it already, or the busy one is reached. The induction is on the distance from it. -/
theorem At.setContent (h : relay.At app values flags w) {d : Nat} (short : d < m)
    (last : k = i + d) (busy : flags k = (true, false))
    (idle : ∀ e < d, flags (i + e) = (false, false)) (v : Int) :
    ∃ changed w', (∀ fuel > d, Machine.setContent (.ofFuel app fuel) (relay.binding i)
      (.one (.int v)) w = .ok (changed, w')) ∧
      relay.Passed app d i k v values flags w w' := by
  induction d generalizing i v values flags w with
  | zero =>
      obtain rfl : k = i := by simpa using last
      by_cases hv : values k = v
      · exact h.setContent_kept busy hv
      · exact h.setContent_reached busy hv
  | succ d ih =>
      by_cases hv : values i = v
      · exact h.setContent_kept busy hv
      · have hk : k ≠ i := last ▸ add_cast_ne (Nat.succ_pos d) short i
        have hidle : flags i = (false, false) := by simpa using idle 0 (Nat.succ_pos d)
        have hassigned := h.assigned i v
        -- The next binding is set in the one round that this one has.
        obtain ⟨u, hround, hends⟩ := hassigned.round (k := k) (d := d) (Function.update_self ..)
          fun u hu => by
            rw [Function.update_idem] at hu ⊢
            rw [Function.update_self]
            refine ih hu (by omega) ?_ ?_ ?_ (relay.follow i v)
            · rw [last, succ_add_cast]
            · rw [Function.update_of_ne hk, busy]
            · intro e he
              rw [succ_add_cast, Function.update_of_ne (add_cast_ne (Nat.succ_pos e) (by omega) i)]
              exact idle (e + 1) (Nat.succ_lt_succ he)
        rw [Function.update_idem, Function.update_self] at hends
        have hpending : ((w.assigned (relay.binding i) (.one (.int v))).flags
            (relay.binding i)).2 = true := by
          rw [hassigned.flags i, Function.update_self]
        have hdone : u.flags (relay.binding i) = (true, false) := by
          rw [hends.at_end.flags i, Function.update_of_ne hk.symm, Function.update_self]
        refine ⟨true, u.settled (relay.binding i), fun fuel hfuel => ?_,
          hends.settled short hk hidle hv⟩
        obtain ⟨n, rfl⟩ := Nat.exists_eq_add_of_lt hfuel
        refine h.setContent_idle hv (by rw [hidle]) ?_
        refine drain_next hpending (hround _ (by omega)) (drain_done ?_)
        rw [hdone]

/-! ## Rounds -/

/-- Nobody is told of anything but of one binding. -/
def telling (k : ZMod m) (again : Bool) : ZMod m → Bool × Bool :=
  Function.update (fun _ => (false, false)) k (true, again)

/-- What rounds of a binding come to: everything that has changed is linked, and so is what was
linked before, with the binding itself. -/
structure Settles (relay : Relay m) (k : ZMod m) (values values' : ZMod m → Int)
    (news : List Entry) : Prop where
  self : relay.Linked values' k
  linked : ∀ j ≠ k, relay.Linked values j ∨ .changed (relay.binding j) ∈ news →
    relay.Linked values' j
  kept : ∀ j, .changed (relay.binding j) ∉ news → values' j = values j

section

variable [NeZero m] {news later : List Entry}

omit [Ordered ρ] in
theorem settles_sweep (stop : relay.sweep k values k = values k)
    (marks : ∀ j, .changed (relay.binding j) ∈ news ↔ relay.sweep k values j ≠ values j) :
    relay.Settles k values (relay.sweep k values) news where
  self := linked_sweep_self stop
  linked j hj h := linked_sweep hj (h.imp_right (marks j).mp)
  kept j h := not_not.mp fun hne => h ((marks j).mpr hne)

omit [Ordered ρ] in
theorem Settles.after_sweep (h : relay.Settles k (relay.sweep k values) values' later)
    (marks : ∀ j, .changed (relay.binding j) ∈ news ↔ relay.sweep k values j ≠ values j) :
    relay.Settles k values values' (news ++ later) where
  self := h.self
  linked j hj hbefore := by
    refine h.linked j hj ?_
    rw [List.mem_append, ← or_assoc] at hbefore
    exact hbefore.imp_left fun hfirst => linked_sweep hj (hfirst.imp_right (marks j).mp)
  kept j hj := by
    rw [List.mem_append, not_or, marks, not_not] at hj
    exact (h.kept j hj.2).trans hj.1

/-- A round of a binding passes its value on, once round. -/
theorem At.sweep (h : relay.At app values (telling k true) w) :
    ∃ u, (∀ fuel > m - 1, Machine.round app (.ofFuel app fuel) (relay.binding k) w = .ok ((), u)) ∧
      relay.At app (relay.sweep k values)
        (telling k (decide (relay.sweep k values k ≠ values k))) u ∧
      relay.Marks (fun j => relay.sweep k values j ≠ values j) w u := by
  have hbusy : Function.update (telling k true) k (true, false) = telling k false :=
    Function.update_idem ..
  obtain ⟨u, hround, hends⟩ := h.round (k := k) (d := m - 1) (Function.update_self ..)
    fun u hu => by
      rw [hbusy] at hu ⊢
      refine hu.setContent pred_lt (succ_add_pred k).symm (Function.update_self ..) ?_ _
      intro e he
      refine Function.update_of_ne ?_ _ _
      rw [succ_add_cast]
      exact add_cast_ne (Nat.succ_pos e) (by omega) k
  rw [hbusy, Passed, telling, Function.update_idem] at hends
  exact ⟨u, hround, hends.at_end, hends.marks⟩

/-- The rounds of a binding come to an end, the last after at most so many others. -/
def Drains (relay : Relay m) (app : App κ ρ) (k : ZMod m) (t : Nat) (values : ZMod m → Int)
    (w : World κ ρ) : Prop :=
  ∃ values' news w', (∀ fuel > m - 1, ∀ rounds > t,
    Machine.drain app (.ofFuel app fuel) rounds (relay.binding k) w = .ok ((), w')) ∧
    relay.At app values' (telling k false) w' ∧ w'.history = w.history ++ news ∧
    relay.Settles k values values' news

omit [Ordered ρ] [NeZero m] in
theorem At.pending (h : relay.At app values (telling k true) w) :
    (w.flags (relay.binding k)).2 = true := by
  rw [h.flags k, telling, Function.update_self]

/-- The last round. -/
theorem At.drain_last (h : relay.At app values (telling k true) w)
    (stop : relay.sweep k values k = values k) : relay.Drains app k 0 values w := by
  obtain ⟨u, hround, hu, news, hnews, hmarks⟩ := h.sweep
  rw [decide_eq_false fun hne => hne stop] at hu
  refine ⟨_, news, u, fun fuel hfuel rounds hrounds => ?_, hu, hnews, settles_sweep stop hmarks⟩
  obtain ⟨n, rfl⟩ := Nat.exists_eq_add_of_lt hrounds
  rw [Nat.zero_add]
  refine drain_next h.pending (hround fuel hfuel) (drain_done ?_)
  rw [hu.flags k, telling, Function.update_self]

/-- The rounds of a binding come to an end, as its value comes to a stand. The induction is on how
often its value goes round. -/
theorem At.drain (h : relay.At app values (telling k true) w) {t : Nat}
    (steady : relay.walk m k ((relay.walk m k)^[t] (values k)) =
      (relay.walk m k)^[t] (values k)) : relay.Drains app k t values w := by
  induction t generalizing values w with
  | zero => exact h.drain_last (by_contra fun hne => hne ((sweep_self hne).trans steady))
  | succ t ih =>
      by_cases hstop : relay.sweep k values k = values k
      · obtain ⟨values', news, w', hdrain, hend⟩ := h.drain_last hstop
        refine ⟨values', news, w', fun fuel hfuel rounds hrounds => ?_, hend⟩
        exact hdrain fuel hfuel rounds (by omega)
      · obtain ⟨u, hround, hu, news, hnews, hmarks⟩ := h.sweep
        rw [decide_eq_true hstop] at hu
        rw [Function.iterate_succ_apply, ← sweep_self hstop] at steady
        obtain ⟨values', later, w', hdrain, hw', hlater, hsettles⟩ := ih hu steady
        refine ⟨values', news ++ later, w', fun fuel hfuel rounds hrounds => ?_, hw', ?_,
          hsettles.after_sweep hmarks⟩
        · obtain ⟨n, rfl⟩ := Nat.exists_eq_add_of_lt hrounds
          exact drain_next h.pending (hround fuel hfuel) (hdrain fuel hfuel _ (by omega))
        · rw [hlater, hnews, List.append_assoc]

/-- A binding of a relay that is set from outside of any callback, whatever the values are: if a
value that goes all the way round does not fall, and is limited as soon as it rises, then the run
ends with enough fuel, and then every binding that has changed is followed by what it passes on. -/
theorem setContent_links (quiet : relay.At app values (fun _ => (false, false)) w)
    (rises : 0 ≤ ∑ i, relay.step i)
    (limited : 0 < ∑ i, relay.step i → ∃ i, (relay.limit i).isSome) (k : ZMod m) (v : Int) :
    ∃ values' news w',
      (∃ enough, ∀ fuel ≥ enough,
        Machine.setContent (.ofFuel app fuel) (relay.binding k) (.one (.int v)) w =
          .ok (decide (values k ≠ v), w')) ∧
      relay.At app values' (fun _ => (false, false)) w' ∧ w'.history = w.history ++ news ∧
      ∀ i, (.changed (relay.binding i) ∈ news → values' (i + 1) = relay.follow i (values' i)) ∧
        (.changed (relay.binding i) ∉ news → values' i = values i) := by
  by_cases hv : values k = v
  · refine ⟨values, [], w, ⟨0, fun fuel _ => ?_⟩, quiet, (List.append_nil _).symm, fun i => ?_⟩
    · rw [decide_eq_false fun hne => hne hv]
      exact quiet.setContent_of_eq hv
    · exact ⟨fun h => absurd h List.not_mem_nil, fun _ => rfl⟩
  · have hassigned : relay.At app (Function.update values k v) (telling k true)
        (w.assigned (relay.binding k) (.one (.int v))) := quiet.assigned k v
    obtain ⟨t, ht⟩ := exists_steady rises limited k (Function.update values k v k)
    obtain ⟨values', news, u, hdrain, hu, hnews, hsettles⟩ := hassigned.drain ht
    have hsettled := hu.settled k
    rw [telling, Function.update_self, Function.update_idem, Function.update_eq_self] at hsettled
    let told := .changed (relay.binding k) :: (news ++ [.settled (relay.binding k)])
    have hmem (i : ZMod m) :
        .changed (relay.binding i) ∈ told ↔ i = k ∨ .changed (relay.binding i) ∈ news := by
      simp [told, relay.distinct.eq_iff]
    refine ⟨values', told, u.settled (relay.binding k), ⟨m + t + 1, fun fuel hfuel => ?_⟩, hsettled,
      ?_, fun i => ?_⟩
    · have hm : 0 < m := NeZero.pos m
      obtain ⟨n, rfl⟩ := Nat.exists_eq_add_of_le' (Nat.le_of_add_left_le hfuel)
      rw [decide_eq_true hv]
      exact quiet.setContent_idle hv rfl (hdrain n (by omega) _ (by omega))
    · rw [World.history_settled, hnews, World.history_assigned, List.append_assoc,
        List.append_assoc]
      rfl
    · rw [hmem]
      constructor
      · intro h
        by_cases hi : i = k
        · exact hi ▸ hsettles.self
        · exact hsettles.linked i hi (.inr (h.resolve_left hi))
      · intro h
        rw [not_or] at h
        rw [hsettles.kept i h.2, Function.update_of_ne h.1]

end

end

/-! ## Two bindings -/

/-- Two bindings that raise each other by one, up to three. -/
def pair : Relay 2 where
  binding i := ⟨i.val⟩
  distinct _ _ h := ZMod.val_injective 2 (BindingId.mk.inj h)
  watcher i := ⟨i.val⟩
  step _ := 1
  limit _ := some 3

/-- The callbacks of both. -/
def pairApp : App (ZMod 2) Empty :=
  { App.idle with watcher := fun i _ => pair.callback i }

/-- Both are zero. -/
def pairWorld : World (ZMod 2) Empty where
  bindings := #[{ name := "a", content := .one (.int 0), watchers := [⟨0⟩] },
    { name := "b", content := .one (.int 0), watchers := [⟨1⟩] }]
  watchers := #[{ watcher := .callback 0 }, { watcher := .callback 1 }]

theorem setContent_links_pair : ∃ values news w',
    (∃ enough, ∀ fuel ≥ enough,
      Machine.setContent (.ofFuel pairApp fuel) (pair.binding 0) (.one (.int 1)) pairWorld =
        .ok (true, w')) ∧
    pair.At pairApp values (fun _ => (false, false)) w' ∧ w'.history = pairWorld.history ++ news ∧
    values 0 = 3 ∧ values 1 = 3 := by
  have hquiet : pair.At pairApp (fun _ => 0) (fun _ => (false, false)) pairWorld := by
    have hcalls (i : ZMod 2) : pairWorld.CallsBack (pair.watcher i) i := by
      fin_cases i <;> exact ⟨_, rfl, rfl⟩
    refine ⟨fun i => ?_, fun i => ?_, fun i => ?_, fun i => ⟨i, hcalls i, rfl⟩⟩ <;>
      fin_cases i <;> rfl
  obtain ⟨values, news, w', ⟨enough, hrun⟩, hat, hnews, -⟩ :=
    setContent_links hquiet (by decide) (fun _ => ⟨0, rfl⟩) 0 1
  obtain ⟨u, hend, hfirst, hsecond⟩ : ∃ u, Machine.setContent (.ofFuel pairApp (enough + 8))
      (pair.binding 0) (.one (.int 1)) pairWorld = .ok (true, u) ∧
        u.content? (pair.binding 0) = some (.one (.int 3)) ∧
        u.content? (pair.binding 1) = some (.one (.int 3)) := ⟨_, rfl, rfl, rfl⟩
  -- The run ends in one state only, whatever the fuel.
  have hsame := (hrun _ (Nat.le_add_right enough 8)).symm.trans hend
  obtain ⟨-, rfl⟩ := Prod.mk.inj (Except.ok.inj hsame)
  have hvalue (i : ZMod 2) (h : w'.content? (pair.binding i) = some (.one (.int 3))) :
      values i = 3 := by
    rw [hat.content i] at h
    simpa using h
  exact ⟨values, news, w', ⟨enough, hrun⟩, hat, hnews, hvalue 0 hfirst, hvalue 1 hsecond⟩

end Relay

end Trellis
