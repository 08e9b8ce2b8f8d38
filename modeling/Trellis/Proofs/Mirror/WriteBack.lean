import Trellis.Proofs.Mirror.Accord

/-!
# Writing back

Steps from outside of any callback: attaching mirrors, setting the binding, editing mirrors and
writing them back, in any order.

* `MirrorStep` — such a step, which returns.
* `World.InAccord.step` — it leaves every mirror that is attached in accord.
* `MirrorStep.accord` — so a stale copy never overwrites a value that was set from elsewhere.
-/

namespace Trellis

open Machine

variable {κ ρ : Type} [Ordered ρ] {app : App κ ρ} {b : BindingId} {start w w' : World κ ρ}

/-- A step from outside of any callback. -/
inductive MirrorStep (app : App κ ρ) (b : BindingId) : World κ ρ → World κ ρ → Prop
  /-- A mirror of the binding's kind is attached. -/
  | attach {w w' : World κ ρ} {x : WatcherId} {copy : Mirror ρ} (shown : w.copy? x = some copy)
      (kind : (w.content? b).map (·.shape) = some (.one copy.value.kind))
      (run : attach x b w = .ok ((), w')) : MirrorStep app b w w'
  /-- The binding is set. -/
  | set {w w' : World κ ρ} {fuel : Nat} {content : Content ρ} {changed : Bool}
      (run : setContent (.ofFuel app fuel) b content w = .ok (changed, w')) : MirrorStep app b w w'
  /-- A mirror is edited. -/
  | edit {w w' : World κ ρ} {x : WatcherId} {value : Scalar ρ}
      (run : editMirror x value w = .ok ((), w')) : MirrorStep app b w w'
  /-- A mirror is written back. -/
  | writeBack {w w' : World κ ρ} {fuel : Nat} {x : WatcherId} {changed : Bool}
      (run : writeBack (.ofFuel app fuel) x b w = .ok (changed, w')) : MirrorStep app b w w'

/-- The callbacks that watch the binding are mild, what nobody watched at the start is theirs alone,
and every mirror that is attached is in accord. -/
structure World.InAccord (app : App κ ρ) (w start : World κ ρ) (b : BindingId) : Prop where
  quiescent : w.Quiescent
  callbacks : ∀ x code, w.Registered b x → w.CallsBack x code → (app.watcher code b).Mild app start b
  accord : ∀ x copy, w.Attached b x copy → copy.Accord w b x
  secluded : start.Secluded b w

omit [Ordered ρ] in
/-- Only the watcher may come to be registered, and nothing else changes. -/
theorem Machine.watch_eq_ok {x : WatcherId} (h : watch x b w = .ok ((), w')) :
    (∀ y, w'.Registered b y → x = y ∨ w.Registered b y) ∧ w'.watchers = w.watchers ∧
      (∀ c, w'.content? c = w.content? c) ∧ w.SameHolders w' ∧ w'.history = w.history := by
  rw [watch, modify_eq_ok] at h
  by_cases hfound : (w.watcher? x).isSome
  · rw [if_pos hfound] at h
    subst h
    refine ⟨?_, rfl, ?_, .of_eq rfl rfl fun _ => rfl, rfl⟩
    · rintro y ⟨after, hafter, hy⟩
      rw [World.binding?_modifyBinding_self] at hafter
      obtain ⟨binding, hbinding, rfl⟩ := Option.map_eq_some_iff.mp hafter
      unfold Binding.watch at hy
      split at hy
      · exact .inr ⟨binding, hbinding, hy⟩
      · rcases List.mem_append.mp hy with hy | hy
        · exact .inr ⟨binding, hbinding, hy⟩
        · exact .inl (List.mem_singleton.mp hy).symm
    · intro c
      rw [World.content?, World.content?, World.binding?_modifyBinding]
      split
      · rw [Option.map_map]
        refine congrArg (Option.map · _) (funext fun binding => ?_)
        show (binding.watch x).content = binding.content
        unfold Binding.watch
        split <;> rfl
      · rfl
  · rw [if_neg hfound] at h
    subst h
    exact ⟨fun _ => .inr, rfl, fun _ => rfl, refl_of World.SameHolders w, rfl⟩

omit [Ordered ρ] in
/-- Attaching concerns one binding. -/
theorem Machine.attach_secluded (x : WatcherId) :
    Respects (World.Secluded b) (attach x b : Machine κ ρ Unit) := by
  refine .bind (.modify fun w => ?_) fun _ => takeOver_respects x b
  split
  · exact .modifyBinding w (.inl rfl)
  · exact refl_of (World.Secluded b) w

omit [Ordered ρ] in
/-- The edit of a mirror is taken once. -/
theorem Machine.takeEdit_eq_ok {x : WatcherId} {taken : Option (Scalar ρ)}
    (h : takeEdit x w = .ok (taken, w')) :
    (taken = none ∧ w' = w) ∨ ∃ copy, w.copy? x = some copy ∧ copy.edited = true ∧
      taken = some copy.value ∧ w' = w.modifyCopy x ({ · with edited := false }) := by
  obtain ⟨found, u, hget, h⟩ := bind_eq_ok.mp h
  obtain ⟨rfl, rfl⟩ : w.copy? x = found ∧ w = u := pure_eq_ok.mp hget
  cases hcopy : w.copy? x with
  | none =>
      simp only [hcopy] at h
      obtain ⟨rfl, rfl⟩ := pure_eq_ok.mp h
      exact .inl ⟨rfl, rfl⟩
  | some copy =>
      simp only [hcopy] at h
      by_cases hedited : copy.edited = true
      · rw [if_pos hedited] at h
        obtain ⟨_, v, hmodify, h⟩ := bind_eq_ok.mp h
        obtain ⟨rfl, rfl⟩ := pure_eq_ok.mp h
        exact .inr ⟨copy, rfl, hedited, rfl, (modify_eq_ok.mp hmodify).symm⟩
      · rw [if_neg hedited] at h
        obtain ⟨rfl, rfl⟩ := pure_eq_ok.mp h
        exact .inl ⟨rfl, rfl⟩

namespace World.InAccord

/-- A steady step that calls nobody. -/
theorem of_steady {touched : WatcherId → Prop} (h : w.InAccord app start b)
    (steady : w.Steady b touched w') (still : w.Still w') (secluded : w.Secluded b w')
    (mirrors : ∀ x copy, w'.Attached b x copy → copy.Accord w' b x ∨ w.Attached b x copy) :
    w'.InAccord app start b where
  quiescent := still.quiescent h.quiescent
  callbacks x code hx hcode :=
    h.callbacks x code (steady.registered x hx) (steady.callbacks x code hcode)
  accord x copy ha := by
    rcases mirrors x copy ha with hin | hbefore
    · exact hin
    · exact (h.accord x copy hbefore).mono steady.content steady.history
  secluded := trans_of (Secluded b) h.secluded secluded

theorem edit {x : WatcherId} {value : Scalar ρ} (h : w.InAccord app start b)
    (run : editMirror x value w = .ok ((), w')) : w'.InAccord app start b := by
  have hsteady : w.Steady b (Eq x) w' := editMirror_steady rfl value run
  have hsecluded : w.Secluded b w' := editMirror_respects x value run
  refine h.of_steady hsteady (editMirror_still x value run) hsecluded fun y copy ha => ?_
  by_cases hy : x = y
  · subst hy
    exact Mirror.Accord.of_edit run ha
  · exact .inr (hsteady.attached hy ha)

/-- Setting the binding, whoever was in accord before: a change is told to everybody. -/
theorem of_setContent {fuel : Nat} {content : Content ρ} {changed : Bool} (quiescent : w.Quiescent)
    (callbacks : ∀ x code, w.Registered b x → w.CallsBack x code →
      (app.watcher code b).Mild app start b) (secluded : start.Secluded b w)
    (run : setContent (.ofFuel app fuel) b content w = .ok (changed, w')) :
    w'.InAccord app start b ∨ (w' = w ∧ ∀ binding, w.binding? b = some binding →
      ¬ (binding.content.shape = content.shape ∧ binding.content.differs content = true)) := by
  obtain ⟨rounds, v, hassign, hreach⟩ := (Reentry.ofFuel_faithful app fuel).setContent run
  rcases assign_eq_ok hassign with ⟨-, rfl, rfl, hsame⟩ | ⟨binding, found, -, -, rfl, rfl⟩
  · exact .inr ⟨Reaches.eq_of_nil (hreach []), hsame⟩
  · have hstart : Moment.Mirrored app start b
        ⟨(if binding.notifying then [] else [.rounds b []]) ++ [], w.assigned b content⟩ := by
      refine .of_assigned found ?_ ?_ secluded
      · intro d hd
        cases hd
      · intro x code hx
        exact callbacks x code (hx.resolve_right (by simp))
    -- All mirrors owe a call after the change, and at the end nothing is owed.
    have hend := hstart.reaches (hreach [])
    have hsound := (Moment.Sound.of_quiescent quiescent _).reaches (Reaches.of_setContent run)
    refine .inl ⟨hsound.settled.1, ?_, ?_, hend.secluded⟩
    · intro x code hx hcode
      exact hend.callbacks x code (.inl hx) hcode
    · intro x copy ha
      refine (hend.accord x copy ha).resolve_left ?_
      rintro (hpending | ⟨d, hd, -⟩)
      · have hflags : w'.flags b = (false, false) := hsound.settled.1.flags b
        have hpending' : (w'.flags b).2 = true := hpending
        rw [hflags] at hpending'
        cases hpending'
      · cases hd

theorem set {fuel : Nat} {content : Content ρ} {changed : Bool} (h : w.InAccord app start b)
    (run : setContent (.ofFuel app fuel) b content w = .ok (changed, w')) : w'.InAccord app start b := by
  rcases of_setContent h.quiescent h.callbacks h.secluded run with hafter | ⟨rfl, -⟩
  · exact hafter
  · exact h

/-- A mirror that is attached takes over the value of the binding. -/
theorem attach {x : WatcherId} {copy : Mirror ρ} (h : w.InAccord app start b)
    (shown : w.copy? x = some copy)
    (kind : (w.content? b).map (·.shape) = some (.one copy.value.kind))
    (run : attach x b w = .ok ((), w')) : w'.InAccord app start b := by
  obtain ⟨content, hcontent, hshape⟩ := Option.map_eq_some_iff.mp kind
  obtain ⟨value, rfl, hkind⟩ := Content.exists_of_shape hshape
  obtain ⟨_, u, hwatch, htake⟩ := bind_eq_ok.mp run
  obtain ⟨hregistered, hwatchers, hsame, hheld, hkept⟩ := watch_eq_ok hwatch
  have hcontentu : u.content? b = some (.one value) := (hsame b).trans hcontent
  have htaken := takeOver_eq_ok hcontentu htake
  have hsteady : u.Steady b (Eq x) w' := takeOver_steady rfl b htake
  have hcopies (y : WatcherId) : u.copy? y = w.copy? y := by
    rw [World.copy?, World.copy?, World.watcher?, World.watcher?, hwatchers]
  have hsecluded : w.Secluded b w' := attach_secluded x run
  refine ⟨(attach_still x b run).quiescent h.quiescent, ?_, ?_,
    trans_of (Secluded b) h.secluded hsecluded⟩
  · intro y code hy hcode
    have hcodeu := hsteady.callbacks y code hcode
    rcases hregistered y (hsteady.registered y hy) with rfl | hy
    · -- A mirror is no callback.
      have hnone := hcodeu.copy?_eq_none
      rw [hcopies, shown] at hnone
      cases hnone
    · obtain ⟨cell, hcell, hcallback⟩ := hcodeu
      rw [World.watcher?, hwatchers] at hcell
      exact h.callbacks y code hy ⟨cell, hcell, hcallback⟩
  · intro y copy' ha
    by_cases hy : x = y
    · subst hy
      refine .of_takeOver (hsteady.content.trans hcontentu) hkind ?_
      have hshown := ha.shown
      rw [htaken, World.copy?_modifyCopy, if_pos rfl, hcopies, shown] at hshown
      exact (Option.some.inj hshown).symm
    · have hau := hsteady.attached hy ha
      have hbefore : w.Attached b y copy' := by
        refine ⟨(hregistered y hau.registered).resolve_left hy, ?_, ?_, ?_⟩
        · rw [← hheld.watcher y, hau.held]
        · rw [← hcopies, hau.shown]
        · rw [← hsame b, hau.kind]
      refine (h.accord y copy' hbefore).mono (hsteady.content.trans (hsame b)) ?_
      rw [← hkept]
      exact hsteady.history

/-- A mirror is written back. If that leaves the binding alone, the copy did not differ. -/
theorem writeBack {fuel : Nat} {x : WatcherId} {changed : Bool} (h : w.InAccord app start b)
    (run : writeBack (.ofFuel app fuel) x b w = .ok (changed, w')) : w'.InAccord app start b := by
  obtain ⟨taken, u, htake, hset⟩ := bind_eq_ok.mp run
  have hstill := takeEdit_still x htake
  rcases takeEdit_eq_ok htake with ⟨rfl, rfl⟩ | ⟨copy, hcopy, -, rfl, rfl⟩
  · obtain ⟨-, rfl⟩ := pure_eq_ok.mp hset
    exact h
  · -- Taking the edit touches the one mirror only.
    have hsteady : w.Steady b (Eq x) (w.modifyCopy x ({ · with edited := false })) :=
      .modifyCopy w rfl _
    have hquiescent := hstill.quiescent h.quiescent
    have hcallbacks (y : WatcherId) (code : κ)
        (hy : (w.modifyCopy x ({ · with edited := false })).Registered b y)
        (hcode : (w.modifyCopy x ({ · with edited := false })).CallsBack y code) :
        (app.watcher code b).Mild app start b :=
      h.callbacks y code (hsteady.registered y hy) (hsteady.callbacks y code hcode)
    have hsecluded : w.Secluded b (w.modifyCopy x ({ · with edited := false })) :=
      Recopies.copied w _
    have hstart := trans_of (Secluded b) h.secluded hsecluded
    rcases of_setContent hquiescent hcallbacks hstart hset with hafter | ⟨rfl, hsame⟩
    · exact hafter
    · -- The binding was left alone, so the copy did not differ from it.
      refine ⟨hquiescent, hcallbacks, ?_, hstart⟩
      intro y copy' ha
      by_cases hy : x = y
      · subst hy
        have hshown := ha.shown
        rw [World.copy?_modifyCopy, if_pos rfl, hcopy] at hshown
        obtain rfl := Option.some.inj hshown
        exact ⟨fun _ => World.agrees_of_same ha.kind hsame, fun hedited => nomatch hedited⟩
      · exact (h.accord y copy' (hsteady.attached hy ha)).mono hsteady.content hsteady.history

/-- Every step from outside leaves the mirrors in accord. -/
theorem step (h : w.InAccord app start b) (hstep : MirrorStep app b w w') : w'.InAccord app start b := by
  cases hstep with
  | attach shown kind run => exact h.attach shown kind run
  | set run => exact h.set run
  | edit run => exact h.edit run
  | writeBack run => exact h.writeBack run

theorem steps (h : w.InAccord app start b) (run : Relation.ReflTransGen (MirrorStep app b) w w') :
    w'.InAccord app start b := by
  induction run with
  | refl => exact h
  | tail _ hstep ih => exact ih.step hstep

end World.InAccord

/-- Mirrors of a binding whose callbacks are mild, after any steps from outside: each of them has been
edited or agrees with the binding, and one that was not edited since the binding last changed is not
written back. -/
theorem MirrorStep.accord (quiescent : w.Quiescent)
    (callbacks : ∀ x code, w.Registered b x → w.CallsBack x code → (app.watcher code b).Mild app w b)
    (fresh : ∀ x copy, w.Attached b x copy → copy.edited = false ∧ w.Agrees b copy)
    (run : Relation.ReflTransGen (MirrorStep app b) w w') :
    ∀ x copy, w'.Attached b x copy →
      (copy.edited = true ∨ w'.Agrees b copy) ∧
      ∀ fuel changed v, Machine.writeBack (.ofFuel app fuel) x b w' = .ok (changed, v) →
        Entry.EditedSince b x w'.history ∨ (changed = false ∧ v = w') := by
  have hstart : w.InAccord app w b := by
    refine ⟨quiescent, callbacks, fun x copy ha => ?_, refl_of (World.Secluded b) w⟩
    obtain ⟨hunedited, hagrees⟩ := fresh x copy ha
    exact ⟨fun _ => hagrees, fun hedited => nomatch hunedited.symm.trans hedited⟩
  intro x copy ha
  have haccord := (hstart.steps run).accord x copy ha
  refine ⟨?_, ?_⟩
  · -- An edit is what the mark says; without one the values agree.
    cases hedited : copy.edited with
    | false => exact .inr (haccord.agrees hedited)
    | true => exact .inl rfl
  · intro fuel changed v hwrite
    obtain ⟨taken, u, htake, hset⟩ := bind_eq_ok.mp hwrite
    rcases takeEdit_eq_ok htake with ⟨rfl, rfl⟩ | ⟨old, hold, hedited, -, -⟩
    · obtain ⟨rfl, rfl⟩ := pure_eq_ok.mp hset
      exact .inr ⟨rfl, rfl⟩
    · rw [ha.shown, Option.some.injEq] at hold
      subst hold
      exact .inl (haccord.since hedited)

/-! ## A mirror of a level that is kept down -/

/-- An application whose watcher keeps a level down, and notes in a binding of its own how high it
was. -/
def App.recalling : App Unit Empty :=
  { App.idle with
    watcher := fun _ b => .read b fun
      | some (_, .one (.int n)) =>
        if 10 < n then
          .set ⟨1⟩ (.one (.int n)) fun _ => .set b (.one (.int 10)) fun _ => .done ()
        else .done ()
      | _ => .done () }

theorem App.recalling_mild {w : World Unit Empty} (own : w.Unheard ⟨1⟩) (code : Unit)
    (b : BindingId) : (App.recalling.watcher code b).Mild App.recalling w b := by
  refine .read fun answer => ?_
  split
  · split
    · exact .jot own fun _ => .set fun _ => .done
    · exact .done
  · exact .done

/-- A level with its watcher and what that notes, and a mirror that is not attached yet. -/
def World.reflected : World Unit Empty where
  bindings := #[{ name := "level", content := .one (.int 0), watchers := [⟨0⟩] },
    { name := "peak", content := .one (.int 0) }]
  watchers := #[{ watcher := .callback () }, { watcher := .mirror { value := .int 7 } }]

/-- A level that is written back too high is kept down. The mirror shows that, and how high it was is
not lost. -/
theorem MirrorStep.accord_reflected : ∃ w,
    Relation.ReflTransGen (MirrorStep App.recalling ⟨0⟩) World.reflected w ∧
    w.content? ⟨1⟩ = some (.one (.int 20)) ∧
    w.Attached ⟨0⟩ ⟨1⟩ { value := .int 10 } ∧ w.Agrees ⟨0⟩ { value := .int 10 } ∧
    ∀ fuel changed v, Machine.writeBack (.ofFuel App.recalling fuel) ⟨1⟩ ⟨0⟩ w = .ok (changed, v) →
      Entry.EditedSince ⟨0⟩ ⟨1⟩ w.history ∨ (changed = false ∧ v = w) := by
  have hquiescent : World.reflected.Quiescent := by
    rintro ⟨i⟩ binding hb
    match i with
    | 0 =>
        cases hb
        exact ⟨rfl, rfl, List.nodup_cons.mpr ⟨List.not_mem_nil, List.nodup_nil⟩⟩
    | 1 =>
        cases hb
        exact ⟨rfl, rfl, List.nodup_nil⟩
    | i + 2 => cases hb
  have hown : World.reflected.Unheard ⟨1⟩ := by
    rintro x ⟨binding, hbinding, hx⟩
    cases hbinding
    cases hx
  -- Only the callback is registered at first.
  have hfresh (x : WatcherId) (copy : Mirror Empty) : ¬ World.reflected.Attached ⟨0⟩ x copy := by
    intro ha
    obtain ⟨binding, hbinding, hx⟩ := ha.registered
    cases hbinding
    obtain rfl := List.mem_singleton.mp hx
    have hshown := ha.shown
    cases hshown
  obtain ⟨u, v, w, hattach, hedit, hwrite, hnoted, ha⟩ : ∃ u v w,
      Machine.attach ⟨1⟩ ⟨0⟩ World.reflected = .ok ((), u) ∧
      editMirror ⟨1⟩ (.int 20) u = .ok ((), v) ∧
      Machine.writeBack (.ofFuel App.recalling 3) ⟨1⟩ ⟨0⟩ v = .ok (true, w) ∧
      w.content? ⟨1⟩ = some (.one (.int 20)) ∧ w.Attached ⟨0⟩ ⟨1⟩ { value := .int 10 } :=
    ⟨_, _, _, rfl, rfl, rfl, rfl, ⟨_, rfl, List.mem_cons_of_mem _ List.mem_cons_self⟩, rfl, rfl, rfl⟩
  have hrun : Relation.ReflTransGen (MirrorStep App.recalling ⟨0⟩) World.reflected w :=
    ((Relation.ReflTransGen.single (.attach rfl rfl hattach)).tail (.edit hedit)).tail
      (.writeBack hwrite)
  obtain ⟨hagrees, hstale⟩ := MirrorStep.accord hquiescent
    (fun _ code _ _ => App.recalling_mild hown code ⟨0⟩) (fun x copy h => absurd h (hfresh x copy))
    hrun ⟨1⟩ { value := .int 10 } ha
  exact ⟨w, hrun, hnoted, ha, hagrees.resolve_left (by simp), hstale⟩

end Trellis
