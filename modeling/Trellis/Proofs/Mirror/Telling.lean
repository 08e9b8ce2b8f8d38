import Trellis.Proofs.Mirror.Acts
import Trellis.Proofs.Mirror.Owed

/-!
# What acts do to the rounds of bindings

An act that is no duty of a callback does to the rounds of bindings what some callback could do. So
all that holds of the steps of a callback holds of the acts of a frame.

* `Act.Tells` — an act does to the rounds what a duty does, with `Act.exists_tells`.
* `Scene.Sound` — the duties that are left and the flags of the bindings agree.
-/

namespace Trellis

open Machine

variable {κ ρ : Type} {x : WatcherId} {b : BindingId} {w w' : World κ ρ}

/-- The duty that an act is, if it is one. -/
def Act.duty? : Act κ ρ → Option (Duty κ ρ)
  | .duty d => some d
  | _ => none

namespace Act

/-- The duties among acts that belong to the rounds of a binding. -/
def about (b : BindingId) (acts : List (Act κ ρ)) : List (Duty κ ρ) :=
  Duty.about b (acts.filterMap duty?)

theorem mem_duties {acts : List (Act κ ρ)} {d : Duty κ ρ} :
    d ∈ acts.filterMap duty? ↔ .duty d ∈ acts := by
  rw [List.mem_filterMap]
  refine ⟨fun ⟨act, hact, hd⟩ => ?_, fun hd => ⟨_, hd, rfl⟩⟩
  cases act with
  | duty d' =>
      cases hd
      exact hact
  | tree | visit | enter | report | work => cases hd

theorem mem_about {acts : List (Act κ ρ)} {d : Duty κ ρ} :
    d ∈ about b acts ↔ .duty d ∈ acts ∧ d.binding? = some b := by
  rw [about, Duty.about, List.mem_filter, mem_duties, decide_eq_true_iff]

theorem about_append (acts rest : List (Act κ ρ)) :
    about b (acts ++ rest) = about b acts ++ about b rest := by
  rw [about, List.filterMap_append, Duty.about, List.filter_append]
  rfl

theorem about_duties (duties : List (Duty κ ρ)) :
    about b (duties.map .duty) = Duty.about b duties := by
  rw [about, List.filterMap_map]
  exact congrArg (Duty.about b) List.filterMap_some

/-- Acts that are to call nobody have nothing to do with a binding. -/
theorem about_of_plain {acts : List (Act κ ρ)} (h : PlainActs x acts) : about b acts = [] := by
  refine List.eq_nil_iff_forall_not_mem.mpr fun d hd => ?_
  obtain ⟨hact, hbinding⟩ := mem_about.mp hd
  rw [(h _ hact).2] at hbinding
  cases hbinding

/-- An act does to the rounds of bindings what a duty does: itself, if it is one, or else one that
belongs to no rounds. -/
structure Tells (act : Act κ ρ) (left : List (Act κ ρ)) (duty : Duty κ ρ)
    (duties : List (Duty κ ρ)) (w w' : World κ ρ) : Prop where
  effect : duty.Effect w duties w'
  same : act = .duty duty ∨ act.duty? = none ∧ duty.binding? = none
  about : ∀ b, about b left = Duty.about b duties
  top : ∀ d, .duty d ∈ left.tail → d.isRounds = false

namespace Tells

variable {act : Act κ ρ} {left : List (Act κ ρ)} {duty d : Duty κ ρ} {duties : List (Duty κ ρ)}

theorem eq_duty (h : act.Tells left duty duties w w') (hact : act = .duty d) : d = duty := by
  subst hact
  rcases h.same with heq | ⟨hnone, -⟩
  · exact Act.duty.inj heq
  · cases hnone

theorem mem_iff (h : act.Tells left duty duties w w') (hx : x ∈ d.yet) :
    .duty d ∈ left ↔ d ∈ duties := by
  obtain ⟨b, hb⟩ := Duty.exists_binding_of_yet hx
  have hleft : d ∈ Act.about b left ↔ .duty d ∈ left := by rw [mem_about, and_iff_left hb]
  rw [← hleft, h.about, Duty.about, List.mem_filter, decide_eq_true_iff, and_iff_left hb]

/-- Whoever is to be called was to be called before, or is registered when a round begins. -/
theorem yet (h : act.Tells left duty duties w w') (hd : .duty d ∈ left) (hx : x ∈ d.yet) :
    (∃ d', act = .duty d' ∧ x ∈ d'.yet ∧ d.binding? = d'.binding?) ∨
      ∃ b, d.binding? = some b ∧ w.Registered b x := by
  rcases h.effect.yet ((h.mem_iff hx).mp hd) hx with ⟨hduty, hbinding⟩ | hregistered
  · rcases h.same with rfl | ⟨-, hnone⟩
    · exact .inl ⟨duty, rfl, hduty, hbinding⟩
    · obtain ⟨b, hb⟩ := Duty.exists_binding_of_yet hduty
      rw [hnone] at hb
      cases hb
  · exact .inr hregistered

/-- A change that is to be told stays so until a round begins, which is to call whoever is
registered. -/
theorem pending (h : act.Tells left duty duties w w') (registered : w.Registered b x)
    (held : w.watcherHeld x = true) (hb : (w.flags b).2 = true) :
    (w'.flags b).2 = true ∨ ∃ d, .duty d ∈ left ∧ x ∈ d.yet := by
  rcases h.effect.pending registered held hb with hpending | ⟨d, hd, hx⟩
  · exact .inl hpending
  · exact .inr ⟨d, (h.mem_iff hx).mpr hd, hx⟩

/-- Whoever is to be called is called now, or is to be called still. -/
theorem owed (h : act.Tells left duty duties w w') (hact : act = .duty d) (hx : x ∈ d.yet) :
    (∃ b rest, d = .rounds b (x :: rest)) ∨ ∃ d', .duty d' ∈ left ∧ x ∈ d'.yet := by
  obtain rfl := h.eq_duty hact
  rcases h.effect.owed hx with hcalls | ⟨d', hd', hx'⟩
  · exact .inl hcalls
  · exact .inr ⟨d', (h.mem_iff hx').mpr hd', hx'⟩

/-- The phase of a binding moves on with the duties that belong to its rounds. -/
theorem phase (h : act.Tells left duty duties w w') {rest : List (Act κ ρ)}
    (top : ∀ d, .duty d ∈ rest → d.isRounds = false) {p : Phase}
    (hp : Phase.At w b (Act.about b (act :: rest)) p) :
    ∃ q, Phase.At w' b (Act.about b (left ++ rest)) q := by
  have hbefore : Duty.about b (duty :: rest.filterMap duty?) = Act.about b (act :: rest) := by
    rcases h.same with rfl | ⟨hact, hnone⟩
    · rfl
    · rw [Duty.about_cons_of_ne (by simp [hnone]), Act.about, List.filterMap_cons_none hact]
  have hafter : Duty.about b (duties ++ rest.filterMap duty?) = Act.about b (left ++ rest) := by
    rw [about_append, h.about, Act.about, Duty.about, List.filter_append]
    rfl
  obtain ⟨_, q, -, -, hq⟩ :=
    h.effect.moves (fun d hd => top d (mem_duties.mp hd)) b p (hbefore ▸ hp)
  exact ⟨q, hafter ▸ hq⟩

end Tells

variable [Ordered ρ] {app : App κ ρ} {ctx : EventContext} {y : WindowId}

theorem exists_tells (happ : app.Avoids x) {act : Act κ ρ} {left : List (Act κ ρ)}
    (run : act.perform app ctx y w = .ok (left, w')) :
    ∃ duty duties, act.Tells left duty duties w w' := by
  have htail (duties : List (Duty κ ρ)) (h : ∀ d ∈ duties.tail, d.isRounds = false) (d : Duty κ ρ)
      (hd : .duty d ∈ (duties.map Act.duty).tail) : d.isRounds = false := by
    rw [← List.map_tail] at hd
    obtain ⟨_, hd, heq⟩ := List.mem_map.mp hd
    exact h d (Act.duty.inj heq ▸ hd)
  by_cases hduty : ∃ d, act = .duty d
  · obtain ⟨d, rfl⟩ := hduty
    obtain ⟨duties, v, hdischarge, run⟩ := bind_eq_ok.mp run
    obtain ⟨rfl, rfl⟩ := pure_eq_ok.mp run
    have heffect := Duty.effect_of_discharge hdischarge
    exact ⟨d, duties, heffect, .inl rfl, fun b => about_duties duties,
      htail duties heffect.isRounds_tail⟩
  · have hother : act.duty? = none := by
      cases act with
      | duty d => exact absurd ⟨d, rfl⟩ hduty
      | tree | visit | enter | report | work => rfl
    -- What is no duty does what a callback does that ends, or that writes back a mirror.
    have hstill (still : w.Still w') (plain : PlainActs x left) :
        ∃ duty duties, act.Tells left duty duties w w' := by
      refine ⟨.run (.done ()), [], .still rfl (List.forall_mem_nil _) still, .inr ⟨hother, rfl⟩,
        fun b => about_of_plain plain, fun d hd => ?_⟩
      have hnone := (plain _ (List.mem_of_mem_tail hd)).2
      cases d with
      | rounds b watchers => cases hnone
      | run | release | task | unlock => rfl
    by_cases hreport : ∃ d, act = .report d
    · obtain ⟨d, rfl⟩ := hreport
      rcases report_outcome run with ⟨rfl, rfl⟩ | ⟨z, b, changed, rounds, -, -, rfl, hassign⟩
      · exact hstill (refl_of _ w') (List.forall_mem_nil _)
      · have hadvance : (Program.writeBack z b fun _ => .done ()).advance w =
            .ok (rounds ++ [.run (.done ())], w') :=
          bind_eq_ok.mpr ⟨(changed, rounds), w', hassign, rfl⟩
        have heffect := Duty.Effect.of_advance hadvance
        refine ⟨_, _, heffect, .inr ⟨hother, rfl⟩, fun b => ?_, htail rounds fun d hd => ?_⟩
        · rw [about_duties, Duty.about, Duty.about, List.filter_append]
          exact (List.append_nil _).symm
        · refine heffect.isRounds_tail d ?_
          cases rounds with
          | nil => cases hd
          | cons first more => exact List.mem_append_left _ hd
    · obtain ⟨hquiet, hplain⟩ := perform_quiet (e := ⟨0⟩) happ (not_exists.mp hduty)
        (not_exists.mp hreport) run
      exact hstill hquiet.still hplain

end Act

/-- The duties that are left and the flags agree on the phase of every binding. -/
structure Scene.Sound (c : Scene κ ρ) : Prop where
  /-- Only the first act can be to go on with rounds. -/
  top : ∀ d, .duty d ∈ c.acts.tail → d.isRounds = false
  phase : ∀ b, ∃ p, Phase.At c.world b (Act.about b c.acts) p

namespace Scene.Sound

variable {c c' : Scene κ ρ}

/-- Acts that are to call nobody, while nobody is being told of anything. -/
theorem of_plain (plain : PlainActs x c.acts) (quiet : ∀ b, c.world.flags b = (false, false)) :
    c.Sound where
  top d hd := by
    have hnone := (plain _ (List.mem_of_mem_tail hd)).2
    cases d with
    | rounds b watchers => cases hnone
    | run | release | task | unlock => rfl
  phase b := by
    rw [Act.about_of_plain plain]
    exact ⟨.idle, .idle (quiet b)⟩

/-- A binding that nobody is being told of has no duties left. -/
theorem not_mem_of_flags (h : c.Sound) (quiet : c.world.flags b = (false, false)) {d : Duty κ ρ}
    (hd : .duty d ∈ c.acts) : d.binding? ≠ some b := by
  intro hb
  obtain ⟨p, hp⟩ := h.phase b
  have hmem := Act.mem_about.mpr ⟨hd, hb⟩
  generalize Act.about b c.acts = duties at hp hmem
  cases hp with
  | idle => cases hmem
  | ready hflags | within hflags =>
      rw [quiet] at hflags
      cases hflags

theorem next [Ordered ρ] {app : App κ ρ} {ctx : EventContext} {y : WindowId}
    (happ : app.Avoids x) (h : c.Sound) (step : Next app ctx y c c') : c'.Sound := by
  obtain @⟨act, rest, left, w, w', asked, made, run⟩ := step
  obtain ⟨duty, duties, htells⟩ := act.exists_tells happ run
  refine ⟨fun d hd => ?_, fun b => ?_⟩
  · cases left with
    | nil => exact h.top d (List.mem_of_mem_tail hd)
    | cons first more =>
        rcases List.mem_append.mp hd with hd | hd
        · exact htells.top d hd
        · exact h.top d hd
  · obtain ⟨p, hp⟩ := h.phase b
    exact htells.phase h.top hp

end Scene.Sound

end Trellis
