import Mathlib.Data.List.Forall2
import Trellis.Layout.Flex

/-!
# The same drawing in two contexts

Two drawings that start in contexts which correspond to each other may be compared part by part. A
layout only reads its limits, records its children and replays them, so it keeps any correspondence
that these three keep, also one that exchanges across and down.

* `Draw.Related` — two drawings keep a correspondence, with rules for `pure` and `bind`.
* `Aspect` — the plane as it is, or with across and down exchanged.
* `Flex.draw_related` — rows and columns keep what the three parts keep.
-/

namespace Trellis

/-- Two drawings that start in contexts related by `C` end in such contexts, with answers related by
`R`. -/
def Draw.Related {α ε β γ : Type} (C : Canvas α ε → Canvas α ε → Prop) (R : β → γ → Prop)
    (d : Draw α ε β) (d' : Draw α ε γ) : Prop :=
  ∀ ⦃c c'⦄, C c c' → R (d c).1 (d' c').1 ∧ C (d c).2 (d' c').2

namespace Draw.Related

variable {α ε β β' γ γ' : Type} {C : Canvas α ε → Canvas α ε → Prop} {R : β → β' → Prop}
  {S : γ → γ' → Prop}

theorem pure {a : β} {a' : β'} (h : R a a') :
    Related C R (pure a : Draw α ε β) (pure a' : Draw α ε β') :=
  fun _ _ hc => ⟨h, hc⟩

theorem bind {d : Draw α ε β} {d' : Draw α ε β'} {k : β → Draw α ε γ} {k' : β' → Draw α ε γ'}
    (hd : Related C R d d') (hk : ∀ a a', R a a' → Related C S (k a) (k' a')) :
    Related C S (d >>= k) (d' >>= k') := by
  intro c c' hc
  obtain ⟨hanswer, hafter⟩ := hd hc
  exact hk _ _ hanswer hafter

theorem mono {T : β → β' → Prop} {d : Draw α ε β} {d' : Draw α ε β'} (hd : Related C R d d')
    (h : ∀ a a', R a a' → T a a') : Related C T d d' :=
  fun _ _ hc => ⟨h _ _ (hd hc).1, (hd hc).2⟩

end Draw.Related

/-! ## Exchanging across and down -/

/-- A view of the plane: as it is, or with across and down exchanged. -/
inductive Aspect
  | upright
  | transposed

namespace Aspect

variable {α : Type}

def axis : Aspect → Axis → Axis
  | .upright, a => a
  | .transposed, a => a.flip

def vec : Aspect → Vec α → Vec α
  | .upright, v => v
  | .transposed, v => v.transpose

def constraints : Aspect → Constraints α → Constraints α
  | .upright, c => c
  | .transposed, c => c.transpose

end Aspect

/-- The op in a rectangle with across and down exchanged. -/
def DrawOp.transpose {α : Type} (op : DrawOp α) : DrawOp α :=
  { op with bounds := op.bounds.transpose }

/-- The recording with across and down exchanged. -/
def Recording.transpose {α : Type} (recording : Recording α) : Recording α where
  size := recording.size.transpose
  ops := recording.ops.map DrawOp.transpose

namespace Aspect

variable {α : Type}

def recording : Aspect → Recording α → Recording α
  | .upright, r => r
  | .transposed, r => r.transpose

/-- The same row or column along the axis that this view makes of its own. -/
def flex (aspect : Aspect) (settings : Flex) : Flex :=
  { settings with axis := aspect.axis settings.axis }

variable (aspect : Aspect) (a : Axis) (v : Vec α) (c : Constraints α)

@[simp] theorem main_vec : (aspect.axis a).main (aspect.vec v) = a.main v := by
  cases aspect <;> simp [axis, vec]

@[simp] theorem cross_vec : (aspect.axis a).cross (aspect.vec v) = a.cross v := by
  cases aspect <;> simp [axis, vec]

@[simp] theorem along_axis (m n : α) : (aspect.axis a).along m n = aspect.vec (a.along m n) := by
  cases aspect <;> simp [axis, vec]

@[simp] theorem min_constraints : (aspect.constraints c).min = aspect.vec c.min := by
  cases aspect <;> rfl

@[simp] theorem max_constraints : (aspect.constraints c).max = aspect.vec c.max := by
  cases aspect <;> rfl

@[simp] theorem size_recording (r : Recording α) :
    (aspect.recording r).size = aspect.vec r.size := by
  cases aspect <;> rfl

theorem constraints_mk (least most : Vec α) :
    aspect.constraints ⟨least, most⟩ = ⟨aspect.vec least, aspect.vec most⟩ := by
  cases aspect <;> rfl

theorem constrain_vec [Number α] :
    (aspect.constraints c).constrain (aspect.vec v) = aspect.vec (c.constrain v) := by
  cases aspect <;> rfl

/-- Two drawings leave corresponding recordings under corresponding limits. -/
def Records {ε : Type} [Number α] (C : Canvas α ε → Canvas α ε → Prop)
    (d d' : Draw α ε (Size α)) : Prop :=
  ∀ limits : Constraints α, Draw.Related C (fun r r' => r' = aspect.recording r)
    (Canvas.record limits d) (Canvas.record (aspect.constraints limits) d')

/-- A correspondence of contexts that is kept by what layouts do with their own context. -/
structure Keeps {ε : Type} [Number α] (C : Canvas α ε → Canvas α ε → Prop) : Prop where
  limits : Draw.Related C (fun l l' => l' = aspect.constraints l) Canvas.limits Canvas.limits
  replay : ∀ (recording : Recording α) (offset : Vec α),
    Draw.Related C Eq (Canvas.replay recording offset)
      (Canvas.replay (aspect.recording recording) (aspect.vec offset))

end Aspect

/-! ## Rows and columns -/

namespace Flex

variable {α ε : Type} [Number α] {aspect : Aspect} {C : Canvas α ε → Canvas α ε → Prop}
  {flex : Flex} {limits : Constraints α}

/-- Children of the same weight that leave corresponding recordings. -/
def Alike (aspect : Aspect) (C : Canvas α ε → Canvas α ε → Prop) :
    Child α (Draw α ε (Size α)) → Child α (Draw α ε (Size α)) → Prop :=
  fun child child' => child'.1 = child.1 ∧ aspect.Records C child.2 child'.2

/-- Such children when the rigid ones have been measured. -/
def MeasuredAlike (aspect : Aspect) (C : Canvas α ε → Canvas α ε → Prop) :
    Child α (Draw α ε (Size α) ⊕ Recording α) → Child α (Draw α ε (Size α) ⊕ Recording α) → Prop :=
  fun child child' => child'.1 = child.1 ∧
    Sum.LiftRel (aspect.Records C) (fun r r' => r' = aspect.recording r) child.2 child'.2

theorem measureRigid_related {children children' : List (Child α (Draw α ε (Size α)))}
    (alike : List.Forall₂ (Alike aspect C) children children') (used : α) :
    Draw.Related C (fun p p' => p'.1 = p.1 ∧ List.Forall₂ (MeasuredAlike aspect C) p.2 p'.2)
      (measureRigid flex limits used children)
      (measureRigid (aspect.flex flex) (aspect.constraints limits) used children') := by
  induction alike generalizing used with
  | nil => exact .pure ⟨rfl, .nil⟩
  | @cons child child' rest rest' hchild _ ih =>
      obtain ⟨weight, d⟩ := child
      obtain ⟨weight', d'⟩ := child'
      obtain ⟨rfl, hrecords⟩ := hchild
      cases weight' with
      | some weight =>
          refine .bind (ih used) fun p p' hp => .pure ⟨hp.1, ?_⟩
          exact .cons ⟨rfl, .inl hrecords⟩ hp.2
      | none =>
          simp only [measureRigid]
          have hlimits := hrecords ⟨flex.axis.along 0 (flex.axis.cross limits.min),
            flex.axis.along (Number.max (flex.axis.main limits.max - used) 0)
              (flex.axis.cross limits.max)⟩
          simp only [Aspect.constraints_mk] at hlimits
          simp only [Aspect.flex, Aspect.main_vec, Aspect.cross_vec, Aspect.along_axis,
            Aspect.min_constraints, Aspect.max_constraints]
          refine .bind hlimits fun r r' hr => ?_
          subst hr
          simp only [Aspect.size_recording, Aspect.main_vec]
          refine .bind (ih _) fun p p' hp => .pure ⟨hp.1, ?_⟩
          exact .cons ⟨rfl, .inr rfl⟩ hp.2

theorem totalWeight_alike
    {measured measured' : List (Child α (Draw α ε (Size α) ⊕ Recording α))}
    (alike : List.Forall₂ (MeasuredAlike aspect C) measured measured') :
    totalWeight measured' = totalWeight measured := by
  have hweights : measured'.map (·.1) = measured.map (·.1) := by
    induction alike with
    | nil => rfl
    | cons hchild _ ih => rw [List.map_cons, List.map_cons, ih, hchild.1]
  have hfilter (l : List (Child α (Draw α ε (Size α) ⊕ Recording α))) :
      l.filterMap (·.1) = (l.map (·.1)).filterMap id := by
    rw [List.filterMap_map]
    rfl
  rw [totalWeight, totalWeight, hfilter, hfilter, hweights]

theorem measureWeighted_related
    {measured measured' : List (Child α (Draw α ε (Size α) ⊕ Recording α))}
    (alike : List.Forall₂ (MeasuredAlike aspect C) measured measured') (space total used : α) :
    Draw.Related C (fun p p' => p'.1 = p.1 ∧ p'.2 = p.2.map aspect.recording)
      (measureWeighted flex limits space total used measured)
      (measureWeighted (aspect.flex flex) (aspect.constraints limits) space total used measured') := by
  induction alike generalizing used with
  | nil => exact .pure ⟨rfl, rfl⟩
  | @cons child child' rest rest' hchild _ ih =>
      obtain ⟨weight, item⟩ := child
      obtain ⟨weight', item'⟩ := child'
      obtain ⟨rfl, hitem⟩ := hchild
      cases hitem with
      | @inr r r' hr =>
          subst hr
          refine .bind (ih used) fun p p' hp => .pure ⟨hp.1, ?_⟩
          exact congrArg (aspect.recording r :: ·) hp.2
      | @inl d d' hrecords =>
          simp only [measureWeighted]
          have hlimits := hrecords ⟨flex.axis.along (space * weight'.getD 0 / total)
              (flex.axis.cross limits.min),
            flex.axis.along (space * weight'.getD 0 / total) (flex.axis.cross limits.max)⟩
          simp only [Aspect.constraints_mk] at hlimits
          simp only [Aspect.flex, Aspect.cross_vec, Aspect.along_axis, Aspect.min_constraints,
            Aspect.max_constraints]
          refine .bind hlimits fun r r' hr => ?_
          subst hr
          simp only [Aspect.size_recording, Aspect.main_vec]
          refine .bind (ih _) fun p p' hp => .pure ⟨hp.1, ?_⟩
          exact congrArg (aspect.recording r :: ·) hp.2

theorem measure_related {children children' : List (Child α (Draw α ε (Size α)))}
    (alike : List.Forall₂ (Alike aspect C) children children') :
    Draw.Related C (fun p p' => p'.1 = p.1 ∧ p'.2 = p.2.map aspect.recording)
      (measure flex limits children)
      (measure (aspect.flex flex) (aspect.constraints limits) children') := by
  refine .bind (measureRigid_related alike 0) fun p p' hp => ?_
  obtain ⟨used, measured⟩ := p
  obtain ⟨used', measured'⟩ := p'
  obtain ⟨rfl, hmeasured⟩ := hp
  have hlongest : (aspect.flex flex).axis.main (aspect.constraints limits).max =
      flex.axis.main limits.max := by
    rw [Aspect.max_constraints]
    exact Aspect.main_vec aspect flex.axis limits.max
  simp only [hlongest, totalWeight_alike hmeasured]
  exact measureWeighted_related hmeasured _ _ _

theorem place_related (keeps : aspect.Keeps C) (cross gap main : α) (recordings : List (Recording α)) :
    Draw.Related C Eq (place flex cross gap main recordings)
      (place (aspect.flex flex) cross gap main (recordings.map aspect.recording)) := by
  induction recordings generalizing main with
  | nil => exact .pure rfl
  | cons r rest ih =>
      simp only [List.map_cons, place, Aspect.flex, Aspect.size_recording, Aspect.main_vec,
        Aspect.cross_vec, Aspect.along_axis, List.isEmpty_map]
      exact .bind (keeps.replay r _) fun _ _ _ => ih _

/-- A row or column is drawn alike if its children are. -/
theorem draw_related (keeps : aspect.Keeps C) (flex : Flex)
    {children children' : List (Child α (Draw α ε (Size α)))}
    (alike : List.Forall₂ (Alike aspect C) children children') :
    Draw.Related C (fun s s' => s' = aspect.vec s) (flex.draw children)
      ((aspect.flex flex).draw children') := by
  refine .bind keeps.limits fun limits limits' hlimits => ?_
  subst hlimits
  refine .bind (measure_related alike) fun p p' hp => ?_
  obtain ⟨used, recordings⟩ := p
  obtain ⟨used', recordings'⟩ := p'
  obtain ⟨hused, hrecordings⟩ : used' = used ∧ recordings' = recordings.map aspect.recording := hp
  subst hused hrecordings
  have hwidths : (recordings.map aspect.recording).map
      (fun r => (aspect.flex flex).axis.cross r.size) =
        recordings.map fun r => flex.axis.cross r.size := by
    rw [List.map_map]
    refine List.map_congr_left fun r _ => ?_
    simp only [Function.comp_apply, Aspect.flex, Aspect.size_recording, Aspect.cross_vec]
  have hcross : (aspect.flex flex).axis.cross (aspect.constraints limits).min =
      flex.axis.cross limits.min := by
    rw [Aspect.min_constraints]
    exact Aspect.cross_vec aspect flex.axis limits.min
  have hmain : (aspect.flex flex).axis.main (aspect.constraints limits).min =
      flex.axis.main limits.min := by
    rw [Aspect.min_constraints]
    exact Aspect.main_vec aspect flex.axis limits.min
  have halong (m n : α) : (aspect.flex flex).axis.along m n = aspect.vec (flex.axis.along m n) :=
    Aspect.along_axis aspect flex.axis m n
  simp only [hwidths, hcross, hmain, halong, ← alike.length_eq]
  refine .bind (place_related keeps _ _ _ recordings) fun _ _ _ => .pure ?_
  exact Aspect.constrain_vec aspect _ _

end Flex

end Trellis
