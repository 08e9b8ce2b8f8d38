import Trellis.Proofs.Canvas.Related
import Trellis.Proofs.Number.Exact

/-!
# The same drawing in another place

A drawing is compared with the same drawing started elsewhere in the plane, under the same limits
and after other ops. Each primitive of drawing keeps the distance, and puts its ops at that distance.

* `Canvas.moved` — a context that lies elsewhere.
* `Draw.Follows` — two drawings keep their distance, with one rule for each primitive.
* `Draw.Shifts` — wherever it starts, a drawing does as it would at the origin;
  `Draw.Shifts.of_follows` says so of one that keeps its distance from itself.
-/

namespace Trellis

variable {α ε β γ δ : Type} [Number α]

/-! ## Contexts that lie elsewhere -/

/-- The context at a distance, with other ops before its own, which are at the distance, too. -/
def Canvas.moved (offset : Vec α) (before : List (DrawOp α)) (c : Canvas α ε) : Canvas α ε :=
  { c with
    origin := c.origin + offset
    ops := before ++ c.ops.map (·.translate offset) }

/-- The first context is the second one moved. -/
structure Canvas.Moved (limits : Constraints α) (home : Point α) (offset : Vec α)
    (before : List (DrawOp α)) (c c' : Canvas α ε) : Prop where
  eq_moved : c = c'.moved offset before
  constraints : c'.constraints = limits
  origin : c'.origin = home

/-- Two drawings that start at a distance from each other, with the second one at `home`, stay at
that distance, and both restore their limits and origins. -/
abbrev Draw.Follows (limits : Constraints α) (home : Point α) (offset : Vec α)
    (before : List (DrawOp α)) (R : β → γ → Prop) (d : Draw α ε β) (d' : Draw α ε γ) : Prop :=
  Related (Canvas.Moved limits home offset before) R d d'

section Translations

variable [ExactSum α]

theorem Rect.translate_translate (r : Rect α) (u v : Vec α) :
    (r.translate u).translate v = r.translate (u + v) :=
  congrArg (Rect.mk · r.size) (Vec.add_assoc _ _ _)

theorem DrawOp.translate_translate (op : DrawOp α) (u v : Vec α) :
    (op.translate u).translate v = op.translate (u + v) :=
  congrArg (DrawOp.mk op.element · op.ink) (Rect.translate_translate _ u v)

theorem Rect.inset_translate (r : Rect α) (offset : Vec α) (top bottom left right : α) :
    (r.translate offset).inset top bottom left right =
      (r.inset top bottom left right).translate offset :=
  congrArg (Rect.mk · _) (Vec.add_right_comm r.origin offset ⟨left, top⟩)

end Translations

/-! ## The primitives -/

namespace Draw.Follows

variable {limits : Constraints α} {home : Point α} {offset : Vec α} {before : List (DrawOp α)}
  {R : β → γ → Prop}

/-- A first part with the same answer in both places. -/
theorem bind {d d' : Draw α ε β} {k k' : β → Draw α ε γ} {S : γ → γ → Prop}
    (hd : Follows limits home offset before Eq d d')
    (hk : ∀ a, Follows limits home offset before S (k a) (k' a)) :
    Follows limits home offset before S (d >>= k) (d' >>= k') := by
  refine Related.bind hd fun a a' h => ?_
  subst h
  exact hk a

theorem pure (a : β) :
    Follows limits home offset before Eq (pure a : Draw α ε β) (Pure.pure a : Draw α ε β) :=
  Related.pure rfl

theorem limits' : Follows limits home offset before (fun l l' => l = limits ∧ l' = limits)
    (Canvas.limits : Draw α ε (Constraints α)) Canvas.limits := by
  rintro _ c ⟨rfl, hlimits, horigin⟩
  exact ⟨⟨hlimits, hlimits⟩, rfl, hlimits, horigin⟩

theorem limits_bind {k k' : Constraints α → Draw α ε β} {S : β → β → Prop}
    (hk : Follows limits home offset before S (k limits) (k' limits)) :
    Follows limits home offset before S (Canvas.limits >>= k) (Canvas.limits >>= k') := by
  refine Related.bind limits' fun l l' h => ?_
  obtain ⟨rfl, rfl⟩ := h
  exact hk

theorem textMetrics : Follows limits home offset before Eq
    (Canvas.textMetrics : Draw α ε (TextMetrics α)) Canvas.textMetrics := by
  rintro _ c ⟨rfl, hlimits, horigin⟩
  exact ⟨rfl, rfl, hlimits, horigin⟩

theorem request (r : ε) : Follows limits home offset before Eq
    (Canvas.request r : Draw α ε Unit) (Canvas.request r) := by
  rintro _ c ⟨rfl, hlimits, horigin⟩
  exact ⟨rfl, rfl, hlimits, horigin⟩

theorem rect (size : Size α) :
    Follows limits home offset before
      (fun r r' => r = ⟨home + offset, size⟩ ∧ r' = ⟨home, size⟩)
      (Canvas.rect size : Draw α ε (Rect α)) (Canvas.rect size) := by
  rintro _ c ⟨rfl, hlimits, rfl⟩
  exact ⟨⟨rfl, rfl⟩, rfl, hlimits, rfl⟩

theorem push (ops : List (DrawOp α)) :
    Follows limits home offset before Eq
      (Canvas.push (ops.map (·.translate offset)) : Draw α ε Unit) (Canvas.push ops) := by
  rintro _ c ⟨rfl, hlimits, horigin⟩
  refine ⟨rfl, ?_, hlimits, horigin⟩
  have hops : before ++ c.ops.map (·.translate offset) ++ ops.map (·.translate offset) =
      before ++ (c.ops ++ ops).map (·.translate offset) := by
    rw [List.map_append, List.append_assoc]
  exact congrArg (fun ops => ({ c.moved offset before with ops := ops } : Canvas α ε)) hops

theorem paint (id : String) (size : Size α) (ink : Ink α) :
    Follows limits home offset before Eq
      (Canvas.paint id size ink : Draw α ε Unit) (Canvas.paint id size ink) := by
  refine Related.bind (rect size) fun r r' h => ?_
  obtain ⟨rfl, rfl⟩ := h
  exact push [⟨id, ⟨home, size⟩, ink⟩]

theorem withConstraints {inner : Constraints α} {d : Draw α ε β} {d' : Draw α ε γ}
    (h : Follows inner home offset before R d d') :
    Follows limits home offset before R (Canvas.withConstraints inner d)
      (Canvas.withConstraints inner d') := by
  rintro _ c ⟨rfl, hlimits, horigin⟩
  have hstart : Canvas.Moved inner home offset before
      { c.moved offset before with constraints := inner } { c with constraints := inner } :=
    ⟨rfl, rfl, horigin⟩
  obtain ⟨hanswer, hafter⟩ := h hstart
  refine ⟨hanswer, ?_, hlimits, hafter.origin⟩
  exact congrArg (fun after : Canvas α ε => { after with constraints := c.constraints })
    hafter.eq_moved

/-- Recording starts from the same context in both places, whatever is recorded. -/
theorem record (inner : Constraints α) (d : Draw α ε (Size α)) :
    Follows limits home offset before Eq (Canvas.record inner d) (Canvas.record inner d) := by
  rintro _ c ⟨rfl, hlimits, horigin⟩
  exact ⟨rfl, rfl, hlimits, horigin⟩

section Exact

variable [ExactSum α]

theorem withOffset {inner : Vec α} {d : Draw α ε β} {d' : Draw α ε γ}
    (h : Follows limits (home + inner) offset before R d d') :
    Follows limits home offset before R (Canvas.withOffset inner d)
      (Canvas.withOffset inner d') := by
  rintro _ c ⟨rfl, hlimits, rfl⟩
  have hstart : Canvas.Moved limits (c.origin + inner) offset before
      { c.moved offset before with origin := c.origin + offset + inner }
      { c with origin := c.origin + inner } := by
    refine ⟨?_, hlimits, rfl⟩
    exact congrArg (fun origin => ({ c.moved offset before with origin := origin } : Canvas α ε))
      (Vec.add_right_comm _ _ _)
  obtain ⟨hanswer, hafter⟩ := h hstart
  refine ⟨hanswer, ?_, hafter.constraints, rfl⟩
  exact congrArg (fun after : Canvas α ε => { after with origin := c.origin + offset })
    hafter.eq_moved

theorem replay (recording : Recording α) (inner : Vec α) :
    Follows limits home offset before Eq
      (Canvas.replay recording inner : Draw α ε Unit) (Canvas.replay recording inner) := by
  rintro _ c ⟨rfl, hlimits, horigin⟩
  refine ⟨rfl, ?_, hlimits, horigin⟩
  have hops : before ++ c.ops.map (·.translate offset) ++
      recording.ops.map (·.translate (c.origin + offset + inner)) =
        before ++ (c.ops ++ recording.ops.map (·.translate (c.origin + inner))).map
          (·.translate offset) := by
    rw [List.map_append, List.map_map, List.append_assoc]
    refine congrArg (fun later => before ++ (c.ops.map (·.translate offset) ++ later))
      (List.map_congr_left fun op _ => ?_)
    rw [Function.comp_apply, DrawOp.translate_translate, Vec.add_right_comm]
  exact congrArg (fun ops => ({ c.moved offset before with ops := ops } : Canvas α ε)) hops

/-- Rows and columns keep their distance, as they only record and replay. -/
theorem keeps : Aspect.upright.Keeps (Canvas.Moved (ε := ε) limits home offset before) where
  limits := Related.mono limits' fun _ _ h => h.2.trans h.1.symm
  replay recording inner := replay recording inner

theorem flex (settings : Flex) (children : List (Flex.Child α (Draw α ε (Size α)))) :
    Follows limits home offset before Eq (settings.draw children) (settings.draw children) := by
  have halike : List.Forall₂ (Flex.Alike .upright (Canvas.Moved limits home offset before))
      children children := by
    refine List.forall₂_same.mpr fun child _ => ⟨rfl, fun inner => ?_⟩
    exact Related.mono (record inner child.2) fun _ _ h => h.symm
  exact Related.mono (Flex.draw_related keeps settings halike) fun _ _ h => h.symm

end Exact

end Draw.Follows

/-! ## Wherever a drawing starts -/

/-- Wherever it starts, the drawing leaves limits, origin and earlier ops alone, and appends what it
would draw at the origin, moved to where it starts. -/
def Draw.Shifts (d : Draw α ε β) : Prop :=
  ∀ c : Canvas α ε,
    let home := d { c with origin := Vec.zero, ops := [] }
    (d c).1 = home.1 ∧
      (d c).2.constraints = c.constraints ∧
      (d c).2.origin = c.origin ∧
      (d c).2.ops = c.ops ++ home.2.ops.map (·.translate c.origin)

namespace Draw.Shifts

variable {d : Draw α ε β}

theorem map (h : d.Shifts) (f : β → γ) : (do return f (← d) : Draw α ε γ).Shifts := by
  intro c
  obtain ⟨hanswer, hlimits, horigin, hops⟩ := h c
  exact ⟨congrArg f hanswer, hlimits, horigin, hops⟩

theorem limits_bind {k : Constraints α → Draw α ε β} (h : ∀ limits, (k limits).Shifts) :
    (Canvas.limits >>= k).Shifts :=
  fun c => h c.constraints c

theorem withConstraints (h : d.Shifts) (inner : Constraints α) :
    (Canvas.withConstraints inner d).Shifts := by
  intro c
  obtain ⟨hanswer, -, horigin, hops⟩ := h { c with constraints := inner }
  exact ⟨hanswer, rfl, horigin, hops⟩

variable [ExactSum α]

theorem of_follows
    (h : ∀ limits home offset before, Follows limits home offset before Eq d d) : d.Shifts := by
  intro c
  have hstart : Canvas.Moved c.constraints Vec.zero c.origin c.ops c
      { c with origin := Vec.zero, ops := [] } := by
    refine ⟨?_, rfl, rfl⟩
    have horigin : Vec.zero + c.origin = c.origin := Vec.zero_add _
    have hops : c.ops ++ [] = c.ops := List.append_nil _
    show c = { c with origin := Vec.zero + c.origin, ops := c.ops ++ [] }
    rw [horigin, hops]
  obtain ⟨hanswer, hmoved, hlimits, horigin⟩ := h _ _ _ _ hstart
  refine ⟨hanswer, ?_, ?_, ?_⟩
  · rw [hmoved]
    exact hlimits
  · rw [hmoved]
    show _ + c.origin = _
    rw [horigin, Vec.zero_add]
  · rw [hmoved]
    rfl

/-- At an offset, a drawing does at both places what it does at the origin. -/
theorem withOffset (h : d.Shifts) (inner : Vec α) : (Canvas.withOffset inner d).Shifts := by
  intro c
  obtain ⟨hanswer, hlimits, -, hops⟩ := h { c with origin := c.origin + inner }
  obtain ⟨hanswer', -, -, hops'⟩ := h { c with origin := Vec.zero + inner, ops := [] }
  refine ⟨hanswer.trans hanswer'.symm, hlimits, rfl, ?_⟩
  refine hops.trans (congrArg (c.ops ++ ·) ?_)
  refine Eq.trans ?_ (congrArg (List.map (·.translate c.origin)) hops').symm
  rw [List.nil_append, List.map_map]
  refine List.map_congr_left fun op _ => ?_
  rw [Function.comp_apply, DrawOp.translate_translate, Vec.zero_add, Vec.add_comm]

end Draw.Shifts

end Trellis
