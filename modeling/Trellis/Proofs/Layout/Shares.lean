import Trellis.Proofs.Layout.Laid
import Trellis.Proofs.Number.Double

/-!
# Shares in double precision

The weight of a child is a number of single precision above zero, or infinite. Its share of the
space is a product divided by the sum of the weights, and both are rounded.

* `Flex.Share` — what a child gets of the space, whatever its weight is.
* `Flex.draw_shares` — every weighted child is drawn under a share of the space.
-/

namespace Trellis

open Exact Binary

namespace Flex

/-- The smallest positive number of double precision with all the bits. -/
def leastNormal : Float := Float.ofBits 0x0010000000000000

/-- What a child gets of the space, the weights adding up to `total`. It is no number if the weight
is infinite, or if both the sum of the weights and the product are. The share is within the space if
the product neither overflows nor loses bits; that of the only child may be the next number
above. -/
structure Share (space weight total : Float) : Prop where
  isNaN_iff : (space * weight / total).isNaN ↔
    weight.isInf ∨ total.isInf ∧ (space * weight).isInf
  nonneg : ¬(space * weight / total).isNaN → 0 ≤ space * weight / total
  le_space : (space * weight).isFinite →
    space * weight ≤ 0 ∨ leastNormal ≤ space * weight → weight < total →
      space * weight / total ≤ space
  le_above : (space * weight).isFinite →
    space * weight ≤ 0 ∨ leastNormal ≤ space * weight →
      ∀ above, space < above → space * weight / total ≤ above

/-! ## Sums of weights -/

/-- A weight, or a sum of weights. -/
structure IsWeight (x : Float) : Prop where
  nonneg : 0 ≤ ofFloat x
  narrow : Narrow x

variable {x y : Float}

theorem IsWeight.le_of_le {z : Float} (hx : IsWeight x) (le : ofFloat x ≤ ofFloat y + ofFloat z) :
    ofFloat x ≤ ofFloat (Number.addSingle y z) := by
  have hsum := (ofFloat_add y z).le hx.nonneg (fun q hq => widen (hx.narrow q hq)) le
  exact (ofFloat_single (y + z)).1.le hx.nonneg hx.narrow hsum

theorem IsWeight.add (hx : IsWeight x) (hy : IsWeight y) : IsWeight (Number.addSingle x y) ∧
    ofFloat x ≤ ofFloat (Number.addSingle x y) ∧ ofFloat y ≤ ofFloat (Number.addSingle x y) := by
  have hle := hx.le_of_le (le_add_of_nonneg hx.nonneg hy.nonneg)
  refine ⟨⟨Exact.le_trans hx.nonneg hle, (ofFloat_single (x + y)).2⟩, hle, hy.le_of_le ?_⟩
  rw [ExactSum.add_comm]
  exact le_add_of_nonneg hy.nonneg hx.nonneg

/-- A sum of weights is a weight, and no less than any of them. -/
theorem foldl_addSingle {weights : List Float} (hweights : ∀ w ∈ weights, IsWeight w)
    (hx : IsWeight x) :
    let total := weights.foldl Number.addSingle x
    IsWeight total ∧ ofFloat x ≤ ofFloat total ∧ ∀ w ∈ weights, ofFloat w ≤ ofFloat total := by
  induction weights generalizing x with
  | nil => exact ⟨hx, le_self hx.nonneg, nofun⟩
  | cons w weights ih =>
      obtain ⟨hw, hrest⟩ := List.forall_mem_cons.mp hweights
      obtain ⟨hadd, hle, hle'⟩ := hx.add hw
      obtain ⟨htotal, hle'', hall⟩ := ih hrest hadd
      exact ⟨htotal, Exact.le_trans hle hle'',
        List.forall_mem_cons.mpr ⟨Exact.le_trans hle' hle'', hall⟩⟩

/-! ## Products and quotients -/

section

variable {s w t p v : ℚ}

/-- A product that is rounded up is not too large for a share if the sum of the weights is more than
the weight: sums have fewer bits than products, so they are farther apart. -/
theorem quotient_le_space (hs : 0 ≤ s) (hw : 0 < w) (lt : w < t)
    (apart : w ≤ (2 ^ 24 - 1) * (t - w)) (close : p * (2 ^ 53 - 1) ≤ s * w * 2 ^ 53) :
    p / t ≤ s := by
  have hscaled := mul_le_mul_of_nonneg_left apart hs
  have hproduct : 0 ≤ s * w := by positivity
  rw [div_le_iff₀ (hw.trans lt)]
  linarith

/-- Otherwise the quotient is still no more than the next number. -/
theorem quotient_le_above (hs : 0 ≤ s) (hw : 0 < w) (le : w ≤ t) (lt : s < v)
    (apart : s ≤ (2 ^ 53 - 1) * (v - s)) (close : p * (2 ^ 53 - 1) ≤ s * w * 2 ^ 53) :
    p / t ≤ v := by
  have hscaled := mul_le_mul_of_nonneg_right apart hw.le
  have htotal := mul_le_mul_of_nonneg_left le (hs.trans lt.le)
  rw [div_le_iff₀ (hw.trans_le le)]
  linarith

end

variable {space weight total : Float}

theorem ofFloat_leastNormal : ofFloat leastNormal = of (2 ^ 52 * 2 ^ (-1074 : ℤ)) := by
  have hread : leastNormal.toModel.unpack =
      .finite .positive (2 ^ 52) (-1074) (Nat.two_pow_pos 52) := rfl
  rw [ofFloat, hread, value, signed, Nat.cast_pow, Nat.cast_ofNat]

/-- A product that does not lose bits is close to the exact one. -/
theorem product_close (hs : ofFloat space = of s) (hw : ofFloat weight = of w)
    (hp : ofFloat (space * weight) = of p) (nonneg : 0 ≤ s * w)
    (large : space * weight ≤ 0 ∨ leastNormal ≤ space * weight) :
    p * (2 ^ 53 - 1) ≤ s * w * 2 ^ 53 := by
  have hproduct := ofFloat_mul space weight
  rw [hs, hw, hp] at hproduct
  rw [le_iff_ofFloat, le_iff_ofFloat, hp, ofFloat_leastNormal, ofFloat_zero, of_le_of,
    of_le_of] at large
  rcases large with hnone | hlarge
  · have hle : p * (2 ^ 53 - 1) ≤ 0 := mul_nonpos_of_nonpos_of_nonneg hnone (by norm_num)
    exact hle.trans (by positivity)
  · have hpos : 0 < p := lt_of_lt_of_le (by positivity) hlarge
    have hclose : |p - s * w| * 2 ^ 53 ≤ |p| :=
      hproduct.close _ p rfl rfl (by rw [abs_of_pos hpos]; exact hlarge)
    rw [abs_of_pos hpos] at hclose
    have hle := mul_le_mul_of_nonneg_right (le_abs_self (p - s * w))
      (by positivity : (0 : ℚ) ≤ 2 ^ 53)
    linarith

/-! ## Shares -/

/-- A weight among others, and the space that they share. -/
structure Offered (space weight total : Float) : Prop where
  space_nonneg : 0 ≤ ofFloat space
  weight_pos : 0 < ofFloat weight
  weight_narrow : Narrow weight
  total_narrow : Narrow total
  weight_le : ofFloat weight ≤ ofFloat total

theorem Offered.weight_cases (h : Offered space weight total) :
    (∃ w, ofFloat weight = of w ∧ 0 < w) ∨ ofFloat weight = infinite false :=
  pos_cases h.weight_pos

theorem Offered.total_cases (h : Offered space weight total) :
    (∃ w t, ofFloat weight = of w ∧ ofFloat total = of t ∧ 0 < w ∧ w ≤ t) ∨
      ofFloat total = infinite false := by
  have hle := Exact.le_iff.mp h.weight_le
  rcases h.weight_cases with ⟨w, hw, hpos⟩ | hw
  · rw [hw] at hle ⊢
    rcases hle with ⟨w', t, hw', ht, hle⟩ | ⟨hw', -⟩ | ⟨ht, -⟩
    · cases hw'
      exact .inl ⟨w, t, rfl, ht, hpos, hle⟩
    · cases hw'
    · exact .inr ht
  · rw [hw] at hle
    rcases hle with ⟨w', t, hw', -⟩ | ⟨hw', -⟩ | ⟨ht, -⟩
    · cases hw'
    · cases hw'
    · exact .inr ht

/-- The product of a rational weight is a number. -/
theorem Offered.product_cases (h : Offered space weight total) (hw : ofFloat weight = of w)
    (hpos : 0 < w) :
    (∃ p, ofFloat (space * weight) = of p ∧ 0 ≤ p) ∨
      ofFloat (space * weight) = infinite false := by
  have hproduct := ofFloat_mul space weight
  rw [hw] at hproduct
  rcases nonneg_cases h.space_nonneg with ⟨s, hs, hnonneg⟩ | hs <;> rw [hs] at hproduct
  · rw [of_mul_of] at hproduct
    exact nonneg_cases (hproduct.floor 0 (fits_zero _) (of_le_of.mpr (by positivity)))
  · rw [infinite_mul hpos] at hproduct
    exact .inr hproduct.eq_infinite

/-- The product of an infinite weight is infinite, or no number. -/
theorem Offered.product_infinite (h : Offered space weight total)
    (hw : ofFloat weight = infinite false) :
    ofFloat (space * weight) = infinite false ∨ ofFloat (space * weight) = undefined := by
  have hproduct := ofFloat_mul space weight
  rw [hw] at hproduct
  rcases nonneg_cases h.space_nonneg with ⟨s, hs, hnonneg⟩ | hs
  · rw [hs] at hproduct
    change Rounded _ (scale false s) _ at hproduct
    rcases hnonneg.eq_or_lt with rfl | hpos
    · rw [scale, if_pos rfl] at hproduct
      exact .inr hproduct.eq_undefined
    · rw [scale, if_neg hpos.ne', decide_eq_false hpos.not_gt] at hproduct
      exact .inl hproduct.eq_infinite
  · rw [hs] at hproduct
    exact .inl hproduct.eq_infinite

theorem Offered.share_rounded (h : Offered space weight total) :
    Rounded .binary64 (ofFloat (space * weight) / ofFloat total)
      (ofFloat (space * weight / total)) := by
  refine ofFloat_div _ fun hzero => ?_
  rcases h.total_cases with ⟨w, t, -, ht, hpos, hle⟩ | ht
  · cases ht.symm.trans hzero
    exact absurd (hpos.trans_le hle) (lt_irrefl 0)
  · cases ht.symm.trans hzero

/-- The quotient is undefined if the weight is infinite or one infinity is divided by another. -/
theorem Offered.quotient_cases (h : Offered space weight total) :
    (weight.isInf ∨ total.isInf ∧ (space * weight).isInf) ∧
        ofFloat (space * weight) / ofFloat total = undefined ∨
      ¬(weight.isInf ∨ total.isInf ∧ (space * weight).isInf) ∧
        0 ≤ ofFloat (space * weight) / ofFloat total := by
  simp only [isInf_iff]
  rcases h.total_cases with ⟨w, t, hw, ht, hpos, hle⟩ | ht
  · have htpos := hpos.trans_le hle
    rw [hw, ht]
    refine .inr ⟨by simp, ?_⟩
    rcases h.product_cases hw hpos with ⟨p, hp, hnonneg⟩ | hp <;> rw [hp]
    · rw [of_div_of p htpos.ne', zero_eq, of_le_of]
      positivity
    · show 0 ≤ infinite (false != decide (t < 0))
      rw [decide_eq_false htpos.not_gt]
      exact le_infinite nofun
  · rw [ht]
    rcases h.weight_cases with ⟨w, hw, hpos⟩ | hw <;> rw [hw]
    · rcases h.product_cases hw hpos with ⟨p, hp, -⟩ | hp <;> rw [hp]
      · exact .inr ⟨by simp, .inr ⟨rfl, nofun⟩⟩
      · exact .inl ⟨.inr ⟨⟨_, rfl⟩, ⟨_, rfl⟩⟩, rfl⟩
    · refine .inl ⟨.inl ⟨_, rfl⟩, ?_⟩
      rcases h.product_infinite hw with hp | hp <;> rw [hp] <;> rfl

theorem Offered.isNaN_iff (h : Offered space weight total) : (space * weight / total).isNaN ↔
    weight.isInf ∨ total.isInf ∧ (space * weight).isInf := by
  rw [Exact.isNaN_iff, h.share_rounded.undefined_iff]
  rcases h.quotient_cases with ⟨hinfinite, hquotient⟩ | ⟨hbounded, hquotient⟩
  · exact iff_of_true hquotient hinfinite
  · refine iff_of_false (fun hundefined => ?_) hbounded
    rw [hundefined] at hquotient
    rcases hquotient with hle | ⟨hle, -⟩ <;> cases hle

theorem Offered.nonneg (h : Offered space weight total)
    (number : ¬(space * weight / total).isNaN) : 0 ≤ space * weight / total := by
  rw [h.isNaN_iff] at number
  obtain ⟨-, hquotient⟩ := h.quotient_cases.resolve_left fun hundefined => number hundefined.1
  rw [le_iff_ofFloat, ofFloat_zero]
  exact h.share_rounded.floor 0 (fits_zero _) (zero_eq ▸ hquotient)

/-- A product is finite only if both factors are. -/
theorem Offered.rational (h : Offered space weight total)
    (finite : (space * weight).isFinite) :
    ∃ s w p, ofFloat space = of s ∧ ofFloat weight = of w ∧ ofFloat (space * weight) = of p ∧
      0 ≤ s ∧ 0 < w := by
  obtain ⟨p, hp⟩ := isFinite_iff.mp finite
  rcases h.weight_cases with ⟨w, hw, hpos⟩ | hw
  · rcases nonneg_cases h.space_nonneg with ⟨s, hs, hnonneg⟩ | hs
    · exact ⟨s, w, p, hs, hw, hp, hnonneg, hpos⟩
    · have hproduct := ofFloat_mul space weight
      rw [hs, hw, infinite_mul hpos, hp] at hproduct
      cases hproduct.eq_infinite
  · rcases h.product_infinite hw with hinfinite | hundefined
    · cases hp.symm.trans hinfinite
    · cases hp.symm.trans hundefined

/-- A bound of the quotient is one of the share. -/
theorem Offered.share_le (h : Offered space weight total) (hp : ofFloat (space * weight) = of p)
    (hv : Binary.Fits .binary64 v) (nonneg : 0 ≤ v)
    (le : ∀ w t, ofFloat weight = of w → ofFloat total = of t → w ≤ t → p / t ≤ v) :
    ofFloat (space * weight / total) ≤ of v := by
  refine h.share_rounded.ceil v hv ?_
  rw [hp]
  rcases h.total_cases with ⟨w, t, hw, ht, hpos, hle⟩ | ht
  · rw [ht, of_div_of p (hpos.trans_le hle).ne', of_le_of]
    exact le w t hw ht hle
  · rw [ht]
    exact of_le_of.mpr nonneg

theorem Offered.le_space (h : Offered space weight total) (finite : (space * weight).isFinite)
    (large : space * weight ≤ 0 ∨ leastNormal ≤ space * weight) (lt : weight < total) :
    space * weight / total ≤ space := by
  obtain ⟨s, w, p, hs, hw, hp, hnonneg, hpos⟩ := h.rational finite
  rw [le_iff_ofFloat, hs]
  refine h.share_le hp (fits hs) hnonneg fun w' t hw' ht _ => ?_
  cases hw.symm.trans hw'
  have hlt : w < t := by rwa [lt_iff_ofFloat, hw, ht, of_lt_of] at lt
  exact quotient_le_space hnonneg hpos hlt
    ((h.weight_narrow w hw).grid.gap (h.total_narrow t ht).grid hlt)
    (product_close hs hw hp (by positivity) large)

theorem Offered.le_above (h : Offered space weight total) (finite : (space * weight).isFinite)
    (large : space * weight ≤ 0 ∨ leastNormal ≤ space * weight) (above : Float)
    (lt : space < above) : space * weight / total ≤ above := by
  obtain ⟨s, w, p, hs, hw, hp, hnonneg, hpos⟩ := h.rational finite
  rw [le_iff_ofFloat]
  rw [lt_iff_ofFloat, hs] at lt
  cases hv : ofFloat above with
  | undefined => rw [hv] at lt; cases lt
  | infinite negative =>
      have hnumber : ¬(space * weight / total).isNaN := by
        rw [h.isNaN_iff, isInf_iff, isInf_iff, isInf_iff, hw, hp]
        simp
      rw [Exact.isNaN_iff] at hnumber
      cases negative with
      | false => exact le_infinite hnumber
      | true => rw [hv] at lt; cases lt
  | of v =>
      rw [hv, of_lt_of] at lt
      refine h.share_le hp (fits hv) (hnonneg.trans lt.le) fun w' t hw' ht hle => ?_
      cases hw.symm.trans hw'
      exact quotient_le_above hnonneg hpos hle lt ((fits hs).grid.gap (fits hv).grid lt)
        (product_close hs hw hp (by positivity) large)

/-- The only child may indeed get a little more than there is. -/
example : (0.1 : Float) < 0.1 * 3 / 3 := by decide +kernel

theorem Offered.share (h : Offered space weight total) : Share space weight total :=
  ⟨h.isNaN_iff, h.nonneg, h.le_space, h.le_above⟩

/-! ## Children -/

variable {ε : Type}

/-- The child with the weight that it is kept with. Weights are asked for in single precision. -/
def weigh {τ : Type} (child : Option Float × τ) : Child Float τ :=
  (keepWeight (child.1.map Number.single), child.2)

theorem isWeight_of_kept {asked : Option Float} {w : Float}
    (kept : keepWeight (asked.map Number.single) = some w) : IsWeight w ∧ 0 < ofFloat w := by
  rw [keepWeight, Option.filter_eq_some_iff] at kept
  obtain ⟨hasked, hpos⟩ := kept
  have hpos : 0 < ofFloat w := lt_iff_ofFloat.mp (of_decide_eq_true hpos)
  obtain ⟨x, -, rfl⟩ := Option.map_eq_some_iff.mp hasked
  exact ⟨⟨.inl hpos, (ofFloat_single x).2⟩, hpos⟩

theorem isWeight_zero : IsWeight 0 :=
  ⟨.inr ⟨rfl, nofun⟩, by rintro _ ⟨⟩; exact fits_zero _⟩

theorem space_nonneg (flex : Flex) (limits : Constraints Float)
    (laid : List (Child Float (Recording Float))) : 0 ≤ ofFloat (flex.space limits laid) := by
  unfold space
  split
  · rw [ofFloat_max]
    exact le_max_zero _
  · exact .inr ⟨rfl, nofun⟩

/-- Every weighted child is drawn under a share of the space, whatever the weights and the limits
are. -/
theorem draw_shares (flex : Flex) (asked : List (Option Float × Draw Float ε (Size Float)))
    (c : Canvas Float ε) :
    let laid := flex.recorded (asked.map weigh) c
    flex.Laid c.metrics c.constraints (asked.map weigh) laid ∧
      ∀ w, some w ∈ laid.map (·.1) →
        Share (flex.space c.constraints laid) w (totalWeight laid) := by
  obtain ⟨hlaid, -⟩ := draw_laid flex (asked.map weigh) c
  refine ⟨hlaid, fun w hw => ?_⟩
  generalize flex.recorded (asked.map weigh) c = laid at hlaid hw ⊢
  have hweights : ∀ w, some w ∈ laid.map (·.1) → IsWeight w ∧ 0 < ofFloat w := by
    intro w hw
    rw [LaidFrom.weights hlaid, List.map_map] at hw
    obtain ⟨child, -, hkept⟩ := List.mem_map.mp hw
    exact isWeight_of_kept hkept
  have hmem {w : Float} : w ∈ laid.filterMap (·.1) ↔ some w ∈ laid.map (·.1) := by
    rw [List.mem_filterMap, List.mem_map]
  obtain ⟨htotal, -, hle⟩ :=
    foldl_addSingle (fun w hw => (hweights w (hmem.mp hw)).1) isWeight_zero
  exact Offered.share ⟨flex.space_nonneg c.constraints laid, (hweights w hw).2,
    (hweights w hw).1.narrow, htotal.narrow, hle w (hmem.mpr hw)⟩

/-- A weight that single precision has no room for: the child is drawn under no number. -/
theorem draw_shares_overflow :
    let flex : Flex := ⟨.horizontal, .spaceEnd, .start⟩
    let child : Draw Float Empty (Size Float) := Constraints.max <$> Canvas.limits
    let c : Canvas Float Empty := ⟨⟨⟨100, 50⟩, ⟨100, 50⟩⟩, .standard, Vec.zero, [], []⟩
    let laid := flex.recorded ([(some 1e39, child)].map weigh) c
    ∃ w, some w ∈ laid.map (·.1) ∧
      (flex.space c.constraints laid * w / totalWeight laid).isNaN := by
  intro flex child c laid
  obtain ⟨hlaid, hshare⟩ := draw_shares flex [(some 1e39, child)] c
  have hkept : keepWeight (some (nearestSingle 1e39)) = some (nearestSingle 1e39) := by
    decide +kernel
  have hweigh (x : Float) (h : keepWeight (some (nearestSingle x)) = some (nearestSingle x)) :
      some (nearestSingle x) ∈ ([(some x, child)].map weigh).map (·.1) :=
    List.mem_singleton.mpr h.symm
  have hmem : some (nearestSingle 1e39) ∈ laid.map (·.1) := by
    rw [hlaid.weights]
    exact hweigh 1e39 hkept
  have hinfinite : (nearestSingle 1e39).isInf := by
    decide +kernel
  exact ⟨_, hmem, (hshare _ hmem).isNaN_iff.mpr (.inl hinfinite)⟩

end Flex

end Trellis
