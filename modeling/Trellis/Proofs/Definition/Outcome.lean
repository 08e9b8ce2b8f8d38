import Trellis.Proofs.Definition.Building

/-!
# When a document builds

A document builds if and only if all its nodes are sound. Otherwise the flaw that is reported is the
first in the order of building.

* `Definition.build_yields` — what building a document ends with.
* `Definition.build_outcome` — when that is a tree, and which flaw it is otherwise.
-/

namespace Trellis.Definition

variable {κ ρ : Type}

/-- Building a document ends with the first of its flaws, or with its tree. -/
theorem build_yields (ctx : BuildContext κ ρ) (root : Node) (w : World κ ρ) :
    Build.Yields (build ctx root) w (fun d w' => ∃ place,
      Build.Grown ctx [] root place w (d.root, d.index) w') (flaws ctx [] root) := by
  rw [build, ← List.append_nil (flaws ctx [] root)]
  refine (Build.node_yields [] [] w).bind fun made w' hmade => ?_
  exact ⟨_, w', rfl, hmade⟩

/-- Building a document always ends. It gives a tree if and only if every node that is reached is
sound. Otherwise it reports the first of all flaws of such nodes, with a place of the document. -/
theorem build_outcome (ctx : BuildContext κ ρ) (root : Node) (w : World κ ρ) :
    ∃ outcome w', build ctx root w = .ok (outcome, w') ∧
      ((∃ d, outcome = .ok d) ↔ ∀ p n, root.Reaches p n → n.Sound ctx) ∧
      (∀ e, outcome = .error e →
        (∃ p n, root.Reaches p n ∧ Flaw ctx p n e) ∧
        (∃ place d, e.path? = some place ∧ (Datum.mapping root).resolve? place = some d) ∧
        (flaws ctx [] root).head? = some e) ∧
      ∀ e, e ∈ flaws ctx [] root ↔ ∃ p n, root.Reaches p n ∧ Flaw ctx p n e := by
  have hmem (e : BuildError) :
      e ∈ flaws ctx [] root ↔ ∃ p n, root.Reaches p n ∧ Flaw ctx p n e := mem_flaws
  have hrun := build_yields ctx root w
  cases hflaws : flaws ctx [] root with
  | nil =>
      rw [hflaws] at hrun hmem
      -- no flaw, so that all nodes are sound
      obtain ⟨d, w', hrun, -⟩ := hrun
      refine ⟨.ok d, w', hrun, ?_, fun e he => ?_, hmem⟩
      · exact ⟨fun _ => flaws_eq_nil.mp hflaws, fun _ => ⟨d, rfl⟩⟩
      · cases he
  | cons first later =>
      rw [hflaws] at hrun hmem
      -- the run ends with the first flaw, which is one of a node that is reached
      obtain ⟨w', hrun⟩ := hrun
      refine ⟨.error first, w', hrun, ⟨?_, fun hsound => ?_⟩, fun e he => ?_, hmem⟩
      · rintro ⟨d, hd⟩
        cases hd
      · rw [flaws_eq_nil.mpr hsound] at hflaws
        cases hflaws
      · cases he
        obtain ⟨p, n, hreach, hflaw⟩ := (hmem first).mp List.mem_cons_self
        exact ⟨⟨p, n, hreach, hflaw⟩, hflaw.resolves hreach, rfl⟩

end Trellis.Definition
