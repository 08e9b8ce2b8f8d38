import Trellis.Machine.Picture
import Trellis.Proofs.Machine.Respects
import Trellis.Proofs.World.Added

/-!
# What is added does not show

The figure of a tree is put together by looking only. It is made of the elements of the tree, the
copies they show and the bindings they follow, none of which change when something is added.

* `Machine.Reads` — a part looks at one state only, and another sees the same in another state.
* `Machine.figure_added` — the figure of a tree is the same after something was added.
-/

namespace Trellis.Machine

variable {κ ρ α β γ : Type}

/-! ## Looking -/

/-- A run of the part that ends has left the state alone, and the other part answers the same in the
other state, which it leaves alone, too. -/
def Reads (w v : World κ ρ) (m m' : Machine κ ρ α) : Prop :=
  ∀ ⦃a u⦄, m w = .ok (a, u) → u = w ∧ m' v = .ok (a, v)

namespace Reads

variable {w v : World κ ρ}

theorem pure (a : α) : Reads w v (pure a) (pure a) := by
  intro a' u run
  obtain ⟨rfl, rfl⟩ := pure_eq_ok.mp run
  exact ⟨rfl, rfl⟩

theorem stop (reason : Stop) (m' : Machine κ ρ α) : Reads w v (stop reason) m' :=
  fun _ _ run => absurd run stop_ne_ok

theorem bind {m m' : Machine κ ρ α} {f f' : α → Machine κ ρ β} (hm : Reads w v m m')
    (hf : ∀ a, Reads w v (f a) (f' a)) : Reads w v (m >>= f) (m' >>= f') := by
  intro b u run
  obtain ⟨a, t, hfirst, hrest⟩ := bind_eq_ok.mp run
  obtain ⟨rfl, hfirst'⟩ := hm hfirst
  obtain ⟨rfl, hrest'⟩ := hf a hrest
  exact ⟨rfl, bind_eq_ok.mpr ⟨a, v, hfirst', hrest'⟩⟩

/-- Both look at their states first. -/
theorem get_bind {f f' : World κ ρ → Machine κ ρ β} (h : Reads w v (f w) (f' v)) :
    Reads w v ((get : Machine κ ρ (World κ ρ)) >>= f) ((get : Machine κ ρ (World κ ρ)) >>= f') :=
  fun _ _ run => h run

theorem mapM_list {f f' : α → Machine κ ρ β} (as : List α)
    (hf : ∀ a ∈ as, Reads w v (f a) (f' a)) : Reads w v (as.mapM f) (as.mapM f') := by
  induction as with
  | nil => exact pure []
  | cons a rest ih =>
      rw [List.mapM_cons, List.mapM_cons]
      refine bind (hf a List.mem_cons_self) fun b => ?_
      exact bind (ih fun c hc => hf c (List.mem_cons_of_mem a hc)) fun bs => pure (b :: bs)

theorem mapM_option {f f' : α → Machine κ ρ β} (o : Option α)
    (hf : ∀ a ∈ o, Reads w v (f a) (f' a)) : Reads w v (o.mapM f) (o.mapM f') := by
  cases o with
  | none => exact pure none
  | some a => exact bind (hf a rfl) fun b => pure (some b)

end Reads

/-! ## The figure of a tree -/

variable {app : App κ ρ} {w v : World κ ρ} {e : ElementId} {element : Element κ}

/-- Bindings look the same to those that were there. -/
theorem look_added (h : w.Added v) (value : Option (Scalar ρ)) :
    v.look app element value = w.look app element value := by
  have hbinding (b : BindingId) :
      (v.binding? b).map (·.content) = (w.binding? b).map (·.content) := by
    obtain ⟨added, hb, -⟩ := h.binding b
    rw [hb, Option.map_map]
    rfl
  unfold World.look
  cases element.body with
  | list s =>
      refine congrArg _ (congrArg _ ?_)
      cases element.binding with
      | none => rfl
      | some b =>
          have hb := hbinding b
          cases hw : w.binding? b with
          | none =>
              rw [hw, Option.map_none, Option.map_eq_none_iff] at hb
              simp [hw, hb]
          | some old =>
              rw [hw, Option.map_some, Option.map_eq_some_iff] at hb
              obtain ⟨new, hnew, hcontent⟩ := hb
              simp [hw, hnew, hcontent]
  | _ => rfl

theorem valueOf_added (h : w.Added v) (grounded : w.Grounded) (found : w.element? e = some element) :
    Reads w v (valueOf e) (valueOf e) := by
  have hold : e.index < w.elements.size := (Array.getElem?_eq_some_iff.mp found).1
  have hfound : v.element? e = some element := (h.element e hold).trans found
  refine .get_bind ?_
  rw [found, hfound]
  cases hfollower : element.follower with
  | none =>
      simp only [Option.bind_some, hfollower]
      exact .pure none
  | some x =>
      have hx : v.copy? x = w.copy? x := by
        rw [World.copy?, World.copy?, h.watcher x (grounded.followers e element x found hfollower)]
      simp only [Option.bind_some, hfollower]
      refine .bind (.get_bind ?_) fun copy => .pure _
      rw [hx]
      exact .pure (w.copy? x)

/-- The figure of a tree of a given depth is the same after something was added, also when it is
looked for more deeply. -/
theorem figureWithin_added (h : w.Added v) (grounded : w.Grounded) {depth deeper : Nat}
    (deep : depth ≤ deeper) (old : e.index < w.elements.size) :
    Reads w v (figureWithin app depth e) (figureWithin app deeper e) := by
  induction depth generalizing deeper e with
  | zero => exact .stop _ _
  | succ depth ih =>
      obtain ⟨deeper, rfl⟩ : ∃ n, deeper = n + 1 := ⟨deeper - 1, by omega⟩
      have hdeep : depth ≤ deeper := by omega
      have hsame := h.element e old
      rw [figureWithin, figureWithin]
      refine .get_bind ?_
      cases hw : w.element? e with
      | none =>
          have := Array.getElem?_eq_none_iff.mp hw
          omega
      | some element =>
          rw [hw] at hsame
          -- the children are there, as those of anything that is there
          have hbelow (c : ElementId) (hc : c ∈ element.body.children) :
              Reads w v (figureWithin app depth c) (figureWithin app deeper c) := by
            refine ih hdeep (grounded.children e c ?_)
            rw [World.childrenOf, hw]
            exact hc
          dsimp only
          rw [hsame]
          dsimp only
          split
          · exact .stop _ _
          · have hleaf : Reads w v
                (do pure (Figure.leaf (w.look app element (← valueOf e))))
                (do pure (Figure.leaf (v.look app element (← valueOf e)))) := by
              refine .bind (valueOf_added h grounded hw) fun value => ?_
              rw [look_added h]
              exact .pure _
            cases hbody : element.body with
            | flex settings children =>
                refine .bind (.mapM_list children fun child hchild => ?_) fun _ => .pure _
                refine .bind (hbelow child.2 ?_) fun _ => .pure _
                rw [hbody]
                exact List.mem_map_of_mem hchild
            | stack limit children =>
                refine .bind (.mapM_list children fun child hchild => hbelow child.2 ?_)
                  fun _ => .pure _
                rw [hbody]
                exact List.mem_map_of_mem hchild
            | inset edges child | minSize minimum child =>
                refine .bind (.mapM_option child fun c hc => hbelow c ?_) fun _ => .pure _
                rw [hbody]
                exact Option.mem_toList.mpr hc
            | _ => exact hleaf

/-- The figure of a tree is the same after something was added. -/
theorem figure_added (h : w.Added v) (grounded : w.Grounded) (old : e.index < w.elements.size) :
    Reads w v (figure app e) (figure app e) :=
  .get_bind (figureWithin_added h grounded (Nat.succ_le_succ h.elements) old)

end Trellis.Machine
