import Trellis.Machine.Events
import Trellis.Proofs.Notification.Told
import Trellis.Proofs.Widget.Locked

/-!
# Item handlers

A list calls its item handler for every item that it has when it begins to handle the events. The
handler may change the list meanwhile, and the calls that are left are made all the same.

* `World.items` — the items of a binding.
* `Machine.forM_range_eq_ok` — a loop over indices, told by the states between its rounds.
* `Machine.handleEvents_items` — which index the handler is called with, and when there is no item
  of that index.
-/

namespace Trellis

open Machine

variable {κ ρ : Type} {w w' : World κ ρ} {b : BindingId}

/-- The items of a binding; one that holds a single value has none. -/
def World.items (w : World κ ρ) (b : BindingId) : List (Scalar ρ) :=
  ((w.binding? b).bind (·.content.items?)).getD []

theorem World.items_congr
    (h : (w'.binding? b).map (·.content) = (w.binding? b).map (·.content)) :
    w'.items b = w.items b := by
  have hitems (w : World κ ρ) :
      w.items b = (((w.binding? b).map (·.content)).bind (·.items?)).getD [] := by
    rw [items, Option.bind_map]
    rfl
  rw [hitems, hitems, h]

/-! ## Loops over indices -/

namespace Machine

variable {part : Nat → Machine κ ρ Unit}

/-- Parts that run one after another. The induction is on the list of what they are run for. -/
theorem exists_states {as : List Nat} (run : as.forM part w = .ok ((), w')) :
    ∃ states : Nat → World κ ρ, states 0 = w ∧ states as.length = w' ∧
      ∀ i (h : i < as.length), part as[i] (states i) = .ok ((), states (i + 1)) := by
  induction as generalizing w with
  | nil =>
      obtain ⟨-, rfl⟩ := pure_eq_ok.mp run
      exact ⟨fun _ => w, rfl, rfl, nofun⟩
  | cons a as ih =>
      obtain ⟨_, v, hfirst, hrest⟩ := bind_eq_ok.mp run
      obtain ⟨states, rfl, rfl, hstates⟩ := ih hrest
      refine ⟨fun i => i.casesOn w states, rfl, rfl, fun i h => ?_⟩
      cases i with
      | zero => exact hfirst
      | succ i => exact hstates i (Nat.lt_of_succ_lt_succ h)

/-- A loop over indices, told by the states between its rounds. -/
theorem forM_range_eq_ok {n : Nat} (run : (List.range n).forM part w = .ok ((), w')) :
    ∃ states : Nat → World κ ρ, states 0 = w ∧ states n = w' ∧
      ∀ i < n, part i (states i) = .ok ((), states (i + 1)) := by
  obtain ⟨states, hstart, hend, hstates⟩ := exists_states run
  rw [List.length_range] at hend
  refine ⟨states, hstart, hend, fun i h => ?_⟩
  have hpart := hstates i (by rwa [List.length_range])
  rwa [List.getElem_range] at hpart

end Machine

/-- A sequence that falls below its start falls somewhere. -/
theorem exists_fall {f : Nat → Nat} {i : Nat} (h : f i < f 0) : ∃ j < i, f (j + 1) < f j := by
  induction i with
  | zero => exact absurd h (Nat.lt_irrefl _)
  | succ i ih =>
      by_cases hlast : f (i + 1) < f i
      · exact ⟨i, Nat.lt_succ_self i, hlast⟩
      · obtain ⟨j, hj, hfall⟩ := ih (by omega)
        exact ⟨j, Nat.lt_succ_of_lt hj, hfall⟩

/-! ## The calls of a list -/

variable [Ordered ρ] {app : App κ ρ} {fuel : Nat} {ctx : EventContext} {e : ElementId}
  {element : Element κ} {list : ItemList κ} {code : κ}

/-- The items of a binding are as they were, unless a change of it has been recorded. -/
def World.Keeps (b : BindingId) (w w' : World κ ρ) : Prop :=
  ∃ news, w'.history = w.history ++ news ∧ (.changed b ∉ news → w'.items b = w.items b)

omit [Ordered ρ] in
theorem World.Keeps.trans {v : World κ ρ} (h : w.Keeps b v) (h' : v.Keeps b w') : w.Keeps b w' := by
  obtain ⟨news, hnews, hitems⟩ := h
  obtain ⟨later, hlater, hitems'⟩ := h'
  refine ⟨news ++ later, by rw [hlater, hnews, List.append_assoc], fun hno => ?_⟩
  rw [List.mem_append, not_or] at hno
  exact (hitems' hno.2).trans (hitems hno.1)

theorem Program.run_keeps {program : Program κ ρ Unit} (b : BindingId)
    (run : program.run (.ofFuel app fuel) w = .ok ((), w')) : w.Keeps b w' := by
  have hreaches := (Reentry.ofFuel_faithful app fuel).run run []
  obtain ⟨news, hnews, hcontent⟩ := hreaches.grows
  exact ⟨news, hnews, fun hno => World.items_congr (hcontent b hno)⟩

/-- States between the calls that a list makes of its item handler: call `i` starts in state `i`. While
the binding is as it was, there is an item of the index. If there is none, a call before that one has
changed the binding and left it with fewer items. -/
structure ItemCalls (app : App κ ρ) (fuel : Nat) (ctx : EventContext) (code : κ) (b : BindingId)
    (w : World κ ρ) (states : Nat → World κ ρ) : Prop where
  called : ∀ i < (w.items b).length,
    (app.itemHandler code ctx i b).run (.ofFuel app fuel) (states i) = .ok ((), states (i + 1))
  valid : ∀ i < (w.items b).length, ∃ news, (states i).history = w.history ++ news ∧
    (.changed b ∉ news → (states i).items b = w.items b ∧ i < ((states i).items b).length)
  shrunk : ∀ i < (w.items b).length, ((states i).items b).length ≤ i → ∃ j < i,
    ((states (j + 1)).items b).length < ((states j).items b).length ∧
      ∃ news, (states (j + 1)).history = (states j).history ++ news ∧ .changed b ∈ news

theorem ItemCalls.of_called {states : Nat → World κ ρ} (start : states 0 = w)
    (called : ∀ i < (w.items b).length,
      (app.itemHandler code ctx i b).run (.ofFuel app fuel) (states i) = .ok ((), states (i + 1))) :
    ItemCalls app fuel ctx code b w states := by
  subst start
  have hkeeps (i : Nat) (hi : i ≤ ((states 0).items b).length) :
      (states 0).Keeps b (states i) := by
    induction i with
    | zero => exact ⟨[], (List.append_nil _).symm, fun _ => rfl⟩
    | succ i ih => exact (ih (Nat.le_of_lt hi)).trans (Program.run_keeps b (called i hi))
  refine ⟨called, fun i hi => ?_, fun i hi hshort => ?_⟩
  · obtain ⟨news, hnews, hsame⟩ := hkeeps i (Nat.le_of_lt hi)
    refine ⟨news, hnews, fun hno => ⟨hsame hno, ?_⟩⟩
    rw [hsame hno]
    exact hi
  · obtain ⟨j, hj, hfall⟩ := exists_fall (f := fun i => ((states i).items b).length)
      (Nat.lt_of_le_of_lt hshort hi)
    obtain ⟨news, hnews, hsame⟩ := Program.run_keeps b (called j (Nat.lt_trans hj hi))
    refine ⟨j, hj, hfall, news, hnews, ?_⟩
    -- A call that changes nothing leaves as many items as there were.
    refine Decidable.byContradiction fun hno => ?_
    rw [hsame hno] at hfall
    exact Nat.lt_irrefl _ hfall

namespace Machine

/-- A list that handles the events calls its item handler once for every item that it has at the
start, with the indices in order. -/
theorem handleEvents_items (found : w.element? e = some element) (body : element.body = .list list)
    (binding : element.binding = some b) (handler : list.handler = some code)
    (run : handleEvents app (.ofFuel app fuel) ctx e w = .ok ((), w')) :
    ∃ states : Nat → World κ ρ, states 0 = w.modifyElement e ({ · with locked := true }) ∧
      w' = (states (w.items b).length).modifyElement e ({ · with locked := false }) ∧
      ItemCalls app fuel ctx code b (w.modifyElement e ({ · with locked := true })) states := by
  obtain ⟨-, u, hpart, rfl⟩ := locking_eq_ok found run
  obtain ⟨_, _, hget, hpart⟩ := bind_eq_ok.mp hpart
  obtain ⟨rfl, rfl⟩ := get_eq_ok.mp hget
  rw [World.element?_modifyElement, if_pos rfl, found, Option.map_some] at hpart
  simp only [body, handleLeaf, handleItems, binding, handler] at hpart
  obtain ⟨_, _, hget, hpart⟩ := bind_eq_ok.mp hpart
  obtain ⟨rfl, rfl⟩ := get_eq_ok.mp hget
  obtain ⟨states, hstart, rfl, hcalls⟩ := forM_range_eq_ok hpart
  exact ⟨states, hstart, rfl, .of_called hstart hcalls⟩

end Machine

/-! ## A list that is shortened while it is gone through -/

/-- An application whose item handler leaves one item. -/
def App.trimming : App Unit Empty :=
  { App.idle with
    itemHandler := fun _ _ _ b => .set b (.many .text [.text "a"]) fun _ => .done () }

/-- A list of three items. -/
def World.listing : World Unit Empty where
  bindings := #[{
    name := "items", content := .many .text [.text "a", .text "b", .text "c"], watchers := [⟨0⟩] }]
  watchers := #[{ watcher := .invalidator none, owner := some ⟨0⟩ }]
  elements := #[{
    id := "list", window := none, follower := some ⟨0⟩, binding := some ⟨0⟩
    body := .list { axis := .vertical, handler := some () } }]
  pinned := [⟨0⟩]

/-- The first call leaves one item, and the handler is called for the second and third all the
same. -/
theorem Machine.handleEvents_items_trimmed :
    (World.listing.items ⟨0⟩).length = 3 ∧ ∃ states : Nat → World Unit Empty,
      ItemCalls App.trimming 3 {} () ⟨0⟩
        (World.listing.modifyElement ⟨0⟩ ({ · with locked := true })) states ∧
      ((states 1).items ⟨0⟩).length = 1 := by
  refine ⟨rfl, ?_⟩
  obtain ⟨⟨⟩, w', hrun⟩ := exists_eq_ok (w := World.listing)
    (m := handleEvents App.trimming (.ofFuel App.trimming 3) {} ⟨0⟩) (by decide +kernel)
  obtain ⟨states, hstart, -, hcalls⟩ := handleEvents_items rfl rfl rfl rfl hrun
  refine ⟨states, hcalls, ?_⟩
  have hfirst := hcalls.called 0 (by decide)
  rw [hstart] at hfirst
  have hitems : (((App.trimming.itemHandler () {} 0 ⟨0⟩).run (.ofFuel App.trimming 3)
      (World.listing.modifyElement ⟨0⟩ ({ · with locked := true }))).toOption.map
        fun p => (p.2.items ⟨0⟩).length) = some 1 := by
    decide +kernel
  rw [hfirst] at hitems
  exact Option.some_inj.mp hitems

end Trellis
