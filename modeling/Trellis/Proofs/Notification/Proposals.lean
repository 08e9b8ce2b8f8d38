import Mathlib.Data.List.Count
import Mathlib.Data.List.Nodup
import Trellis.Proofs.Notification.Passive
import Trellis.Script.Value

/-!
# Setting a binding again and again

A binding compares a content that it is set to with the one it holds, which need not be the one that
it was set to last. As long as none of those who listen calls back, each of them is called as often
as the binding took on a content.

* `Content.Differs` — when a content counts as another one.
* `World.Attended.setContent` — what one content that is proposed comes to.
* `Machine.mapM_setContent_took` — what any number of them come to, one after another.
-/

namespace Trellis

variable {κ ρ : Type} {start w w' : World κ ρ} {b : BindingId}

/-! ## When contents differ -/

section Differs

variable [Ordered ρ]

/-- Records differ if one of them comes before the other, other values of one kind if they are not
equal. -/
def Scalar.Differs : Scalar ρ → Scalar ρ → Prop
  | .int m, .int n => m ≠ n
  | .text s, .text t => s ≠ t
  | .flag p, .flag q => p ≠ q
  | .single x, .single y | .double x, .double y => ¬ x == y
  | .record r, .record s => Ordered.less r s = true ∨ Ordered.less s r = true
  | _, _ => True

/-- Sequences differ if their lengths do or two of their values at the same place. -/
def Content.Differs : Content ρ → Content ρ → Prop
  | .one x, .one y => x.Differs y
  | .many _ xs, .many _ ys =>
    xs.length ≠ ys.length ∨
      ∃ (i : Nat) (x y : Scalar ρ), xs[i]? = some x ∧ ys[i]? = some y ∧ x.Differs y
  | _, _ => True

theorem Scalar.differs_iff (x y : Scalar ρ) : x.differs y = true ↔ x.Differs y := by
  cases x <;> cases y <;> simp [differs, Differs, bne]

theorem Content.differs_iff (x y : Content ρ) : x.differs y = true ↔ x.Differs y := by
  cases x with
  | one x =>
      cases y with
      | one y => exact Scalar.differs_iff x y
      | many _ ys => exact ⟨fun _ => trivial, fun _ => rfl⟩
  | many _ xs =>
      cases y with
      | one y => exact ⟨fun _ => trivial, fun _ => rfl⟩
      | many _ ys =>
          rw [differs, Bool.or_eq_true, bne_iff_ne, List.any_eq_true]
          refine or_congr Iff.rfl ⟨?_, ?_⟩
          · rintro ⟨⟨x, y⟩, hmem, hdiffers⟩
            obtain ⟨i, hi⟩ := List.mem_iff_getElem?.mp hmem
            obtain ⟨hx, hy⟩ := List.getElem?_zip_eq_some.mp hi
            exact ⟨i, x, y, hx, hy, (Scalar.differs_iff x y).mp hdiffers⟩
          · rintro ⟨i, x, y, hx, hy, hdiffers⟩
            have hi : (xs.zip ys)[i]? = some (x, y) := List.getElem?_zip_eq_some.mpr ⟨hx, hy⟩
            exact ⟨(x, y), List.mem_of_getElem? hi, (Scalar.differs_iff x y).mpr hdiffers⟩

instance (x y : Content ρ) : Decidable (x.Differs y) := decidable_of_iff _ (x.differs_iff y)

/-- The content that is held after another one has been proposed. -/
def Content.taking (held proposed : Content ρ) : Content ρ :=
  if held.Differs proposed then proposed else held

theorem Content.shape_taking {held proposed : Content ρ} (shape : proposed.shape = held.shape) :
    (held.taking proposed).shape = held.shape := by
  rw [taking]
  split
  · exact shape
  · rfl

end Differs

open Machine

variable [Ordered ρ] {app : App κ ρ} {fuel : Nat}

/-! ## A round -/

namespace World

/-- The watchers were called once each, in order. Otherwise the binding was left alone. -/
structure CalledEach (b : BindingId) (watchers : List WatcherId) (w w' : World κ ρ) : Prop where
  binding : w'.binding? b = w.binding? b
  held : ∀ x, w'.watcherHeld x = w.watcherHeld x
  callbacks : ∀ x code, w'.CallsBack x code → w.CallsBack x code
  awaiting : w.awaiting = watchers ++ w'.awaiting
  calls : w.Calls w' (watchers.map (·, b))
  secluded : w.Secluded b w'

end World

namespace Machine

/-- Watchers that do not call back, called one after another. The induction is on the watchers. -/
theorem callEach_of_passive {watchers rest : List WatcherId} (secluded : start.Secluded b w)
    (awaiting : w.awaiting = watchers ++ rest)
    (passive : ∀ x ∈ watchers, ∀ code, w.CallsBack x code →
      (app.watcher code b).Passive app start b fuel) :
    ∃ w', callEach app (.ofFuel app fuel) b watchers w = .ok ((), w') ∧
      w.CalledEach b watchers w' := by
  induction watchers generalizing w with
  | nil =>
      exact ⟨w, rfl, rfl, fun _ => rfl, fun _ _ => id, rfl, ⟨[], by simp, rfl⟩,
        refl_of (World.Secluded b) w⟩
  | cons x watchers ih =>
      obtain ⟨program, v, hcall, hbegun⟩ := call_leftAlone app x b w
      have hpassive : program.Passive app start b fuel := by
        rcases call_program hcall with rfl | ⟨code, hcode, rfl⟩
        · exact .done
        · exact passive x List.mem_cons_self code hcode
      have hrecorded : w.Secluded b (w.record (.called x b)) := World.Discreet.recorded w _
      have hstart : start.Secluded b v :=
        trans_of (World.Secluded b) secluded (trans_of (World.Secluded b) hrecorded hbegun.secluded)
      obtain ⟨_, u, hrun, hran⟩ := hpassive.leaves v hstart
      have hleft : (w.record (.called x b)).LeftAlone b u :=
        trans_of (World.LeftAlone b) hbegun hran
      have hsecluded : w.Secluded b (u.released x b) :=
        trans_of (World.Secluded b) hrecorded
          (trans_of (World.Secluded b) hleft.secluded (.released u x b))
      have hawaiting : (u.released x b).awaiting = watchers ++ rest := by
        show u.awaiting.erase x = _
        rw [hleft.awaiting]
        show w.awaiting.erase x = _
        rw [awaiting, List.cons_append, List.erase_cons_head]
      obtain ⟨w', hlater, hcalled⟩ := ih (trans_of (World.Secluded b) secluded hsecluded) hawaiting
        fun y hy code hcode => passive y (List.mem_cons_of_mem x hy) code (hleft.callbacks y code hcode)
      refine ⟨w', ?_, ?_⟩
      · exact bind_eq_ok.mpr ⟨program, v, hcall, bind_eq_ok.mpr ⟨(), u, hrun,
          bind_eq_ok.mpr ⟨(), _, rfl, hlater⟩⟩⟩
      · have hreleased : w.Calls (u.released x b) ([(x, b)] ++ [] ++ []) :=
          .trans (.trans ⟨_, World.history_record w _, rfl⟩ hleft.calls)
            ⟨_, World.history_released u x b, rfl⟩
        exact
          { binding := hcalled.binding.trans hleft.binding
            held := fun y => (hcalled.held y).trans
              (((u.sameHolders_released x b).watcher y).trans ((hleft.held y).trans
                ((w.sameHolders_record _).watcher y)))
            callbacks := fun y code h => hleft.callbacks y code (hcalled.callbacks y code h)
            awaiting := by
              rw [awaiting, List.cons_append, ← hawaiting, hcalled.awaiting]
              rfl
            calls := hreleased.trans hcalled.calls
            secluded := trans_of (World.Secluded b) hsecluded hcalled.secluded }

/-- A round among watchers that do not call back. -/
theorem round_of_passive (secluded : start.Secluded b w)
    (passive : ∀ x ∈ w.listeners b, ∀ code, w.CallsBack x code →
      (app.watcher code b).Passive app start b fuel) :
    ∃ w', round app (.ofFuel app fuel) b w = .ok ((), w') ∧
      World.CalledEach b (w.listeners b) (w.inRound b) w' := by
  have hbegun : start.Secluded b (w.inRound b) :=
    trans_of (World.Secluded b) secluded (.inRound w b)
  obtain ⟨w', hrun, hcalled⟩ := callEach_of_passive (w := w.inRound b) hbegun rfl passive
  exact ⟨w', bind_eq_ok.mpr ⟨w.listeners b, w.inRound b, rfl, hrun⟩, hcalled⟩

end Machine

/-! ## A content that is proposed -/

namespace World

/-- A binding that holds a content. Nobody is being told of it, and none of those who listen calls
back, whose notes are in bindings that nobody watched at the start. -/
structure Attended (app : App κ ρ) (w start : World κ ρ) (b : BindingId) (fuel : Nat)
    (held : Content ρ) : Prop where
  found : ∃ binding, w.binding? b = some binding ∧ binding.content = held ∧
    binding.notifying = false ∧ binding.watchers.Nodup
  passive : ∀ x ∈ w.listeners b, ∀ code, w.CallsBack x code →
    (app.watcher code b).Passive app start b fuel
  secluded : start.Secluded b w

/-- What a binding that holds `held` makes of a content that is proposed, and what it answers. -/
structure Took (b : BindingId) (held proposed : Content ρ) (changed : Bool) (w w' : World κ ρ) :
    Prop where
  /-- It answers whether the content differs from the one held. -/
  answer : changed = true ↔ held.Differs proposed
  before : w.content? b = some held
  /-- A content that differs is held from then on, and all who listen are called, each once. -/
  taken : changed = true → w'.content? b = some proposed ∧ (w.listeners b).Nodup ∧
    w.Calls w' ((w.listeners b).map (·, b))
  /-- With any other one nothing happens. -/
  left : changed = false → w' = w
  /-- The same watchers listen afterwards. -/
  listeners : w'.listeners b = w.listeners b

omit [Ordered ρ] in
/-- After a round the same watchers listen. -/
theorem CalledEach.listeners (h : CalledEach b (w.listeners b) (w.inRound b) w') :
    w'.listeners b = w.listeners b := by
  have hawaiting : w'.awaiting = w.awaiting := (List.append_cancel_left h.awaiting).symm
  have halive : w'.watcherAlive = (w.inRound b).watcherAlive := by
    rw [watcherAlive_inRound]
    funext x
    rw [watcherAlive, watcherAlive, hawaiting, h.held, (sameHolders_inRound w b).watcher]
  rw [listeners_congr (by rw [h.binding]) halive, listeners_inRound]

namespace Attended

variable {held proposed : Content ρ}

/-- A content that differs: it is taken, and everybody is called in one round. -/
theorem setContent_of_differs (h : w.Attended app start b fuel held) (shape : proposed.shape = held.shape)
    (differs : held.Differs proposed) :
    ∃ w', Machine.setContent (.ofFuel app (fuel + 1)) b proposed w = .ok (true, w') ∧
      Took b held proposed true w w' ∧ w'.Attended app start b fuel proposed := by
  obtain ⟨binding, hfound, rfl, hidle, hnodup⟩ := h.found
  let v := w.assigned b proposed
  have hlisteners : v.listeners b = w.listeners b := listeners_assigned w b proposed
  have hpassive : ∀ x ∈ v.listeners b, ∀ code, v.CallsBack x code →
      (app.watcher code b).Passive app start b fuel := by
    rw [hlisteners]
    exact h.passive
  have hsecluded : start.Secluded b v :=
    trans_of (Secluded b) h.secluded (.assigned w b proposed)
  obtain ⟨u, hround, hcalled⟩ := round_of_passive hsecluded hpassive
  -- What the round leaves of the binding.
  have hu : u.binding? b = some { binding with
      content := proposed, notifying := true, pending := false,
      watchers := binding.watchers.filter v.watcherAlive } := by
    rw [hcalled.binding, binding?_inRound_self]
    simp only [v, assigned, binding?_record, binding?_modifyBinding_self, hfound]
    rfl
  have hdone : (u.flags b).2 = false := by rw [flags_of_binding? hu]
  have hpending : (v.flags b).2 = true := by rw [flags_assigned hfound]
  have hdrain : Machine.drain app (.ofFuel app fuel) (fuel + 1) b v = .ok ((), u) :=
    drain_next hpending hround (drain_done hdone)
  have hsettled : (u.settled b).listeners b = w.listeners b := by
    rw [listeners_settled, hcalled.listeners, hlisteners]
  have hcontent : (u.settled b).binding? b = some { binding with
      content := proposed, notifying := false, pending := false,
      watchers := binding.watchers.filter v.watcherAlive } := by
    rw [binding?_settled_self, hu]
    rfl
  have hwatchers : (w.listeners b).Nodup := by
    rw [listeners, hfound]
    exact hnodup.filter _
  refine ⟨u.settled b, setContent_of_drain hfound shape.symm ((Content.differs_iff _ _).mpr differs)
    hidle hdrain, ?_, ?_⟩
  · refine ⟨⟨fun _ => differs, fun _ => rfl⟩, ?_, fun _ => ⟨?_, hwatchers, ?_⟩,
      fun hsame => absurd hsame (by decide), hsettled⟩
    · rw [content?, hfound]
      rfl
    · rw [content?, hcontent]
      rfl
    · have hbegun : w.Calls (v.inRound b) ([] ++ []) :=
        .trans ⟨_, history_assigned w b proposed, rfl⟩ ⟨_, history_inRound v b, rfl⟩
      have hended : u.Calls (u.settled b) [] := ⟨_, history_settled u b, rfl⟩
      have hcalls := (hbegun.trans hcalled.calls).trans hended
      rwa [hlisteners, List.append_nil, List.append_nil, List.nil_append] at hcalls
  · have hbegun : start.Secluded b (v.inRound b) :=
      trans_of (Secluded b) hsecluded (.inRound v b)
    refine ⟨⟨_, hcontent, rfl, rfl, hnodup.filter _⟩, ?_, trans_of (Secluded b) hbegun
      (trans_of (Secluded b) hcalled.secluded (.settled u b))⟩
    rw [hsettled]
    exact fun x hx code hcode => h.passive x hx code (hcalled.callbacks x code hcode)

/-- Any content of the binding's shape. -/
theorem setContent (h : w.Attended app start b fuel held) (shape : proposed.shape = held.shape) :
    ∃ changed w', Machine.setContent (.ofFuel app (fuel + 1)) b proposed w = .ok (changed, w') ∧
      Took b held proposed changed w w' ∧ w'.Attended app start b fuel (held.taking proposed) := by
  by_cases hdiffers : held.Differs proposed
  · obtain ⟨w', hrun, htook, hafter⟩ := h.setContent_of_differs shape hdiffers
    rw [← show held.taking proposed = proposed from if_pos hdiffers] at hafter
    exact ⟨true, w', hrun, htook, hafter⟩
  · obtain ⟨binding, hfound, rfl, -, -⟩ := h.found
    refine ⟨false, w, setContent_of_same fun other hother hnew => ?_, ?_, ?_⟩
    · cases hfound.symm.trans hother
      exact hdiffers ((Content.differs_iff _ _).mp hnew.2)
    · refine ⟨⟨nofun, fun hnew => absurd hnew hdiffers⟩, ?_, nofun, fun _ => rfl, rfl⟩
      rw [content?, hfound]
      rfl
    · rwa [show binding.content.taking proposed = binding.content from if_neg hdiffers]

end Attended

end World

/-! ## Contents that are proposed one after another -/

namespace World

/-- Everybody who listens is called once if the answer is yes, and not at all otherwise. -/
theorem Took.count_called {held proposed : Content ρ} {changed : Bool}
    (h : Took b held proposed changed w w') :
    ∃ news, w'.history = w.history ++ news ∧
      ∀ x ∈ w.listeners b, news.count (.called x b) = [changed].count true := by
  cases changed with
  | false =>
      obtain rfl := h.left rfl
      exact ⟨[], (List.append_nil _).symm, fun _ _ => rfl⟩
  | true =>
      obtain ⟨-, hnodup, news, hnews, hcalls⟩ := h.taken rfl
      refine ⟨news, hnews, fun x hx => ?_⟩
      have hinjective : Function.Injective fun y : WatcherId => (y, b) :=
        fun _ _ heq => (Prod.mk.inj heq).1
      rw [Entry.count_called, hcalls, List.count_map_of_injective _ _ hinjective,
        List.count_eq_one_of_mem hnodup hx]
      rfl

/-- What proposals one after another come to. The induction is on the proposals. -/
theorem Attended.mapM {held : Content ρ} {proposals : List (Content ρ)}
    (h : w.Attended app start b fuel held)
    (shapes : ∀ proposed ∈ proposals, proposed.shape = held.shape) :
    ∃ answers w',
      proposals.mapM (Machine.setContent (.ofFuel app (fuel + 1)) b) w = .ok (answers, w') ∧
      (∀ before proposed after, proposals = before ++ proposed :: after →
        ∃ first changed rest u u', answers = first ++ changed :: rest ∧
          before.mapM (Machine.setContent (.ofFuel app (fuel + 1)) b) w = .ok (first, u) ∧
          Machine.setContent (.ofFuel app (fuel + 1)) b proposed u = .ok (changed, u') ∧
          Took b (before.foldl Content.taking held) proposed changed u u' ∧
          u.listeners b = w.listeners b) ∧
      ∃ news, w'.history = w.history ++ news ∧
        ∀ x ∈ w.listeners b, news.count (.called x b) = answers.count true := by
  induction proposals generalizing w held with
  | nil => exact ⟨[], w, rfl, by simp, [], (List.append_nil _).symm, fun _ _ => rfl⟩
  | cons proposed rest ih =>
      have hshape : proposed.shape = held.shape := shapes proposed List.mem_cons_self
      obtain ⟨changed, u, hfirst, htook, hafter⟩ := h.setContent hshape
      obtain ⟨answers, w', hlater, hsplits, later, hnews', hcount'⟩ := ih hafter fun next hnext =>
        (shapes next (List.mem_cons_of_mem _ hnext)).trans (Content.shape_taking hshape).symm
      have hrun {proposals : List (Content ρ)} {answers : List Bool} {v : World κ ρ}
          (hrest : proposals.mapM (Machine.setContent (.ofFuel app (fuel + 1)) b) u =
            .ok (answers, v)) :
          (proposed :: proposals).mapM (Machine.setContent (.ofFuel app (fuel + 1)) b) w =
            .ok (changed :: answers, v) := by
        rw [List.mapM_cons]
        exact bind_eq_ok.mpr ⟨changed, u, hfirst, bind_eq_ok.mpr ⟨answers, v, hrest, rfl⟩⟩
      obtain ⟨news, hnews, hcount⟩ := htook.count_called
      refine ⟨changed :: answers, w', hrun hlater, ?_, news ++ later, ?_, ?_⟩
      · intro before next after hsplit
        cases before with
        | nil =>
            obtain ⟨rfl, rfl⟩ := List.cons.inj hsplit
            exact ⟨[], changed, answers, w, u, rfl, rfl, hfirst, htook, rfl⟩
        | cons _ before =>
            obtain ⟨rfl, rfl⟩ := List.cons.inj hsplit
            obtain ⟨first, changed', last, v, v', rfl, hbefore, hset, htook', hlisteners⟩ :=
              hsplits before next after rfl
            exact ⟨changed :: first, changed', last, v, v', rfl, hrun hbefore, hset, htook',
              hlisteners.trans htook.listeners⟩
      · rw [hnews', hnews, List.append_assoc]
      · intro x hx
        rw [List.count_append, hcount x hx, hcount' x (htook.listeners.symm ▸ hx),
          ← List.count_append]
        rfl

end World

/-- Contents proposed to a binding one after another. Each is compared with the content held by
then, which is what the proposals before it have left, and everybody who listens is called as often
as the binding took on a content. -/
theorem Machine.mapM_setContent_took {binding : Binding ρ} (fuel : Nat)
    (proposals : List (Content ρ)) (quiescent : w.Quiescent) (found : w.binding? b = some binding)
    (shapes : ∀ proposed ∈ proposals, proposed.shape = binding.content.shape)
    (passive : ∀ x ∈ w.listeners b, ∀ code, w.CallsBack x code →
      (app.watcher code b).Passive app w b fuel) :
    ∃ answers w', proposals.mapM (setContent (.ofFuel app (fuel + 1)) b) w = .ok (answers, w') ∧
      (∀ before proposed after, proposals = before ++ proposed :: after →
        ∃ first changed rest u u', answers = first ++ changed :: rest ∧
          before.mapM (setContent (.ofFuel app (fuel + 1)) b) w = .ok (first, u) ∧
          setContent (.ofFuel app (fuel + 1)) b proposed u = .ok (changed, u') ∧
          World.Took b (before.foldl Content.taking binding.content) proposed changed u u' ∧
          u.listeners b = w.listeners b) ∧
      ∃ news, w'.history = w.history ++ news ∧
        ∀ x ∈ w.listeners b, news.count (.called x b) = answers.count true := by
  obtain ⟨hidle, -, hnodup⟩ := quiescent b binding found
  have hattended : w.Attended app w b fuel binding.content :=
    ⟨⟨binding, found, rfl, hidle, hnodup⟩, passive, refl_of (World.Secluded b) w⟩
  exact hattended.mapM shapes

/-! ## Spans that overlap -/

/-- An application that writes down that a binding changed, and counts the changes in a binding of its
own. -/
def App.reporting : App Unit Interval :=
  { App.idle with
    watcher := fun _ _ => .note "changed" (.read ⟨2⟩ fun
      | some (_, .one (.int n)) => .set ⟨2⟩ (.one (.int (n + 1))) fun _ => .done ()
      | _ => .done ()) }

/-- A span and a list of spans, with a callback, a mirror, and a callback that the application has
let go of. The last binding is for the count. -/
def World.spans : World Unit Interval where
  bindings := #[
    { name := "span", content := .one (.record ⟨0, 2, "a"⟩), watchers := [⟨0⟩, ⟨1⟩, ⟨2⟩] },
    { name := "spans", content := .many .record [.record ⟨0, 2, "a"⟩], watchers := [⟨0⟩] },
    { name := "times", content := .one (.int 0) }]
  watchers := #[{ watcher := .callback () }, { watcher := .mirror { value := .record default } },
    { watcher := .callback (), dropped := true }]

theorem World.spans_quiescent : World.spans.Quiescent := by
  rintro ⟨i⟩ binding hb
  match i, hb with
  | 0, hb | 1, hb | 2, hb =>
      cases hb
      exact ⟨rfl, rfl, by decide⟩

theorem App.reporting_passive (code : Unit) {b : BindingId} (other : ⟨2⟩ ≠ b) :
    Program.Passive App.reporting World.spans b 1 (App.reporting.watcher code b) := by
  have hown : World.spans.Unheard ⟨2⟩ := by
    rintro x ⟨binding, hbinding, hx⟩
    cases hbinding
    cases hx
  refine .note (.read fun answer => ?_)
  split
  · exact .jot other hown fun _ => .done
  · exact .done

/-- Spans that overlap the one held are not taken, although they need not overlap each other. A span
more is a change of a list of spans. -/
theorem Machine.mapM_setContent_took_spans :
    (∃ answers w', ([.one (.record ⟨1, 3, "b"⟩), .one (.record ⟨3, 5, "c"⟩),
          .one (.record ⟨1, 3, "b"⟩), .one (.record ⟨0, 2, "d"⟩)] : List (Content Interval)).mapM
        (setContent (.ofFuel App.reporting 2) ⟨0⟩) World.spans = .ok (answers, w') ∧
      answers = [false, true, false, true] ∧ w'.content? ⟨2⟩ = some (.one (.int 2)) ∧
      ∃ news, w'.history = World.spans.history ++ news ∧
        news.count (.called ⟨0⟩ ⟨0⟩) = 2 ∧ news.count (.called ⟨1⟩ ⟨0⟩) = 2) ∧
    ∃ answers w', ([.many .record [.record ⟨2, 9, "b"⟩], .many .record [],
          .many .record [.record ⟨2, 9, "b"⟩]] : List (Content Interval)).mapM
        (setContent (.ofFuel App.reporting 2) ⟨1⟩) World.spans = .ok (answers, w') ∧
      answers = [false, true, true] ∧ ∃ news, w'.history = World.spans.history ++ news ∧
        news.count (.called ⟨0⟩ ⟨1⟩) = 2 := by
  refine ⟨?_, ?_⟩
  · obtain ⟨answers, w', hrun, -, news, hnews, hcount⟩ := mapM_setContent_took 1
      [.one (.record ⟨1, 3, "b"⟩), .one (.record ⟨3, 5, "c"⟩), .one (.record ⟨1, 3, "b"⟩),
        .one (.record ⟨0, 2, "d"⟩)]
      World.spans_quiescent (b := ⟨0⟩) rfl (by decide)
      fun _ _ code _ => App.reporting_passive code (by decide)
    obtain rfl : answers = [false, true, false, true] :=
      Option.some.inj (congrArg (·.toOption.map (·.1)) hrun.symm)
    have hcounted : w'.content? ⟨2⟩ = some (.one (.int 2)) :=
      Option.some.inj (congrArg (·.toOption.map (·.2.content? ⟨2⟩)) hrun.symm)
    exact ⟨_, w', hrun, rfl, hcounted, news, hnews, hcount ⟨0⟩ (by decide),
      hcount ⟨1⟩ (by decide)⟩
  · obtain ⟨answers, w', hrun, -, news, hnews, hcount⟩ := mapM_setContent_took 1
      [.many .record [.record ⟨2, 9, "b"⟩], .many .record [], .many .record [.record ⟨2, 9, "b"⟩]]
      World.spans_quiescent (b := ⟨1⟩) rfl (by decide)
      fun _ _ code _ => App.reporting_passive code (by decide)
    obtain rfl : answers = [false, true, true] :=
      Option.some.inj (congrArg (·.toOption.map (·.1)) hrun.symm)
    exact ⟨_, w', hrun, rfl, news, hnews, hcount ⟨0⟩ (by decide)⟩

end Trellis
