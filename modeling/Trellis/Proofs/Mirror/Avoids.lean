import Trellis.Proofs.Frame.Acts
import Trellis.Proofs.Mirror.Accord

/-!
# Callbacks that do not know a watcher

Callbacks name the watchers that they attach, release or write back. The mirror that an element has
of its own is known to none of them: nothing that is left to do in a frame names it, unless to call
it or to edit its copy.

* `Program.Avoids`, `App.Avoids` — callbacks that do not know a watcher.
* `Act.Avoids`, `PlainActs` — the same for what is left to do of a frame.
* `Duty.discharge_avoids`, `Program.entering_avoids` — what is left then does not know it either.
-/

namespace Trellis

open Machine

variable {κ ρ α β : Type} {x : WatcherId} {w w' : World κ ρ}

/-! ## Callbacks that do not know a watcher -/

/-- The program names no such watcher, unless it is to edit its copy or asks who has it. -/
def Program.Avoids (x : WatcherId) : Program κ ρ α → Prop
  | .done _ => True
  | .note _ next | .edit _ _ next | .invalidate _ next | .defer _ _ next | .send _ next
  | .update _ _ _ next => next.Avoids x
  | .watch y _ next | .unwatch y _ next | .drop y next | .attach y _ next => y ≠ x ∧ next.Avoids x
  | .writeBack y _ next => y ≠ x ∧ ∀ a, (next a).Avoids x
  | .set _ _ next | .tryLock _ next => ∀ a, (next a).Avoids x
  | .read _ next => ∀ a, (next a).Avoids x
  | .keeps _ next => ∀ a, (next a).Avoids x
  | .title _ next => ∀ a, (next a).Avoids x
  | .find _ next => ∀ a, (next a).Avoids x
  | .handle _ _ next => ∀ a, (next a).Avoids x

theorem Program.Avoids.bind {program : Program κ ρ α} {f : α → Program κ ρ β}
    (h : program.Avoids x) (hf : ∀ a, (f a).Avoids x) : (program.bind f).Avoids x := by
  induction program with
  | done answer => exact hf answer
  | note line next ih | edit y value next ih | invalidate window next ih | defer window code next ih
  | send event next ih | update handle call reply next ih => exact ih h
  | watch y b next ih | unwatch y b next ih | drop y next ih | attach y b next ih =>
      exact ⟨h.1, ih h.2⟩
  | writeBack y b next ih => exact ⟨h.1, fun a => ih a (h.2 a)⟩
  | read b next ih | set b content next ih | keeps y next ih | title window next ih
  | find id next ih | handle element kind next ih | tryLock handle next ih =>
      exact fun a => ih a (h a)

/-- No callback that runs while a view is up names the watcher. -/
structure App.Avoids (app : App κ ρ) (x : WatcherId) : Prop where
  handler : ∀ code ctx id, (app.handler code ctx id).Avoids x
  filter : ∀ code ctx id text, (app.filter code ctx id text).Avoids x
  itemHandler : ∀ code ctx i b, (app.itemHandler code ctx i b).Avoids x
  watcher : ∀ code b, (app.watcher code b).Avoids x
  task : ∀ code, (app.task code).Avoids x
  reply : ∀ code answer, (app.reply code answer).Avoids x

/-! ## Acts that do not know the mirror -/

/-- The duty names no such watcher, unless it is to be called. -/
def Duty.Avoids (x : WatcherId) : Duty κ ρ → Prop
  | .run program => program.Avoids x
  | _ => True

/-- The act names no such watcher, unless it is to be called. -/
def Act.Avoids (x : WatcherId) : Act κ ρ → Prop
  | .duty d => d.Avoids x
  | _ => True

/-- The act is to call no watcher, and names none. -/
def Act.Plain (x : WatcherId) : Act κ ρ → Prop
  | .duty d => d.Avoids x ∧ d.binding? = none
  | _ => True

/-- None of the acts is to call a watcher, or names this one. -/
def PlainActs (x : WatcherId) (acts : List (Act κ ρ)) : Prop := ∀ act ∈ acts, act.Plain x

theorem Act.Plain.avoids {act : Act κ ρ} (h : act.Plain x) : act.Avoids x := by
  cases act with
  | duty d => exact h.1
  | tree | visit | enter | report | work => trivial

variable [Ordered ρ] {app : App κ ρ} {ctx : EventContext} {y : WindowId}

omit [Ordered ρ] in
theorem Duty.avoids_tasks (tasks : List (Task κ)) {next : Program κ ρ Unit} (h : next.Avoids x) :
    ∀ d ∈ tasks.map Duty.task ++ [.run next], d.Avoids x := by
  refine List.forall_mem_append.mpr ⟨List.forall_mem_map.mpr fun _ _ => trivial, ?_⟩
  exact List.forall_mem_singleton.mpr h

namespace Machine

variable {R : World κ ρ → World κ ρ → Prop} [IsPreorder (World κ ρ) R]

theorem assign_avoids (b : BindingId) (content : Content ρ) {changed : Bool}
    {rounds : List (Duty κ ρ)} (run : assign b content w = .ok ((changed, rounds), w')) :
    ∀ d ∈ rounds, d.Avoids x := by
  rcases assign_eq_ok run with ⟨-, rfl, -, -⟩ | ⟨binding, -, -, -, rfl, -⟩
  · exact List.forall_mem_nil _
  · split
    · exact List.forall_mem_nil _
    · exact List.forall_mem_singleton.mpr trivial

theorem assignEdit_avoids (z : WatcherId) (b : BindingId) {changed : Bool}
    {rounds : List (Duty κ ρ)} (run : assignEdit z b w = .ok ((changed, rounds), w')) :
    ∀ d ∈ rounds, d.Avoids x := by
  obtain ⟨taken, u, -, hset⟩ := bind_eq_ok.mp run
  cases taken with
  | none =>
      obtain ⟨heq, -⟩ := pure_eq_ok.mp hset
      cases heq
      exact List.forall_mem_nil _
  | some value => exact assign_avoids b _ hset

end Machine

theorem Program.advance_avoids {program : Program κ ρ Unit} {left : List (Duty κ ρ)}
    (h : program.Avoids x) (run : program.advance w = .ok (left, w')) : ∀ d ∈ left, d.Avoids x := by
  have hrounds {rounds : List (Duty κ ρ)} {next : Program κ ρ Unit} (hr : ∀ d ∈ rounds, d.Avoids x)
      (hn : next.Avoids x) : ∀ d ∈ rounds ++ [.run next], d.Avoids x :=
    List.forall_mem_append.mpr ⟨hr, List.forall_mem_singleton.mpr hn⟩
  cases program with
  | done answer =>
      obtain ⟨rfl, -⟩ := pure_eq_ok.mp run
      exact List.forall_mem_nil _
  | note line next | edit z value next | invalidate window next | send event next =>
      obtain ⟨_, _, -, run⟩ := bind_eq_ok.mp run
      obtain ⟨rfl, -⟩ := pure_eq_ok.mp run
      exact List.forall_mem_singleton.mpr h
  | watch z b next | unwatch z b next | drop z next | attach z b next =>
      obtain ⟨_, _, -, run⟩ := bind_eq_ok.mp run
      obtain ⟨rfl, -⟩ := pure_eq_ok.mp run
      exact List.forall_mem_singleton.mpr h.2
  | read b next | keeps y next | title window next | find id next | handle element kind next
  | tryLock handle next =>
      obtain ⟨_, _, -, run⟩ := bind_eq_ok.mp run
      obtain ⟨rfl, -⟩ := pure_eq_ok.mp run
      exact List.forall_mem_singleton.mpr (h _)
  | set b content next =>
      obtain ⟨⟨changed, rounds⟩, _, hassign, run⟩ := bind_eq_ok.mp run
      obtain ⟨rfl, -⟩ := pure_eq_ok.mp run
      exact hrounds (assign_avoids b content hassign) (h changed)
  | writeBack z b next =>
      obtain ⟨⟨changed, rounds⟩, _, hassign, run⟩ := bind_eq_ok.mp run
      obtain ⟨rfl, -⟩ := pure_eq_ok.mp run
      exact hrounds (assignEdit_avoids z b hassign) (h.2 changed)
  | defer window code next | update handle call reply next =>
      obtain ⟨tasks, _, -, run⟩ := bind_eq_ok.mp run
      obtain ⟨rfl, -⟩ := pure_eq_ok.mp run
      exact Duty.avoids_tasks tasks h

namespace Machine

omit [Ordered ρ] in
theorem filterAfter_avoids (happ : app.Avoids x) (ctx : EventContext) (id : String)
    (input : Input κ) (text : String) : (filterAfter app ctx id input text).Avoids x := by
  unfold filterAfter
  split
  · exact happ.filter _ _ _ _
  · trivial

omit [Ordered ρ] in
theorem performChange_avoids (happ : app.Avoids x) (d : ElementId) (element : Element κ)
    (change : Change) :
    Answers World.Still (·.Avoids x) (performChange app d element change) := by
  unfold performChange
  split
  · exact .bind (setId_still d _) fun _ => .pure trivial
  · split
    · exact .pure ((filterAfter_avoids happ _ _ _ _).bind fun _ => trivial)
    · exact .pure trivial
  · split
    · exact .bind (setValue_still d _) fun _ => .pure trivial
    · split
      · exact .bind (modifyElement_still d _) fun _ => .bind (invalidate_still _) fun _ =>
          .pure trivial
      · split
        · exact .bind (modifyElement_still d _) fun _ => .pure trivial
        · exact .pure trivial

omit [Ordered ρ] in
theorem edit_avoids (happ : app.Avoids x) (d : ElementId) (k : Kind) (call : Call κ BindingId)
    (reply : κ) : Answers World.Still (·.Avoids x) (edit app d k call reply) := by
  have hperform : Answers World.Still (·.Avoids x) (perform app d call) := by
    refine .get_bind fun w => ?_
    split
    · split
      · exact performChange_avoids happ d _ _
      · split
        · exact .bind (bind_still d _) fun _ => .pure trivial
        · exact .pure trivial
      · exact .bind (modifyElement_still d _) fun _ => .pure trivial
      · exact .bind (modifyElement_still d _) fun _ => .pure trivial
      · exact .pure trivial
    · exact .pure trivial
  refine .get_bind fun w => ?_
  split
  · exact .andThen hperform fun answer h => .pure (h.bind fun a => happ.reply reply a)
  · exact .pure trivial

end Machine

theorem Duty.discharge_avoids (happ : app.Avoids x) {duty : Duty κ ρ} {left : List (Duty κ ρ)}
    (h : duty.Avoids x) (run : duty.discharge app w = .ok (left, w')) : ∀ d ∈ left, d.Avoids x := by
  cases duty with
  | run program => exact Program.advance_avoids h run
  | rounds b watchers =>
      cases watchers with
      | nil =>
          cases effect_of_discharge run with
          | begins => exact List.forall_mem_singleton.mpr trivial
          | settles => exact List.forall_mem_nil _
          | still duty_binding | opens duty_binding | postpones duty_binding => cases duty_binding
      | cons z rest =>
          obtain ⟨program, _, hcall, run⟩ := bind_eq_ok.mp run
          obtain ⟨rfl, -⟩ := pure_eq_ok.mp run
          have hprogram : program.Avoids x := by
            rcases call_program hcall with rfl | ⟨code, -, rfl⟩
            · trivial
            · exact happ.watcher code b
          exact List.forall_mem_cons.mpr ⟨hprogram, List.forall_mem_singleton.mpr trivial⟩
  | release z b rest =>
      obtain ⟨_, _, -, run⟩ := bind_eq_ok.mp run
      obtain ⟨rfl, -⟩ := pure_eq_ok.mp run
      exact List.forall_mem_singleton.mpr trivial
  | task task =>
      cases task with
      | run code =>
          obtain ⟨rfl, -⟩ := pure_eq_ok.mp run
          exact List.forall_mem_singleton.mpr (happ.task code)
      | edit d k call reply =>
          obtain ⟨_, _, -, run⟩ := bind_eq_ok.mp run
          obtain ⟨program, _, hedit, run⟩ := bind_eq_ok.mp run
          obtain ⟨rfl, -⟩ := pure_eq_ok.mp run
          have hprogram := (edit_avoids happ d k call reply hedit).2
          exact List.forall_mem_cons.mpr ⟨hprogram, List.forall_mem_singleton.mpr trivial⟩
  | unlock d =>
      obtain ⟨_, _, -, run⟩ := bind_eq_ok.mp run
      obtain ⟨rfl, -⟩ := pure_eq_ok.mp run
      exact List.forall_mem_nil _

omit [Ordered ρ] in
theorem Program.acceptFrom_avoids {allowed : List Char → Program κ ρ (List Char)}
    (h : ∀ taken, (allowed taken).Avoids x) (multiLine : Bool) (maxLength : Nat)
    (taken rest : List Char) : (acceptFrom allowed multiLine maxLength taken rest).Avoids x := by
  induction rest generalizing taken with
  | nil => trivial
  | cons c rest ih =>
      unfold acceptFrom
      split
      · trivial
      · split
        · exact ih taken
        · refine Avoids.bind (h taken) fun filter => ?_
          split
          · exact ih _
          · exact ih taken

omit [Ordered ρ] in
theorem Program.entering_avoids (happ : app.Avoids x) (ctx : EventContext) (id : String)
    (input : Input κ) (follower : Option WatcherId) (window : Option WindowId) (edited : String) :
    (entering app ctx id input follower window edited : Program κ ρ Unit).Avoids x := by
  have hasking (window : Option WindowId) : (asking window : Program κ ρ Unit).Avoids x := by
    cases window <;> trivial
  refine Avoids.bind (acceptFrom_avoids (fun taken => ?_) _ _ _ _) fun taken => ?_
  · exact Avoids.bind (filterAfter_avoids happ _ _ _ _) fun _ => trivial
  · -- To edit the copy is allowed.
    cases follower <;> exact hasking window

end Trellis
