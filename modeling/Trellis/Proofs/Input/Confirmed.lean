import Trellis.Proofs.Input.Accepted

/-!
# What is confirmed of a stream of texts

An input takes texts one after another, and each confirmation is of what it shows by then. In a frame
the input takes all texts first and confirms at most once, so what is confirmed is the same only if
nothing follows the first confirmation of a frame.

* `Input.shownAfter` — what an input shows after some events.
* `Input.confirmed` — what it shows at each confirmation.
* `EventKind.gathered` — the events of a frame in the order in which they are taken.
* `Input.confirmed_gathered` — what is confirmed in a frame.
* `Input.confirmed_of_tidy` — that is what the events confirm, as long as no text or confirmation
  follows a confirmation.
-/

namespace Trellis

namespace EventKind

/-- Whether an event is a text for an input. -/
def isText : EventKind → Bool
  | .text _ => true
  | _ => false

/-- The events of a frame as an input takes them: all but the confirmations, and then one if there is
any. -/
def gathered (events : List EventKind) : List EventKind :=
  events.filter (!·.isSubmit) ++ if events.any isSubmit then [.submit] else []

/-- Neither a text nor a confirmation follows a confirmation. -/
def Tidy (events : List EventKind) : Prop :=
  ∀ before after, events = before ++ .submit :: after →
    ∀ event ∈ after, event.isSubmit = false ∧ event.isText = false

end EventKind

/-- The events of some frames, addressed to an element, are those of each. -/
theorem EventContext.addressedTo_append (front back : List Event) (id : String) :
    ({ events := front ++ back } : EventContext).addressedTo id =
      ({ events := front } : EventContext).addressedTo id ++
        ({ events := back } : EventContext).addressedTo id := by
  simp [addressedTo]

namespace Input

variable {κ : Type} (input : Input κ) (f : String → String)

/-- What an input shows after an event. Its filter answers `f` of the text so far. -/
def taking (shown : String) : EventKind → String
  | .text text =>
    if input.readOnly then shown else String.ofList ((input.intake f).accepted text.toList)
  | _ => shown

/-- What an input shows after some events. -/
def shownAfter (shown : String) (events : List EventKind) : String :=
  events.foldl (input.taking f) shown

/-- What an input shows at each confirmation among some events, in order. -/
def confirmed (shown : String) : List EventKind → List String
  | [] => []
  | event :: events =>
    (if event.isSubmit then [shown] else []) ++ confirmed (input.taking f shown event) events

variable {input f} {shown : String} {events : List EventKind}

theorem taking_of_not_text {event : EventKind} (h : event.isText = false) :
    input.taking f shown event = shown := by
  cases event with
  | text text => cases h
  | _ => rfl

theorem shownAfter_append (front back : List EventKind) :
    input.shownAfter f shown (front ++ back) =
      input.shownAfter f (input.shownAfter f shown front) back :=
  List.foldl_append ..

/-- Only texts matter for what is shown. -/
theorem shownAfter_filter {p : EventKind → Bool} (h : ∀ event, p event = false → event.isText = false)
    (events : List EventKind) :
    input.shownAfter f shown (events.filter p) = input.shownAfter f shown events := by
  induction events generalizing shown with
  | nil => rfl
  | cons event events ih =>
      rw [List.filter_cons]
      split
      · exact ih
      · next hp =>
          rw [ih, shownAfter, shownAfter, List.foldl_cons,
            taking_of_not_text (h event (by simpa using hp))]

theorem confirmed_append (front back : List EventKind) :
    input.confirmed f shown (front ++ back) =
      input.confirmed f shown front ++ input.confirmed f (input.shownAfter f shown front) back := by
  induction front generalizing shown with
  | nil => rfl
  | cons event front ih =>
      rw [List.cons_append, confirmed, confirmed, ih, List.append_assoc]
      rfl

theorem confirmed_of_no_submit (h : ∀ event ∈ events, event.isSubmit = false) :
    input.confirmed f shown events = [] := by
  induction events generalizing shown with
  | nil => rfl
  | cons event events ih =>
      rw [List.forall_mem_cons] at h
      rw [confirmed, h.1, ih h.2]
      rfl

theorem shownAfter_unconfirmed (events : List EventKind) :
    input.shownAfter f shown (events.filter (!·.isSubmit)) = input.shownAfter f shown events := by
  refine shownAfter_filter (fun event h => ?_) events
  cases event <;> first | rfl | cases h

theorem shownAfter_gathered :
    input.shownAfter f shown (EventKind.gathered events) = input.shownAfter f shown events := by
  rw [EventKind.gathered, shownAfter_append, shownAfter_unconfirmed]
  split <;> rfl

/-- In a frame what is shown after all texts is confirmed, once if at all. -/
theorem confirmed_gathered :
    input.confirmed f shown (EventKind.gathered events) =
      if events.any EventKind.isSubmit then [input.shownAfter f shown events] else [] := by
  have hnone : ∀ event ∈ events.filter (!·.isSubmit), event.isSubmit = false := by
    intro event h
    simpa using (List.mem_filter.mp h).2
  rw [EventKind.gathered, confirmed_append, confirmed_of_no_submit hnone, List.nil_append,
    shownAfter_unconfirmed]
  split <;> rfl

/-- Events that are tidy confirm what they do in a frame. -/
theorem confirmed_of_tidy (tidy : EventKind.Tidy events) :
    input.confirmed f shown (EventKind.gathered events) = input.confirmed f shown events := by
  rw [confirmed_gathered]
  split
  · next hany =>
      obtain ⟨event, hmem, hsubmit⟩ := List.any_eq_true.mp hany
      obtain ⟨before, after, hsplit⟩ := List.append_of_mem hmem
      cases event with
      | submit =>
          have hafter := tidy before after hsplit
          -- No confirmation comes before this one, as this one comes after it.
          have hbefore : ∀ event ∈ before, event.isSubmit = false := by
            intro event hevent
            cases event with
            | submit =>
                obtain ⟨front, back, rfl⟩ := List.append_of_mem hevent
                have hlater := tidy front (back ++ .submit :: after) (by simp [hsplit])
                exact (hlater .submit (by simp)).1
            | _ => rfl
          have hshown : input.shownAfter f shown (before ++ .submit :: after) =
              input.shownAfter f shown before := by
            have hnone : after.filter EventKind.isText = [] :=
              List.filter_eq_nil_iff.mpr fun event h => by simp [(hafter event h).2]
            rw [shownAfter_append, ← shownAfter_filter (p := EventKind.isText) fun _ => id,
              List.filter_cons_of_neg (by simp [EventKind.isText]), hnone]
            rfl
          rw [hsplit, hshown, confirmed_append, confirmed_of_no_submit hbefore, confirmed,
            confirmed_of_no_submit fun event h => (hafter event h).1]
          rfl
      | _ => cases hsubmit
  · next hany =>
      rw [confirmed_of_no_submit]
      simpa using hany

/-- However a stream of events is cut into frames that are tidy, it confirms the same. -/
theorem confirmed_flatMap_gathered {frames : List (List EventKind)}
    (tidy : ∀ events ∈ frames, EventKind.Tidy events) :
    input.confirmed f shown (frames.flatMap EventKind.gathered) =
      input.confirmed f shown frames.flatten := by
  induction frames generalizing shown with
  | nil => rfl
  | cons events frames ih =>
      rw [List.forall_mem_cons] at tidy
      rw [List.flatMap_cons, List.flatten_cons, confirmed_append, confirmed_append,
        confirmed_of_tidy tidy.1, shownAfter_gathered, ih tidy.2]

end Input

end Trellis
