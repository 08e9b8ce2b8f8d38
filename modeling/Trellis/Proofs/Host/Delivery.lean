import Trellis.Proofs.Host.Lifecycle
import Trellis.Proofs.Host.Mail
import Trellis.Proofs.Host.Tasks

/-!
# When events are handled

Before a host is closed, every frame collects the events that have been sent before it and that no
frame has collected. A frame that shows a view hands it what it has collected. A frame that fails,
or has no view to show, hands it to nobody, and it is gone.

* `Delivery` — what becomes of events in a run.
* `HostStep.play_delivers` — it becomes of them in every run.
* `HostStep.play_delivers_nobody` — an event that no view ever handles, though one is shown later.
-/

namespace Trellis

variable {κ ρ : Type} {w w' : World κ ρ} {x : WindowId}

/-- Sends events to the host, one after another. -/
def Program.sending : List Event → Program κ ρ Unit
  | [] => .done ()
  | event :: rest => .send event (sending rest)

/-- What becomes of events in a run. -/
structure Delivery (posts : List (Post κ ρ)) : Prop where
  /-- A frame before the end collects all that was sent before it and has not been collected. -/
  collected : ∀ before post after size, posts = before ++ post :: after →
    (∀ p ∈ before, ¬ p.step.Closes) → post.step = .frame size →
    ∃ events, Parcel.collections post.parcels = [events] ∧
      before.flatMap Post.collected ++ events = before.flatMap (·.sent)
  /-- Nothing else does. -/
  uncollected : ∀ before post after, posts = before ++ post :: after →
    ((∃ p ∈ before, p.step.Closes) ∨ ∀ size, post.step ≠ .frame size) → post.parcels = []
  /-- The view that a frame shows is handed what that has collected. -/
  handed : ∀ post ∈ posts, post.answer.Shows →
    Parcel.handings post.parcels = Parcel.collections post.parcels
  /-- Without a view that is shown, nobody is handed anything. -/
  unhanded : ∀ post ∈ posts, ¬ post.answer.Shows → Parcel.handings post.parcels = []
  /-- What is sent between frames arrives in order. -/
  sent : ∀ post ∈ posts, ∀ events, post.step = .act (.sending events) → post.sent = events

/-- What a step does with events, those that wait before and after it being `mail` and `mail'`. -/
structure Post.Fits (closed : Bool) (mail mail' : List Event) (post : Post κ ρ) : Prop where
  balance : post.collected ++ mail' = mail ++ post.sent
  collected : closed = false → ∀ size, post.step = .frame size →
    Parcel.collections post.parcels = [mail]
  uncollected : (closed = true ∨ ∀ size, post.step ≠ .frame size) → post.parcels = []
  handed : post.answer.Shows → Parcel.handings post.parcels = Parcel.collections post.parcels
  unhanded : ¬ post.answer.Shows → Parcel.handings post.parcels = []
  sent : ∀ events, post.step = .act (.sending events) → post.sent = events

/-- Steps one after another, with whether the host is closed and the events that wait, at their
beginning and at their end. -/
inductive Post.Chain : Bool → List Event → List (Post κ ρ) → Bool → List Event → Prop
  | nil (closed : Bool) (mail : List Event) : Chain closed mail [] closed mail
  | cons {closed closed₁ closed' : Bool} {mail mail₁ mail' : List Event} {post : Post κ ρ}
      {posts : List (Post κ ρ)} (fits : post.Fits closed mail mail₁)
      (ends : closed₁ = true ↔ closed = true ∨ post.step.Closes)
      (rest : Chain closed₁ mail₁ posts closed' mail') :
      Chain closed mail (post :: posts) closed' mail'

namespace Post.Chain

variable {closed closed' : Bool} {mail mail' : List Event} {posts : List (Post κ ρ)}

/-- Every event that has arrived is collected once or waits. -/
theorem balance (h : Chain closed mail posts closed' mail') :
    posts.flatMap Post.collected ++ mail' = mail ++ posts.flatMap (·.sent) := by
  induction h with
  | nil => simp
  | @cons _ _ _ mail mail₁ mail' post posts fits _ _ ih =>
      calc (post :: posts).flatMap Post.collected ++ mail'
          = post.collected ++ (posts.flatMap Post.collected ++ mail') := by
            rw [List.flatMap_cons, List.append_assoc]
        _ = post.collected ++ mail₁ ++ posts.flatMap (·.sent) := by
            rw [ih, List.append_assoc]
        _ = mail ++ (post :: posts).flatMap (·.sent) := by
            rw [fits.balance, List.append_assoc, List.flatMap_cons]

/-- The host is closed by a step that closes it. -/
theorem closed_iff (h : Chain closed mail posts closed' mail') :
    closed' = true ↔ closed = true ∨ ∃ post ∈ posts, post.step.Closes := by
  induction h with
  | nil => simp
  | cons _ ends _ ih =>
      rw [ih, ends, List.exists_mem_cons_iff, or_assoc]

theorem split {before after : List (Post κ ρ)}
    (h : Chain closed mail (before ++ after) closed' mail') :
    ∃ closed₁ mail₁, Chain closed mail before closed₁ mail₁ ∧
      Chain closed₁ mail₁ after closed' mail' := by
  induction before generalizing closed mail with
  | nil => exact ⟨closed, mail, .nil closed mail, h⟩
  | cons post before ih =>
      cases h with
      | cons fits ends rest =>
          obtain ⟨closed₁, mail₁, hbefore, hafter⟩ := ih rest
          exact ⟨closed₁, mail₁, .cons fits ends hbefore, hafter⟩

/-- At any step of the chain, the host and the mail are as the steps before have left them. -/
theorem fits {before after : List (Post κ ρ)} {post : Post κ ρ}
    (h : Chain closed mail (before ++ post :: after) closed' mail') :
    ∃ closed₁ mail₁ mail₂, Chain closed mail before closed₁ mail₁ ∧
      post.Fits closed₁ mail₁ mail₂ := by
  obtain ⟨closed₁, mail₁, hbefore, hrest⟩ := h.split
  cases hrest with
  | cons fits _ _ => exact ⟨closed₁, mail₁, _, hbefore, fits⟩

/-- What becomes of events, if none waited in the beginning. -/
theorem delivery (h : Chain false [] posts closed' mail') : Delivery posts := by
  have hat (post : Post κ ρ) (hpost : post ∈ posts) :
      ∃ closed mail mail', post.Fits closed mail mail' := by
    obtain ⟨before, after, rfl⟩ := List.append_of_mem hpost
    obtain ⟨closed₁, mail₁, mail₂, -, hfits⟩ := h.fits
    exact ⟨closed₁, mail₁, mail₂, hfits⟩
  refine ⟨?_, ?_, fun post hpost => ?_, fun post hpost => ?_, fun post hpost => ?_⟩
  · rintro before post after size rfl hunended hframe
    obtain ⟨closed₁, mail₁, mail₂, hbefore, hfits⟩ := h.fits
    have hopen : closed₁ = false := by
      rw [← Bool.not_eq_true, hbefore.closed_iff]
      rintro (h | ⟨p, hp, hcloses⟩)
      · cases h
      · exact hunended p hp hcloses
    exact ⟨mail₁, hfits.collected hopen size hframe, hbefore.balance⟩
  · rintro before post after rfl hidle
    obtain ⟨closed₁, mail₁, mail₂, hbefore, hfits⟩ := h.fits
    exact hfits.uncollected (hidle.imp (fun hended => hbefore.closed_iff.mpr (.inr hended)) id)
  · obtain ⟨_, _, _, hfits⟩ := hat post hpost
    exact hfits.handed
  · obtain ⟨_, _, _, hfits⟩ := hat post hpost
    exact hfits.unhanded
  · obtain ⟨_, _, _, hfits⟩ := hat post hpost
    exact hfits.sent

end Post.Chain

namespace Machine

/-- Polling takes all the mail. -/
theorem poll_run [Ordered ρ] (s : Setting κ ρ) (size : Size Float) {events : List Event}
    (run : (stage s x size).poll w = .ok (events, w')) : events = w.mail ∧ w'.mail = [] := by
  replace run := get_bind_eq_ok.mp run
  obtain ⟨_, u, htake, run⟩ := bind_eq_ok.mp run
  obtain ⟨rfl, rfl⟩ := pure_eq_ok.mp run
  refine ⟨rfl, ?_⟩
  rw [← modify_eq_ok.mp htake, World.mail]
  cases w.session <;> rfl

theorem modifySession_mailed {f : Session κ → Session κ}
    (events : ∀ session, (f session).events = session.events) :
    Respects World.Mailed (modifySession f : Machine κ ρ Unit) :=
  .modify fun w => .session w events

end Machine

namespace HostStep

open Machine Parcel

variable [Ordered ρ] {s : Setting κ ρ} {size : Size Float}

/-- A frame of a host that is not closed collects the mail, and hands it to the view that it
shows. -/
theorem frame_parcelled {outcome : Except ViewError (Option (List (DrawOp Float)))}
    {host : Host (View κ) κ} (hhost : getHost w = .ok (host, w))
    (run : (Machine.stage s x size).frame w = .ok (outcome, w')) :
    ∃ parcels, (Machine.stage s x size).parcelled.frame [] w = .ok ((outcome, parcels), w') ∧
      (host.closed = true → parcels = []) ∧
      (host.closed = false → collections parcels = [w.mail]) ∧
      (HostAnswer.Shows (.framed outcome) → handings parcels = collections parcels) ∧
      (¬ HostAnswer.Shows (.framed outcome) → handings parcels = []) := by
  obtain ⟨host', w₀, hget, run⟩ := Machine.bind_eq_ok.mp run
  obtain ⟨rfl, rfl⟩ : host = host' ∧ w = w₀ := by
    cases hhost.symm.trans hget
    exact ⟨rfl, rfl⟩
  rw [Stage.frame, Parcelled.bind_run (Parcelled.get_silent _ hget)]
  by_cases hclosed : host.closed = true
  · rw [if_pos hclosed] at run ⊢
    obtain ⟨rfl, rfl⟩ := Machine.pure_eq_ok.mp run
    exact ⟨[], rfl, fun _ => rfl, fun hopen => absurd (hclosed.symm.trans hopen) nofun, nofun,
      fun _ => rfl⟩
  rw [if_neg hclosed] at run ⊢
  obtain ⟨events, w₁, hpoll, run⟩ := Machine.bind_eq_ok.mp run
  obtain ⟨rfl, -⟩ := Machine.poll_run s size hpoll
  rw [Parcelled.bind_run (Parcelled.poll_run _ hpoll)]
  obtain ⟨failure, w₂, hswap, run⟩ := Machine.bind_eq_ok.mp run
  rw [Parcelled.bind_run (Parcelled.swap_silent _ hswap)]
  -- a frame that fails, or has no view, has written down what it collected and nothing else
  cases failure with
  | some e =>
      obtain ⟨rfl, rfl⟩ := Machine.pure_eq_ok.mp run
      exact ⟨_, rfl, fun h => absurd h hclosed, fun _ => rfl, nofun, fun _ => rfl⟩
  | none =>
      obtain ⟨failure, w₃, hbegin, run⟩ := Machine.bind_eq_ok.mp run
      dsimp only
      rw [Parcelled.bind_run (Parcelled.begin_silent _ hbegin)]
      cases failure with
      | some e =>
          obtain ⟨rfl, rfl⟩ := Machine.pure_eq_ok.mp run
          exact ⟨_, rfl, fun h => absurd h hclosed, fun _ => rfl, nofun, fun _ => rfl⟩
      | none =>
          obtain ⟨host₁, w₄, hget₁, run⟩ := Machine.bind_eq_ok.mp run
          dsimp only at run ⊢
          rw [Parcelled.bind_run (Parcelled.get_silent _ hget₁)]
          cases hview : host₁.view with
          | none =>
              rw [hview] at run
              obtain ⟨rfl, rfl⟩ := Machine.pure_eq_ok.mp run
              exact ⟨_, rfl, fun h => absurd h hclosed, fun _ => rfl, nofun, fun _ => rfl⟩
          | some view =>
              rw [hview] at run
              obtain ⟨n, w₅, htasks, run⟩ := Machine.bind_eq_ok.mp run
              obtain ⟨u, w₆, hhandle, run⟩ := Machine.bind_eq_ok.mp run
              obtain ⟨n', w₇, htasks', run⟩ := Machine.bind_eq_ok.mp run
              obtain ⟨ops, w₈, hdraw, run⟩ := Machine.bind_eq_ok.mp run
              obtain ⟨rfl, rfl⟩ := Machine.pure_eq_ok.mp run
              dsimp only
              rw [Parcelled.parcelled_taskLimit,
                Parcelled.bind_run (Parcelled.runTasks_silent _ _ htasks),
                Parcelled.bind_run (Parcelled.handleEvents_run _ hhandle),
                Parcelled.bind_run (Parcelled.runTasks_silent _ _ htasks'),
                Parcelled.bind_run (Parcelled.draw_silent _ view hdraw)]
              exact ⟨_, rfl, fun h => absurd h hclosed, fun _ => rfl, fun _ => rfl,
                fun h => absurd trivial h⟩

/-! ## Steps other than frames -/

omit [Ordered ρ] in
theorem getHost_mailed : Respects World.Mailed (getHost : Machine κ ρ (Host (View κ) κ)) :=
  .get_bind fun _ => .pure _

theorem close_mailed : Respects World.Mailed (Machine.stage s x size).close := by
  have hset (host : Host (View κ) κ) :
      Respects World.Mailed ((Machine.stage s x size).set host) :=
    modifySession_mailed fun _ => rfl
  refine .bind getHost_mailed fun host => ?_
  split
  · exact .pure _
  · have hfinish (failure : Option ViewError) : Respects World.Mailed (do
        let host ← (Machine.stage s x size).get
        (Machine.stage s x size).set { host with view := none, onClose := none }
        host.onClose.forM (Machine.stage s x size).runOnClose
        return failure) := by
      refine .bind getHost_mailed fun host => .bind (hset _) fun _ => .bind ?_ fun _ => .pure _
      exact .forM_option _ fun code => Program.run_respects (reentry_respects s) _
    refine .bind (hset _) fun _ => ?_
    split
    · exact .bind (destroyView_respects s _) hfinish
    · exact hfinish none

/-- Steps other than frames leave the mail where it is. -/
theorem take_mailed {step : HostStep κ ρ} (unframed : ∀ size, step ≠ .frame size) :
    Respects World.Mailed (take s x step) := by
  cases step with
  | setView view =>
      refine .bind (.bind (modifySession_mailed fun _ => rfl) fun _ => ?_) fun _ => .pure _
      exact .get_bind fun w => invalidate_respects _
  | onClose code => exact .bind (modifySession_mailed fun _ => rfl) fun _ => .pure _
  | act program => exact .bind (program.run_respects (reentry_respects s)) fun _ => .pure _
  | frame size => exact absurd rfl (unframed size)
  | close => exact .bind close_mailed fun _ => .pure _
  | drop => exact .bind close_mailed fun _ => .pure _

/-- Events arrive in the order in which they are sent. -/
theorem sending_run {r : Reentry κ ρ} {events : List Event} {u : Unit}
    (opened : w.session.isSome = true) (run : (Program.sending events).run r w = .ok (u, w')) :
    w'.mail = w.mail ++ events := by
  induction events generalizing w with
  | nil =>
      obtain ⟨-, rfl⟩ := Machine.pure_eq_ok.mp run
      rw [List.append_nil]
  | cons event rest ih =>
      obtain ⟨_, v, hsend, run⟩ := Machine.bind_eq_ok.mp run
      obtain ⟨session, hsession⟩ := Option.isSome_iff_exists.mp opened
      have hv : v.session = some { session with events := session.events ++ [event] } := by
        rw [← Machine.modify_eq_ok.mp hsend, hsession]
        rfl
      rw [ih (by rw [hv]; rfl) run, World.mail, World.mail, hv, hsession]
      exact List.append_assoc ..

/-! ## Steps with a record of events -/

theorem post_run {step : HostStep κ ρ} {answer : HostAnswer} {parcels : List Parcel}
    (run : parcel s x step [] w = .ok ((answer, parcels), w')) :
    let left := w.mail.drop (collections parcels).flatten.length
    post s x step w = .ok (⟨step, answer, parcels, w'.mail.drop left.length⟩, w') :=
  Machine.bind_eq_ok.mpr ⟨w, w, rfl, Machine.bind_eq_ok.mpr ⟨(answer, parcels), w', run, rfl⟩⟩

/-- A step other than a frame only lets events arrive. -/
theorem unframed_fits {step : HostStep κ ρ} {answer : HostAnswer} (closed : Bool)
    (unframed : ∀ size, step ≠ .frame size) (opened : w.session.isSome = true)
    (run : take s x step w = .ok (answer, w')) :
    ∃ p, post s x step w = .ok (p, w') ∧ p.step = step ∧ p.answer = answer ∧
      p.Fits closed w.mail w'.mail := by
  have hparcel : parcel s x step [] w = .ok ((answer, []), w') := by
    cases step with
    | frame size => exact absurd rfl (unframed size)
    | setView | onClose | act | close | drop => exact Parcelled.Silent.lift _ run
  refine ⟨_, post_run hparcel, rfl, rfl, ?_⟩
  obtain ⟨sent, hsent⟩ : w.mail <+: w'.mail := take_mailed unframed run
  have hdrop : w'.mail.drop w.mail.length = sent := by rw [← hsent, List.drop_left]
  refine ⟨?_, fun _ size h => absurd h (unframed size), fun _ => rfl, fun _ => rfl, fun _ => rfl,
    fun events h => ?_⟩
  · show w'.mail = w.mail ++ w'.mail.drop w.mail.length
    rw [hdrop, hsent]
  · show w'.mail.drop w.mail.length = events
    obtain rfl : step = .act (.sending events) := h
    obtain ⟨u, v, hsending, hpure⟩ := Machine.bind_eq_ok.mp run
    obtain ⟨-, rfl⟩ := Machine.pure_eq_ok.mp hpure
    rw [sending_run opened hsending, List.drop_left]

/-- A frame collects all the mail unless the host is closed. -/
theorem frame_fits {host : Host (View κ) κ} {answer : HostAnswer}
    (hhost : getHost w = .ok (host, w)) (run : take s x (.frame size) w = .ok (answer, w')) :
    ∃ p, post s x (.frame size) w = .ok (p, w') ∧ p.step = .frame size ∧ p.answer = answer ∧
      p.Fits host.closed w.mail w'.mail := by
  obtain ⟨outcome, v, hframe, hpure⟩ := Machine.bind_eq_ok.mp run
  obtain ⟨rfl, rfl⟩ := Machine.pure_eq_ok.mp hpure
  obtain ⟨parcels, hrun, hclosed, hopen, hshown, hunshown⟩ := frame_parcelled hhost hframe
  have hparcel : parcel s x (.frame size) [] w = .ok ((.framed outcome, parcels), v) :=
    Parcelled.bind_run hrun
  refine ⟨_, post_run hparcel, rfl, rfl, ?_, fun h _ _ => hopen h, ?_, hshown, hunshown, nofun⟩
  · show (collections parcels).flatten ++ v.mail =
      w.mail ++ v.mail.drop (w.mail.drop (collections parcels).flatten.length).length
    cases ended : host.closed with
    | true =>
        -- a refused frame leaves all the mail where it is
        rw [take_frame_of_closed hhost ended size] at run
        cases run
        rw [hclosed ended]
        simp [collections]
    | false =>
        rw [hopen ended]
        simp
  · rintro (h | h)
    · exact hclosed h
    · exact absurd rfl (h size)

/-! ## Runs -/

/-- How a host stands: whether it has been closed, as its ledger tells. -/
def Standing (x : WindowId) (closed : Bool) (w : World κ ρ) : Prop :=
  ∃ l : Ledger (View κ) κ (Task κ), l.Synced w ∧ l.Tallies x w ∧ l.host.closed = closed

/-- A host is closed by the steps that close it, and by no others. -/
theorem take_standing {step : HostStep κ ρ} {answer : HostAnswer} {closed : Bool}
    (h : Standing x closed w) (run : take s x step w = .ok (answer, w')) :
    ∃ closed', Standing x closed' w' ∧ (closed' = true ↔ closed = true ∨ step.Closes) := by
  obtain ⟨l, synced, tally, rfl⟩ := h
  obtain ⟨_, l', hrecord, rfl, synced'⟩ := record_echoes step synced run
  obtain ⟨hturned, htally⟩ := record_turned hrecord tally
  refine ⟨l'.host.closed, ⟨l', synced', htally, rfl⟩, ?_⟩
  by_cases hcloses : step.Closes
  · cases hclosed : l.host.closed with
    | false => simp [(hturned.ended hcloses hclosed).1, hcloses]
    | true =>
        obtain ⟨news, hnews⟩ := hturned.grows
        have hmute := Ledger.Turned.mute (c := ⟨step, answer, news⟩) hturned hnews.symm hclosed
        simp [hmute.1]
  · simp [(hturned.continues hcloses).2.2, hcloses]

omit [Ordered ρ] in
theorem Standing.getHost {closed : Bool} (h : Standing x closed w) :
    ∃ host : Host (View κ) κ, Machine.getHost w = .ok (host, w) ∧ host.closed = closed := by
  obtain ⟨l, synced, -, rfl⟩ := h
  refine ⟨l.host.map (·.2), ?_, rfl⟩
  show Except.ok ((w.session.map (·.host)).getD _, w) = _
  rw [synced]
  rfl

/-- Every step does with events what it may, and answers what it would without a record. -/
theorem take_fits {step : HostStep κ ρ} {answer : HostAnswer} {closed : Bool}
    (h : Standing x closed w) (run : take s x step w = .ok (answer, w')) :
    ∃ p, post s x step w = .ok (p, w') ∧ p.step = step ∧ p.answer = answer ∧
      p.Fits closed w.mail w'.mail := by
  by_cases hframe : ∃ size, step = .frame size
  · obtain ⟨size, rfl⟩ := hframe
    obtain ⟨host, hhost, rfl⟩ := h.getHost
    exact frame_fits hhost run
  · obtain ⟨l, synced, -⟩ := h
    obtain ⟨session, hsession, -⟩ := Option.map_eq_some_iff.mp synced
    refine unframed_fits closed (fun size h => hframe ⟨size, h⟩) ?_ run
    rw [hsession]
    rfl

/-- The induction is on the steps. -/
theorem takeAll_chain {steps : List (HostStep κ ρ)} {answers : List HostAnswer} {closed : Bool}
    (h : Standing x closed w) (run : takeAll s x steps w = .ok (answers, w')) :
    ∃ posts closed', steps.mapM (post s x) w = .ok (posts, w') ∧ posts.map (·.step) = steps ∧
      posts.map (·.answer) = answers ∧ Post.Chain closed w.mail posts closed' w'.mail := by
  induction steps generalizing closed w answers with
  | nil =>
      obtain ⟨rfl, rfl⟩ := Machine.pure_eq_ok.mp run
      exact ⟨[], closed, rfl, rfl, rfl, .nil closed w.mail⟩
  | cons step steps ih =>
      rw [takeAll, List.mapM_cons] at run
      obtain ⟨answer, v, hstep, run⟩ := Machine.bind_eq_ok.mp run
      obtain ⟨others, v', hrest, run⟩ := Machine.bind_eq_ok.mp run
      obtain ⟨rfl, rfl⟩ := Machine.pure_eq_ok.mp run
      obtain ⟨p, hpost, rfl, rfl, hfits⟩ := take_fits h hstep
      obtain ⟨closed₁, hstanding, hends⟩ := take_standing h hstep
      obtain ⟨posts, closed', hposts, rfl, rfl, hchain⟩ := ih hstanding hrest
      refine ⟨p :: posts, closed', ?_, rfl, rfl, .cons hfits hends hchain⟩
      rw [List.mapM_cons]
      exact Machine.bind_eq_ok.mpr ⟨p, v, hpost, Machine.bind_eq_ok.mpr ⟨posts, v', hposts, rfl⟩⟩

/-- Every event that is sent to a host is collected by the next frame, in the order of sending, or
waits for it. A frame that shows a view hands it what was collected; any other frame hands it to
nobody. -/
theorem play_delivers {config : Config} {steps : List (HostStep κ ρ)} {answers : List HostAnswer}
    (run : play s config steps w = .ok (answers, w')) :
    ∃ posts, deliver s config steps w = .ok (posts, w') ∧ posts.map (·.step) = steps ∧
      posts.map (·.answer) = answers ∧ Delivery posts ∧
      posts.flatMap Post.collected ++ w'.mail = posts.flatMap (·.sent) := by
  obtain ⟨w₀, hopen, synced, waiting, queues⟩ := openHost_run config w
  obtain ⟨x, v, opening, run⟩ := Machine.bind_eq_ok.mp run
  rw [hopen] at opening
  cases opening
  have hmail : w₀.mail = [] := by
    cases hopen
    rfl
  have hstanding : Standing ⟨w.windows.size⟩ false w₀ :=
    ⟨{}, synced, ⟨waiting.symm, queues⟩, rfl⟩
  obtain ⟨posts, closed', hposts, hsteps, hanswers, hchain⟩ := takeAll_chain hstanding run
  rw [hmail] at hchain
  exact ⟨posts, Machine.bind_eq_ok.mpr ⟨_, w₀, hopen, hposts⟩, hsteps, hanswers, hchain.delivery,
    hchain.balance⟩

/-- An event is sent to a view that cannot be prepared, and another view is shown after that. -/
def unanswered : List (HostStep Bool Empty) :=
  [.setView { id := "sulking", model := .scripted false },
    .act (.sending [⟨"door", .pointer .press⟩]), .frame Vec.zero,
    .setView { id := "willing", model := .table [] }, .frame Vec.zero]

/-- The frame that fails collects the event. The view that is shown in the next frame is handed
nothing. -/
theorem play_delivers_nobody :
    ∃ (answers : List HostAnswer) (posts : List (Post Bool Empty)) (w : World Bool Empty),
      play .moody {} unanswered {} = .ok (answers, w) ∧
      deliver .moody {} unanswered {} = .ok (posts, w) ∧ Delivery posts ∧
      (posts.flatMap (·.sent)).map (·.target) = ["door"] ∧
      posts.map (fun p => (handings p.parcels).map fun events => events.map (·.target)) =
        [[], [], [], [], [[]]] := by
  obtain ⟨answers, w, hplay⟩ := Machine.exists_eq_ok
    (m := play .moody {} unanswered) (w := {}) (by decide +kernel)
  obtain ⟨posts, hdeliver, -, -, hdelivery, -⟩ := play_delivers hplay
  have hevents : (deliver .moody {} unanswered {}).toOption.map (fun r =>
      ((r.1.flatMap (·.sent)).map (·.target),
        r.1.map fun p => (handings p.parcels).map fun events => events.map (·.target))) =
      some (["door"], [[], [], [], [], [[]]]) := by decide +kernel
  rw [hdeliver] at hevents
  obtain ⟨hsent, hhanded⟩ := Prod.mk.inj (Option.some.inj hevents)
  exact ⟨answers, posts, w, hplay, hdeliver, hdelivery, hsent, hhanded⟩

end HostStep

end Trellis
