import RigWarden.Proofs.Event.Latest

/-!
# Control events

The sink gives up readings only. A control event is lost in one way: it comes upon a queue full of
control events, and its time is over before the sink sees that one of them was taken. Every other
one is received or still in the channel, however long the stream pauses.
-/

namespace RigWarden
namespace Channel

/-- The send under way will find room for all that it puts back. -/
def Roomy (c : Channel) : Prop :=
  match c.sending with
  | .idle => True
  | .offering _ => c.queue.length < c.capacity
  | .pulling _ pulled => pulled.length + c.queue.length < c.capacity
  | .refilling rest => c.queue.length + rest.length ≤ c.capacity
  | .waiting _ _ => False

/-- An event is being sent and nothing was taken of the queue that it came upon. What is put back
does not fit if it came upon a queue full of control events and is one itself. -/
def Undisturbed (found : List Event) (e : Event) (c : Channel) : Prop :=
  match c.sending with
  | .idle => False
  | .offering x => x = e ∧ c.queue = found
  | .pulling x pulled => x = e ∧ pulled ++ c.queue = found ∧ found.length = c.capacity
  | .refilling rest => c.queue ++ rest = found ++ [e] ∧ found.length = c.capacity ∧
      Event.readings (found ++ [e]) = []
  | .waiting x rest => x = e ∧ rest = [] ∧ c.queue = found ∧ found.length = c.capacity ∧
      Event.readings (found ++ [e]) = []

theorem controls_makeRoom (pulled : List Event) (e : Event) :
    Event.controls (makeRoom pulled e).1 = Event.controls (pulled ++ [e]) := by
  cases h : pulled.any Event.isMetrics with
  | true =>
    obtain ⟨older, r, newer, rfl, hold⟩ := Event.exists_oldest h
    simp [makeRoom_of_oldest hold]
  | false =>
    have hnone := Event.readings_eq_nil_iff_any.2 h
    cases e <;> simp [makeRoom_of_controls hnone]

theorem controls_step {c : Channel} (h : c.Laden) :
    Event.controls c.step.contents = Event.controls c.contents := by
  have hopen := h.sinkOpen
  cases hs : c.sending with
  | idle => simp [step, hs]
  | offering e =>
    have hends : c.receivingEnds ≠ 0 := by simp [receivingEnds, hopen (by simp [hs])]
    simp only [step, hs, hends, if_false]
    split <;> simp [contents, hs, push]
  | pulling e pulled =>
    cases hq : c.queue with
    | nil => simp [step, contents, hs, hq, controls_makeRoom]
    | cons first queue => simp [step, contents, hs, hq]
  | refilling rest =>
    cases rest with
    | nil => simp [step, contents, hs]
    | cons e rest =>
      simp only [step, hs]
      split <;> simp [contents, hs, push]
  | waiting e rest =>
    simp only [step, hs]
    split <;> simp [contents, hs, push]

variable {c : Channel} {found : List Event} {e : Event}

theorem Roomy.step (h : c.Roomy) : c.step.Roomy := by
  cases hs : c.sending with
  | idle => simp [Roomy, Channel.step, hs]
  | offering x =>
    simp only [Roomy, hs] at h
    simp only [Channel.step, hs, hasRoom, h, decide_true, if_true]
    split <;> trivial
  | pulling x pulled =>
    simp only [Roomy, hs] at h
    cases hq : c.queue with
    | nil =>
      have hlen := (makeRoom_sublist pulled x).length_le
      have hdrop : (dropOldest pulled).length ≤ pulled.length := List.eraseP_sublist.length_le
      rw [hq] at h
      simp only [Roomy, Channel.step, hs, hq]
      simp at h hlen ⊢
      omega
    | cons first queue =>
      rw [hq] at h
      simp [Roomy, Channel.step, hs, hq] at h ⊢
      omega
  | refilling rest =>
    simp only [Roomy, hs] at h
    cases rest with
    | nil => simp [Roomy, Channel.step, hs]
    | cons x rest =>
      rw [List.length_cons] at h
      have hroom : c.hasRoom = true := decide_eq_true (by omega)
      simp [Roomy, Channel.step, hs, hroom, push]
      omega
  | waiting x rest => simp [Roomy, hs] at h

theorem Roomy.tail (h : c.Roomy) {queue : List Event} (hq : c.queue = e :: queue) :
    Roomy { c with queue := queue } := by
  cases hs : c.sending <;> simp only [Roomy, hs, hq, List.length_cons] at h ⊢ <;> omega

/-- Putting back what was pulled out fits, unless all of it is control events and one too many. -/
theorem makeRoom_cases (pulled : List Event) (e : Event) :
    (makeRoom pulled e).1.length ≤ pulled.length ∨
      (makeRoom pulled e).1 = pulled ++ [e] ∧ Event.readings (pulled ++ [e]) = [] := by
  cases h : pulled.any Event.isMetrics with
  | true =>
    obtain ⟨older, r, newer, rfl, hold⟩ := Event.exists_oldest h
    exact .inl (by simp [makeRoom_of_oldest hold])
  | false =>
    have hnone := Event.readings_eq_nil_iff_any.2 h
    cases e with
    | metrics r => exact .inl (by simp [makeRoom_of_controls hnone])
    | control k => exact .inr (by simp [makeRoom_of_controls hnone, hnone])

theorem Undisturbed.step (h : c.Undisturbed found e) (hf : c.Fits c.capacity) :
    c.step.Undisturbed found e ∨ c.step.Roomy := by
  have hlen := hf.length_le
  cases hs : c.sending with
  | idle => simp [Undisturbed, hs] at h
  | offering x =>
    simp only [Undisturbed, hs] at h
    obtain ⟨rfl, rfl⟩ := h
    simp only [Channel.step, hs]
    split
    · exact .inr trivial
    · split
      · exact .inr trivial
      next hfull =>
        simp [hasRoom] at hfull
        simp only [held, hs] at hlen
        exact .inl ⟨rfl, rfl, Nat.le_antisymm (by simpa using hlen) hfull⟩
  | pulling x pulled =>
    simp only [Undisturbed, hs] at h
    obtain ⟨rfl, hsplit, hfull⟩ := h
    cases hq : c.queue with
    | nil =>
      rw [hq, List.append_nil] at hsplit
      subst hsplit
      simp only [Undisturbed, Roomy, Channel.step, hs, hq, List.nil_append]
      rcases makeRoom_cases pulled x with hle | ⟨hrest, hnone⟩
      · exact .inr (by simpa [hfull] using hle)
      · exact .inl ⟨hrest, hfull, hnone⟩
    | cons first queue =>
      rw [hq] at hsplit
      simp only [Undisturbed, Channel.step, hs, hq]
      exact .inl ⟨trivial, by simpa using hsplit, hfull⟩
  | refilling rest =>
    simp only [Undisturbed, hs] at h
    obtain ⟨hsplit, hfull, hnone⟩ := h
    cases rest with
    | nil => exact .inr (by simp [Roomy, Channel.step, hs])
    | cons x rest =>
      refine .inl ?_
      simp only [Channel.step, hs]
      split
      · exact ⟨by simpa [push] using hsplit, hfull, hnone⟩
      next hroom =>
        -- The queue is full again, so only the event itself is left.
        have hcount := congrArg List.length hsplit
        simp [hasRoom] at hroom
        simp only [List.length_append, List.length_cons, List.length_nil] at hcount
        obtain rfl : rest = [] := List.length_eq_zero_iff.1 (by omega)
        obtain ⟨hqueue, hlast⟩ := List.append_inj' hsplit rfl
        exact ⟨(List.cons.inj hlast).1, rfl, hqueue, hfull, hnone⟩
  | waiting x rest =>
    have hroom : c.hasRoom = false := by
      simp only [Undisturbed, hs] at h
      obtain ⟨-, -, rfl, hfull, -⟩ := h
      simp [hasRoom, hfull]
    refine .inl ?_
    have hstep : c.step = c := by simp [Channel.step, hs, hroom]
    rwa [hstep]

/-- When one event of the queue is taken there is room for all that is put back. -/
theorem Undisturbed.tail (h : c.Undisturbed found e) (hf : c.Fits c.capacity) {x : Event}
    {queue : List Event} (hq : c.queue = x :: queue) :
    Roomy { c with queue := queue } ∨ c.sending = .waiting e [] ∧ queue.length < c.capacity := by
  have hlen := hf.length_le
  cases hs : c.sending with
  | idle => simp [Undisturbed, hs] at h
  | offering y =>
    simp only [held, hs, hq, List.length_nil, List.length_cons] at hlen
    exact .inl (by simp only [Roomy]; omega)
  | pulling y pulled =>
    simp only [held, hs, hq, List.length_cons] at hlen
    exact .inl (by simp only [Roomy]; omega)
  | refilling rest =>
    simp only [Undisturbed, hs] at h
    have hcount := congrArg List.length h.1
    simp only [hq, List.length_append, List.length_cons, List.length_nil] at hcount
    exact .inl (by simp only [Roomy]; omega)
  | waiting y rest =>
    simp only [Undisturbed, hs] at h
    obtain ⟨rfl, rfl, -⟩ := h
    simp [held, hs, hq] at hlen
    exact .inr ⟨rfl, by omega⟩

end Channel

namespace Delivery

/-- The event given up because its time is over. -/
def timedOutIn (d : Delivery) : Step → List Event
  | .expire =>
    match d.channel.sending with
    | .waiting e _ => [e]
    | _ => []
  | _ => []

/-- The events given up in a run because their time was over. -/
def timedOut (d : Delivery) : List Step → List Event
  | [] => []
  | a :: steps => d.timedOutIn a ++ (d.step a).timedOut steps

/-- A control event that was sent is received, in the channel or lost. -/
def KeepsControls (d : Delivery) (lost : List Event) : Prop :=
  (Event.controls (d.received ++ d.channel.contents ++ lost)).Perm (Event.controls d.sent)

theorem controls_expire (d : Delivery) :
    ((d.step .expire).channel.contents ++ d.timedOutIn .expire).Perm d.channel.contents := by
  cases hs : d.channel.sending with
  | waiting e rest =>
    simp only [step, timedOutIn, Channel.expire, Channel.contents, hs, List.append_assoc]
    exact (@List.perm_append_comm _ rest [e]).append_left _
  | idle | offering | pulling | refilling => simp [step, timedOutIn, Channel.expire, hs]

/-- A step sends an event or leaves as many control events of each kind as there were. -/
theorem controls_cases {d : Delivery} (h : d.channel.Laden) (a : Step) :
    (∃ e, (d.step a).sent = d.sent ++ [e] ∧ (d.step a).received = d.received ∧
      (d.step a).channel.contents = d.channel.contents ++ [e] ∧ d.timedOutIn a = []) ∨
    ((d.step a).sent = d.sent ∧
      (Event.controls ((d.step a).received ++ (d.step a).channel.contents ++ d.timedOutIn a)).Perm
        (Event.controls (d.received ++ d.channel.contents))) := by
  cases a with
  | send e =>
    simp only [step]
    split
    next hs _ => exact .inl ⟨e, rfl, rfl, Channel.contents_offer hs e, rfl⟩
    next => exact .inr ⟨rfl, by simp [timedOutIn]⟩
  | sink =>
    refine .inr ⟨rfl, ?_⟩
    simp [step, timedOutIn, Channel.controls_step h]
  | expire =>
    refine .inr ⟨rfl, ?_⟩
    rw [List.append_assoc]
    exact (d.controls_expire.append_left d.received).filterMap _
  | receive =>
    rcases d.step_receive with hr | ⟨e, queue, _, hq, hr⟩
    · exact .inr ⟨by rw [hr], by simp [hr, timedOutIn]⟩
    · obtain ⟨before, after, hc, hc'⟩ := Channel.contents_of_queue hq
      refine .inr ⟨by rw [hr], ?_⟩
      have hnone : d.timedOutIn .receive = [] := rfl
      rw [hnone, hr, hc, hc', List.append_nil, List.append_assoc]
      exact ((@List.perm_middle _ e before after).symm.append_left d.received).filterMap _
  | closeSink =>
    refine .inr ?_
    simp only [step]
    split
    next hs => exact ⟨rfl, by simp [timedOutIn, Channel.contents, Channel.closeSink, hs]⟩
    next => exact ⟨rfl, by simp [timedOutIn]⟩
  | closeStream => exact .inr ⟨rfl, by simp [step, timedOutIn, Channel.contents, Channel.closeStream]⟩

theorem KeepsControls.step {d : Delivery} {lost : List Event} (h : d.KeepsControls lost)
    (hl : d.channel.Laden) (a : Step) : (d.step a).KeepsControls (lost ++ d.timedOutIn a) := by
  refine List.perm_iff_count.2 fun k => ?_
  have hcount := h.count_eq k
  rcases controls_cases hl a with ⟨e, hs, hr, hc, ht⟩ | ⟨hs, hp⟩
  · simp only [hs, hr, hc, ht, Event.controls_append, List.count_append, List.append_nil]
      at hcount ⊢
    omega
  · have hkept := hp.count_eq k
    simp only [hs, Event.controls_append, List.count_append] at hcount hkept ⊢
    omega

theorem KeepsControls.run {d : Delivery} {lost : List Event} (h : d.KeepsControls lost)
    (hl : d.channel.Laden) (steps : List Step) :
    (d.run steps).KeepsControls (lost ++ d.timedOut steps) := by
  induction steps generalizing d lost with
  | nil => simpa [timedOut] using h
  | cons a steps ih =>
    rw [run_cons, timedOut, ← List.append_assoc]
    exact ih (h.step hl a) (laden_step hl a)

theorem mem_timedOut {d : Delivery} {steps : List Step} {e : Event} (h : e ∈ d.timedOut steps) :
    ∃ before rest after, steps = before ++ .expire :: after ∧
      (d.run before).channel.sending = .waiting e rest := by
  induction steps generalizing d with
  | nil => cases h
  | cons a steps ih =>
    rcases List.mem_append.1 h with hin | hlater
    · cases a with
      | expire =>
        simp only [timedOutIn] at hin
        split at hin
        next x rest hs =>
          obtain rfl := List.mem_singleton.1 hin
          exact ⟨[], rest, steps, rfl, hs⟩
        next => cases hin
      | send | sink | receive | closeSink | closeStream => cases hin
    · obtain ⟨before, rest, after, rfl, hs⟩ := ih hlater
      exact ⟨a :: before, rest, after, rfl, hs⟩

theorem capacity_step (d : Delivery) (a : Step) :
    (d.step a).channel.capacity = d.channel.capacity := by
  cases a with
  | sink => exact d.channel.capacity_step
  | receive => rcases d.step_receive with hr | ⟨e, queue, _, _, hr⟩ <;> rw [hr]
  | closeStream => rfl
  | send | expire | closeSink =>
    simp only [step, Channel.expire]
    split <;> rfl

theorem capacity_run (capacity : Nat) (steps : List Step) :
    ((start capacity).run steps).channel.capacity = max capacity 1 := by
  induction steps using List.reverseRecOn with
  | nil => rfl
  | append_singleton steps a ih => rw [run_append, run_cons, run_nil, capacity_step, ih]

/-- While a send is under way only the sink, its clock and a receive change something. -/
theorem busy_cases {d : Delivery} (hs : d.channel.sending ≠ .idle) (a : Step) :
    a = .sink ∨ a = .expire ∨
    (a = .receive ∧ ∃ e queue, d.channel.queue = e :: queue ∧ d.step a =
      { d with channel := { d.channel with queue := queue }, received := d.received ++ [e] }) ∨
    (a ≠ .sink ∧ ∃ streamOpen,
      d.step a = { d with channel := { d.channel with streamOpen := streamOpen } }) := by
  cases a with
  | sink => exact .inl rfl
  | expire => exact .inr (.inl rfl)
  | receive =>
    rcases d.step_receive with hr | ⟨e, queue, _, hq, hr⟩
    · exact .inr (.inr (.inr ⟨by simp, _, hr⟩))
    · exact .inr (.inr (.inl ⟨rfl, e, queue, hq, hr⟩))
  | send e => exact .inr (.inr (.inr ⟨by simp, d.channel.streamOpen, by simp [step, hs]⟩))
  | closeSink => exact .inr (.inr (.inr ⟨by simp, d.channel.streamOpen, by simp [step]⟩))
  | closeStream => exact .inr (.inr (.inr ⟨by simp, false, rfl⟩))

/-- An event is being sent to the queue that it came upon, of which nothing was taken since. -/
structure Unmet (capacity : Nat) (before between : List Step) (e : Event) : Prop where
  idle : ((start capacity).run before).channel.sending = .idle
  received : ((start capacity).run (before ++ .send e :: between)).received =
    ((start capacity).run before).received
  undisturbed : ((start capacity).run (before ++ .send e :: between)).channel.Undisturbed
    ((start capacity).run before).channel.queue e

/-- Of that queue something was taken while the event waits, and the sink has not looked since. -/
structure Unseen (capacity : Nat) (before between late : List Step) (e : Event) : Prop extends
    Unmet capacity before between e where
  waiting : ((start capacity).run (before ++ .send e :: between)).channel.sending = .waiting e []
  quiet : .sink ∉ late
  still : ((start capacity).run (before ++ .send e :: between ++ late)).channel.sending =
    .waiting e []
  room : ((start capacity).run (before ++ .send e :: between ++ late)).channel.queue.length <
    max capacity 1

/-- How the send under way stands to the queue that its event came upon. -/
inductive Standing (capacity : Nat) : List Step → Prop
  | roomy {steps : List Step} (h : ((start capacity).run steps).channel.Roomy) :
      Standing capacity steps
  | unmet {before between : List Step} {e : Event} (h : Unmet capacity before between e) :
      Standing capacity (before ++ .send e :: between)
  | unseen {before between late : List Step} {e : Event}
      (h : Unseen capacity before between late e) :
      Standing capacity (before ++ .send e :: between ++ late)

theorem run_snoc (d : Delivery) (steps : List Step) (a : Step) :
    d.run (steps ++ [a]) = (d.run steps).step a := by
  rw [run_append, run_cons, run_nil]

section standing

variable {capacity : Nat} {steps before between late : List Step} {e : Event}

theorem Unmet.ne_idle (h : Unmet capacity before between e) :
    ((start capacity).run (before ++ .send e :: between)).channel.sending ≠ .idle := fun hs => by
  simpa only [Channel.Undisturbed, hs] using h.undisturbed

theorem standing_of_roomy (h : ((start capacity).run steps).channel.Roomy) (a : Step) :
    Standing capacity (steps ++ [a]) := by
  have hsame (heq : ((start capacity).run steps).step a = (start capacity).run steps) :
      Standing capacity (steps ++ [a]) := .roomy (by rwa [run_snoc, heq])
  cases a with
  | send e =>
    cases hs : ((start capacity).run steps).channel.sending with
    | idle =>
      cases ho : ((start capacity).run steps).channel.sinkOpen with
      | false => exact hsame (by simp [step, hs, ho])
      | true =>
        have hrun : (start capacity).run (steps ++ [.send e]) =
            { (start capacity).run steps with
              channel := ((start capacity).run steps).channel.offer e
              sent := ((start capacity).run steps).sent ++ [e] } := by
          simp [run_snoc, step, hs, ho]
        exact .unmet ⟨hs, by rw [hrun], by rw [hrun]; exact ⟨rfl, rfl⟩⟩
    | offering | pulling | refilling | waiting => exact hsame (by simp [step, hs])
  | sink => exact .roomy (by rw [run_snoc]; exact h.step)
  | expire =>
    cases hs : ((start capacity).run steps).channel.sending with
    | waiting e rest => simp only [Channel.Roomy, hs] at h
    | idle | offering | pulling | refilling => exact hsame (by simp [step, Channel.expire, hs])
  | receive =>
    rcases ((start capacity).run steps).step_receive with hr | ⟨e, queue, _, hq, hr⟩
    · exact hsame hr
    · exact .roomy (by rw [run_snoc, hr]; exact h.tail hq)
  | closeSink =>
    cases hs : ((start capacity).run steps).channel.sending with
    | idle => exact .roomy (by simp [run_snoc, step, hs, Channel.closeSink, Channel.Roomy])
    | offering | pulling | refilling | waiting => exact hsame (by simp [step, hs])
  | closeStream => exact .roomy (by rw [run_snoc]; exact h)

theorem standing_of_unmet (h : Unmet capacity before between e) (a : Step) :
    Standing capacity (before ++ .send e :: between ++ [a]) := by
  obtain ⟨hl, -⟩ := conserved_run capacity (before ++ .send e :: between)
  have hfits := hl.fits
  have hassoc : before ++ .send e :: between ++ [a] = before ++ .send e :: (between ++ [a]) := by
    simp
  rcases busy_cases h.ne_idle a with rfl | rfl | ⟨rfl, x, queue, hq, hr⟩ | ⟨hne, streamOpen, hr⟩
  · rcases h.undisturbed.step hfits with hu | hroomy
    · rw [hassoc]
      refine .unmet ⟨h.idle, ?_, ?_⟩ <;> rw [← hassoc, run_snoc]
      · exact h.received
      · exact hu
    · exact .roomy (by rw [run_snoc]; exact hroomy)
  · cases hs : ((start capacity).run (before ++ .send e :: between)).channel.sending with
    | waiting x rest =>
      have hu := h.undisturbed
      simp only [Channel.Undisturbed, hs] at hu
      obtain ⟨-, rfl, hqueue, hfull, -⟩ := hu
      refine .roomy ?_
      rw [run_snoc]
      simp [step, Channel.expire, hs, Channel.Roomy, hqueue, hfull]
    | idle => exact absurd hs h.ne_idle
    | offering | pulling | refilling =>
      have hsame : ((start capacity).run (before ++ .send e :: between)).step .expire =
          (start capacity).run (before ++ .send e :: between) := by
        simp [step, Channel.expire, hs]
      rw [hassoc]
      refine .unmet ⟨h.idle, ?_, ?_⟩ <;> rw [← hassoc, run_snoc, hsame]
      · exact h.received
      · exact h.undisturbed
  · rcases h.undisturbed.tail hfits hq with hroomy | ⟨hs, hroom⟩
    · exact .roomy (by rw [run_snoc, hr]; exact hroomy)
    · rw [capacity_run] at hroom
      refine .unseen ⟨h, hs, by simp, ?_, ?_⟩ <;> rw [run_snoc, hr]
      · exact hs
      · exact hroom
  · rw [hassoc]
    refine .unmet ⟨h.idle, ?_, ?_⟩ <;> rw [← hassoc, run_snoc, hr]
    · exact h.received
    · exact h.undisturbed

theorem standing_of_unseen (h : Unseen capacity before between late e) (a : Step) :
    Standing capacity (before ++ .send e :: between ++ late ++ [a]) := by
  have hcap := capacity_run capacity (before ++ .send e :: between ++ late)
  have hassoc : before ++ .send e :: between ++ late ++ [a] =
      before ++ .send e :: between ++ (late ++ [a]) := List.append_assoc _ _ _
  have hbusy : ((start capacity).run (before ++ .send e :: between ++ late)).channel.sending ≠
      .idle := by
    rw [h.still]
    simp
  rcases busy_cases hbusy a with rfl | rfl | ⟨rfl, x, queue, hq, hr⟩ | ⟨hne, streamOpen, hr⟩
  · have hroom : ((start capacity).run (before ++ .send e :: between ++ late)).channel.hasRoom =
        true := decide_eq_true (hcap ▸ h.room)
    refine .roomy ?_
    rw [run_snoc]
    simp only [step, Channel.step, h.still, hroom, if_true, Channel.Roomy, Channel.push, hcap,
      List.length_append]
    exact h.room
  · refine .roomy ?_
    rw [run_snoc]
    simp only [step, Channel.expire, h.still, Channel.Roomy, hcap]
    exact Nat.le_of_lt h.room
  · have hroom := h.room
    rw [hq] at hroom
    rw [hassoc]
    refine .unseen ⟨h.toUnmet, h.waiting, by simp [h.quiet], ?_, ?_⟩ <;>
      rw [← hassoc, run_snoc, hr]
    · exact h.still
    · exact Nat.lt_of_succ_lt hroom
  · rw [hassoc]
    refine .unseen ⟨h.toUnmet, h.waiting, by simp [h.quiet, hne.symm], ?_, ?_⟩ <;>
      rw [← hassoc, run_snoc, hr]
    · exact h.still
    · exact h.room

theorem standing_run (capacity : Nat) (steps : List Step) : Standing capacity steps := by
  induction steps using List.reverseRecOn with
  | nil => exact .roomy trivial
  | append_singleton steps a ih =>
    cases ih with
    | roomy h => exact standing_of_roomy h a
    | unmet h => exact standing_of_unmet h a
    | unseen h => exact standing_of_unseen h a

theorem Unmet.blocked (h : Unmet capacity before between e) {x : Event} {rest : List Event}
    (hs : ((start capacity).run (before ++ .send e :: between)).channel.sending =
      .waiting x rest) :
    e.isMetrics = false ∧ x = e ∧ Blocked capacity ((start capacity).run before) []
      ((start capacity).run (before ++ .send e :: between)) := by
  have hu := h.undisturbed
  simp only [Channel.Undisturbed, hs, capacity_run] at hu
  obtain ⟨rfl, -, hqueue, hfull, hnone⟩ := hu
  rw [Event.readings_eq_nil_iff] at hnone
  refine ⟨hnone x (by simp), rfl, h.idle, ?_, hfull, hqueue.symm, ?_⟩
  · exact Event.readings_eq_nil_iff.2 fun y hy => hnone y (List.mem_append_left _ hy)
  · rw [h.received, List.append_nil]

/-- An event that waits is a control event that came upon a queue full of control events, and of
those the sink has seen none taken. -/
theorem blocked_of_waiting {rest : List Event}
    (hs : ((start capacity).run steps).channel.sending = .waiting e rest) :
    e.isMetrics = false ∧ ∃ before between late, steps = before ++ .send e :: between ++ late ∧
      .sink ∉ late ∧ Blocked capacity ((start capacity).run before) []
        ((start capacity).run (before ++ .send e :: between)) := by
  cases standing_run capacity steps with
  | roomy h => simp only [Channel.Roomy, hs] at h
  | unmet h =>
    obtain ⟨hk, rfl, hb⟩ := h.blocked hs
    exact ⟨hk, _, _, [], (List.append_nil _).symm, by simp, hb⟩
  | unseen h =>
    obtain rfl : _ = e := (Sending.waiting.inj (h.still.symm.trans hs)).1
    obtain ⟨hk, -, hb⟩ := h.toUnmet.blocked h.waiting
    exact ⟨hk, _, _, _, rfl, h.quiet, hb⟩

end standing

/-- Every control event that was sent is received, in the channel, or was given up when its time was
over. That happens only to one that came upon a queue full of control events and nothing else, of
which none was taken before the sink looked for room the last time. -/
theorem controls_kept (capacity : Nat) (steps : List Step) :
    (Event.controls (((start capacity).run steps).received ++
        ((start capacity).run steps).channel.contents ++ (start capacity).timedOut steps)).Perm
      (Event.controls ((start capacity).run steps).sent) ∧
    (((start capacity).run steps).channel.sending = .idle →
      ((start capacity).run steps).channel.contents =
        ((start capacity).run steps).channel.queue) ∧
    (∀ e ∈ (start capacity).timedOut steps, e.isMetrics = false ∧ ∃ before between late after,
      steps = before ++ .send e :: between ++ late ++ .expire :: after ∧ .sink ∉ late ∧
      Blocked capacity ((start capacity).run before) []
        ((start capacity).run (before ++ .send e :: between))) := by
  refine ⟨?_, fun hs => by simp only [Channel.contents, hs], fun e he => ?_⟩
  · have hstart : (start capacity).KeepsControls [] := List.Perm.refl _
    have hrun := hstart.run (laden_start capacity) steps
    rwa [List.nil_append] at hrun
  · obtain ⟨before, rest, after, rfl, hs⟩ := mem_timedOut he
    obtain ⟨hk, first, between, late, rfl, hquiet, hb⟩ := blocked_of_waiting hs
    exact ⟨hk, first, between, late, after, rfl, hquiet, hb⟩

/-- The stream pauses until the time of the second event is over. -/
def pausing : List Step :=
  fill [.control (.restarted 1)] ++ .send (.control .stopped) :: List.replicate 6 .sink ++
    [.expire, .sink, .receive, .receive]

theorem controls_kept_pausing :
    (start 1).timedOut pausing = [.control .stopped] ∧
      ((start 1).run pausing).received = [.control (.restarted 1)] ∧
      ∃ before between late after,
        pausing = before ++ .send (.control .stopped) :: between ++ late ++ .expire :: after ∧
        .sink ∉ late ∧ Blocked 1 ((start 1).run before) []
          ((start 1).run (before ++ .send (.control .stopped) :: between)) := by
  have hlost : (start 1).timedOut pausing = [.control .stopped] := rfl
  obtain ⟨-, -, hblocked⟩ := controls_kept 1 pausing
  exact ⟨hlost, rfl, (hblocked (.control .stopped) (by simp [hlost])).2⟩

theorem not_always_kept : ¬ ∀ (capacity : Nat) (steps : List Step),
    ((start capacity).run steps).channel.streamOpen = true →
    ((start capacity).run steps).channel.sending = .idle →
    (Event.controls (((start capacity).run steps).received ++
      ((start capacity).run steps).channel.queue)).Perm
        (Event.controls ((start capacity).run steps).sent) := by
  intro h
  have hlength := (h 1 pausing rfl rfl).length_eq
  exact absurd hlength (by decide)

end Delivery
end RigWarden
