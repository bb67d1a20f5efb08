import RigWarden.Proofs.Event.Delivery

/-!
# Whole sends

Here the stream takes events between two sends, and from a send that waits for room, but never
while the sink has events in its hand. A send then puts its event at the end of the queue, in place
of the oldest reading if there is no room; where there are only control events it drops a reading
and waits with a control event.
-/

namespace RigWarden

namespace Channel

/-- Between two sends, or in one that waits for room for a control event. -/
structure AtRest (c : Channel) : Prop where
  sinkOpen : c.sinkOpen = true
  length_le : c.queue.length ≤ c.capacity
  sending : c.sending = .idle ∨ ∃ k, c.sending = .waiting (.control k) []

theorem atRest_new (capacity : Nat) : (new capacity).AtRest := ⟨rfl, Nat.zero_le _, .inl rfl⟩

theorem steps_of_step_eq {c : Channel} (h : c.step = c) (n : Nat) : c.steps n = c := by
  induction n with
  | zero => rfl
  | succ n ih => rw [steps_succ, h, ih]

theorem steps_pull (c : Channel) (e : Event) (pulled first queue : List Event) (n : Nat) :
    steps (first.length + n) { c with queue := first ++ queue, sending := .pulling e pulled } =
      steps n { c with queue := queue, sending := .pulling e (pulled ++ first) } := by
  induction first generalizing pulled with
  | nil => simp
  | cons x first ih =>
    rw [List.length_cons, Nat.succ_add, steps_succ]
    have h := ih (pulled ++ [x])
    rw [List.append_assoc, List.singleton_append] at h
    exact h

theorem steps_refill (c : Channel) {queue rest : List Event}
    (h : queue.length + rest.length ≤ c.capacity) (more : List Event) (n : Nat) :
    steps (rest.length + n) { c with queue := queue, sending := .refilling (rest ++ more) } =
      steps n { c with queue := queue ++ rest, sending := .refilling more } := by
  induction rest generalizing queue with
  | nil => simp
  | cons x rest ih =>
    rw [List.length_cons] at h
    have hroom : queue.length < c.capacity := by omega
    have hfits : (queue ++ [x]).length + rest.length ≤ c.capacity := by simp; omega
    have hnext := ih hfits
    rw [List.append_assoc, List.singleton_append] at hnext
    rw [List.length_cons, Nat.succ_add, steps_succ, ← hnext]
    simp [step, hasRoom, push, hroom]

theorem steps_refilled (c : Channel) (n : Nat) :
    steps (n + 1) { c with sending := .refilling [] } = { c with sending := .idle } :=
  steps_idle n rfl

variable {c : Channel}

theorem settle_idle (h : c.sending = .idle) : c.settle = c := steps_idle _ h

theorem expire_idle (h : c.sending = .idle) : c.expire = c := by simp [expire, h]

theorem settle_refilled (h : c.sending = .refilling []) :
    c.settle = { c with sending := .idle } := by
  have hstep : c.step = { c with sending := .idle } := by simp [step, h]
  rw [settle, steps_succ, hstep]
  exact steps_idle _ rfl

theorem settle_offer_of_hasRoom (ho : c.sinkOpen = true) (hr : c.hasRoom = true) (e : Event) :
    (c.offer e).settle = { c with queue := c.queue ++ [e], sending := .idle } := by
  have hstep : (c.offer e).step = { c with queue := c.queue ++ [e], sending := .idle } := by
    have hroom : (c.offer e).hasRoom = true := hr
    simp [step, offer, receivingEnds, ho, push, hasRoom] at hroom ⊢
    omega
  rw [settle, steps_succ, hstep, steps_idle _ rfl]

/-- A full queue is pulled out as a whole before anything is put back. -/
theorem settle_offer_of_full (ho : c.sinkOpen = true) (hf : c.hasRoom = false) (e : Event) :
    (c.offer e).settle = steps (c.queue.length + 4)
      { c with
        queue := []
        dropped := c.dropped + (makeRoom c.queue e).2
        sending := .refilling (makeRoom c.queue e).1 } := by
  have hstep : (c.offer e).step = { c with queue := c.queue ++ [], sending := .pulling e [] } := by
    have hfull : (c.offer e).hasRoom = false := hf
    rw [List.append_nil]
    simp [step, offer, receivingEnds, ho, hasRoom] at hfull ⊢
    omega
  have hpull := steps_pull c e [] c.queue [] (c.queue.length + 4 + 1)
  rw [List.nil_append] at hpull
  have hcount : 2 * (c.offer e).queue.length + 5 = c.queue.length + (c.queue.length + 4 + 1) := by
    change 2 * c.queue.length + 5 = _
    omega
  rw [settle, steps_succ, hstep, hcount, hpull]
  rfl

theorem refill_all {rest : List Event} {lost n : Nat} (hl : rest.length ≤ c.capacity)
    (hn : rest.length < n) :
    steps n { c with queue := [], dropped := c.dropped + lost, sending := .refilling rest } =
      { c with queue := rest, dropped := c.dropped + lost, sending := .idle } := by
  obtain ⟨k, rfl⟩ := Nat.exists_eq_add_of_lt hn
  have hfits : ([] : List Event).length + rest.length ≤ c.capacity := by simpa using hl
  have h := steps_refill { c with dropped := c.dropped + lost } hfits [] (k + 1)
  rw [List.append_nil, List.nil_append] at h
  exact h.trans (steps_refilled { c with queue := rest, dropped := c.dropped + lost } k)

theorem settle_offer_of_reading (h : c.AtRest) (hf : c.hasRoom = false) {older newer : List Event}
    {r : Reading} (hq : c.queue = older ++ .metrics r :: newer)
    (hold : Event.readings older = []) (e : Event) :
    (c.offer e).settle =
      { c with queue := older ++ newer ++ [e], dropped := c.dropped + 1, sending := .idle } := by
  have hmake : makeRoom c.queue e = (older ++ newer ++ [e], 1) := by
    rw [hq, makeRoom_of_oldest hold]
  have hlen : (older ++ newer ++ [e]).length = c.queue.length := by simp [hq]
  rw [settle_offer_of_full h.sinkOpen hf]
  simp only [hmake]
  exact refill_all (hlen ▸ h.length_le) (by omega)

theorem settle_offer_of_controls (h : c.AtRest) (hf : c.hasRoom = false)
    (hq : Event.readings c.queue = []) (r : Reading) :
    (c.offer (.metrics r)).settle = { c with dropped := c.dropped + 1, sending := .idle } := by
  have hmake : makeRoom c.queue (.metrics r) = (c.queue, 1) := makeRoom_of_controls hq _
  rw [settle_offer_of_full h.sinkOpen hf]
  simp only [hmake]
  exact refill_all h.length_le (by omega)

theorem settle_offer_control (h : c.AtRest) (hf : c.hasRoom = false)
    (hq : Event.readings c.queue = []) (k : Control) :
    (c.offer (.control k)).settle = { c with sending := .waiting (.control k) [] } := by
  have hmake : makeRoom c.queue (.control k) = (c.queue ++ [.control k], 0) :=
    makeRoom_of_controls hq _
  have hfits : ([] : List Event).length + c.queue.length ≤ c.capacity := by simpa using h.length_le
  have hfill := steps_refill c hfits [.control k] 4
  rw [List.nil_append] at hfill
  have hfull : ¬ c.queue.length < c.capacity := of_decide_eq_false hf
  rw [settle_offer_of_full h.sinkOpen hf]
  simp only [hmake]
  refine hfill.trans ?_
  -- One step more finds no room, and from there on none changes anything.
  rw [steps_succ]
  simp only [step, hasRoom, hfull, decide_false, Bool.false_eq_true, if_false]
  exact steps_of_step_eq (by simp [step, hasRoom, hfull]) 3

theorem settle_waiting_of_hasRoom {e : Event} (hs : c.sending = .waiting e [])
    (hr : c.hasRoom = true) :
    c.settle = { c with queue := c.queue ++ [e], sending := .idle } := by
  have hstep : c.step = { c with queue := c.queue ++ [e], sending := .refilling [] } := by
    simp [step, hs, hr, push]
  rw [settle, steps_succ, hstep, steps_succ]
  exact steps_idle _ rfl

theorem settle_waiting_of_full {e : Event} (hs : c.sending = .waiting e [])
    (hf : c.hasRoom = false) : c.settle = c :=
  steps_of_step_eq (by simp [step, hs, hf]) _

end Channel

namespace Delivery

inductive Turn where
  /-- A send goes on until it is done or has to wait. -/
  | send (e : Event)
  | receive
  /-- A send that waits looks for room again. -/
  | look
  /-- The time of a send that waits is over. -/
  | timeOut

def turn (d : Delivery) : Turn → Delivery
  | .send e =>
    match d.channel.sending with
    | .idle => { d.step (.send e) with channel := (d.step (.send e)).channel.settle }
    | _ => d
  | .receive => d.step .receive
  | .look => { d with channel := d.channel.settle }
  | .timeOut => { d with channel := d.channel.settle.expire.settle }

def turns (d : Delivery) (ts : List Turn) : Delivery := ts.foldl turn d

@[simp] theorem turns_nil (d : Delivery) : d.turns [] = d := rfl

@[simp] theorem turns_snoc (d : Delivery) (ts : List Turn) (t : Turn) :
    d.turns (ts ++ [t]) = (d.turns ts).turn t := by
  simp [turns]

/-- There is nothing to do in a turn. -/
def Void (d : Delivery) : Turn → Prop
  | .send _ => d.channel.sending ≠ .idle
  | .receive => d.channel.queue = []
  | .look => d.channel.sending = .idle ∨ d.channel.hasRoom = false
  | .timeOut => d.channel.sending = .idle

/-- What can come of a turn. -/
inductive Outcome (d : Delivery) : Turn → Delivery → Prop
  | void {t : Turn} (h : d.Void t) : Outcome d t d
  | queued {e : Event} (idle : d.channel.sending = .idle) (room : d.channel.hasRoom = true) :
      Outcome d (.send e)
        (amid d.channel (d.channel.queue ++ [e]) .idle (d.sent ++ [e]) d.received)
  | replaced {e : Event} {older newer : List Event} {r : Reading}
      (idle : d.channel.sending = .idle) (full : d.channel.hasRoom = false)
      (split : d.channel.queue = older ++ .metrics r :: newer)
      (oldest : Event.readings older = []) :
      Outcome d (.send e)
        (amid { d.channel with dropped := d.channel.dropped + 1 } (older ++ newer ++ [e]) .idle
          (d.sent ++ [e]) d.received)
  | refused {r : Reading} (idle : d.channel.sending = .idle) (full : d.channel.hasRoom = false)
      (controls : Event.readings d.channel.queue = []) :
      Outcome d (.send (.metrics r))
        (amid { d.channel with dropped := d.channel.dropped + 1 } d.channel.queue .idle
          (d.sent ++ [.metrics r]) d.received)
  | waits {k : Control} (idle : d.channel.sending = .idle) (full : d.channel.hasRoom = false)
      (controls : Event.readings d.channel.queue = []) :
      Outcome d (.send (.control k))
        (amid d.channel d.channel.queue (.waiting (.control k) []) (d.sent ++ [.control k])
          d.received)
  | taken {e : Event} {queue : List Event} (split : d.channel.queue = e :: queue) :
      Outcome d .receive (amid d.channel queue d.channel.sending d.sent (d.received ++ [e]))
  | entered {t : Turn} {k : Control} (ht : t = .look ∨ t = .timeOut)
      (waiting : d.channel.sending = .waiting (.control k) [])
      (room : d.channel.hasRoom = true) :
      Outcome d t (amid d.channel (d.channel.queue ++ [.control k]) .idle d.sent d.received)
  | expired {k : Control} (waiting : d.channel.sending = .waiting (.control k) [])
      (full : d.channel.hasRoom = false) :
      Outcome d .timeOut (amid d.channel d.channel.queue .idle d.sent d.received)

variable {d d' : Delivery} {t : Turn}

theorem turn_send (hs : d.channel.sending = .idle) (ho : d.channel.sinkOpen = true) (e : Event) :
    d.turn (.send e) = ⟨(d.channel.offer e).settle, d.sent ++ [e], d.received⟩ := by
  simp [turn, step, hs, ho]

theorem outcome_send (h : d.channel.AtRest) (e : Event) :
    d.Outcome (.send e) (d.turn (.send e)) := by
  rcases h.sending with hs | ⟨k, hs⟩
  · rw [turn_send hs h.sinkOpen]
    cases hr : d.channel.hasRoom with
    | true =>
      rw [Channel.settle_offer_of_hasRoom h.sinkOpen hr]
      exact .queued hs hr
    | false =>
      cases hm : d.channel.queue.any Event.isMetrics with
      | true =>
        obtain ⟨older, r, newer, hq, hold⟩ := Event.exists_oldest hm
        rw [Channel.settle_offer_of_reading h hr hq hold]
        exact .replaced hs hr hq hold
      | false =>
        have hq := Event.readings_eq_nil_iff_any.2 hm
        cases e with
        | metrics r =>
          rw [Channel.settle_offer_of_controls h hr hq]
          exact .refused hs hr hq
        | control k =>
          rw [Channel.settle_offer_control h hr hq]
          exact .waits hs hr hq
  · have hturn : d.turn (.send e) = d := by simp [turn, hs]
    rw [hturn]
    exact .void (by simp [Void, hs])

theorem outcome_receive (ho : d.channel.streamOpen = true) :
    d.Outcome .receive (d.turn .receive) := by
  cases hq : d.channel.queue with
  | nil =>
    have hturn : d.turn .receive = d := by
      cases hk : d.channel.sinkOpen <;> simp [turn, step, ho, Channel.receive, hq, hk]
    rw [hturn]
    exact .void hq
  | cons e queue =>
    have hturn : d.turn .receive =
        amid d.channel queue d.channel.sending d.sent (d.received ++ [e]) := by
      simp [turn, step, ho, Channel.receive, hq, amid]
    rw [hturn]
    exact .taken hq

theorem outcome_look (h : d.channel.AtRest) : d.Outcome .look (d.turn .look) := by
  rcases h.sending with hs | ⟨k, hs⟩
  · rw [turn, Channel.settle_idle hs]
    exact .void (.inl hs)
  · cases hr : d.channel.hasRoom with
    | true =>
      rw [turn, Channel.settle_waiting_of_hasRoom hs hr]
      exact .entered (.inl rfl) hs hr
    | false =>
      rw [turn, Channel.settle_waiting_of_full hs hr]
      exact .void (.inr hr)

theorem outcome_timeOut (h : d.channel.AtRest) : d.Outcome .timeOut (d.turn .timeOut) := by
  rcases h.sending with hs | ⟨k, hs⟩
  · rw [turn, Channel.settle_idle hs, Channel.expire_idle hs, Channel.settle_idle hs]
    exact .void hs
  · cases hr : d.channel.hasRoom with
    | true =>
      rw [turn, Channel.settle_waiting_of_hasRoom hs hr, Channel.expire_idle rfl,
        Channel.settle_idle rfl]
      exact .entered (.inr rfl) hs hr
    | false =>
      have hexpire : d.channel.expire = { d.channel with sending := .refilling [] } := by
        simp [Channel.expire, hs]
      rw [turn, Channel.settle_waiting_of_full hs hr, hexpire, Channel.settle_refilled rfl]
      exact .expired hs hr

theorem outcome_turn (h : d.channel.AtRest) (ho : d.channel.streamOpen = true) (t : Turn) :
    d.Outcome t (d.turn t) := by
  cases t with
  | send e => exact outcome_send h e
  | receive => exact outcome_receive ho
  | look => exact outcome_look h
  | timeOut => exact outcome_timeOut h

namespace Outcome

theorem atRest (o : d.Outcome t d') (h : d.channel.AtRest) : d'.channel.AtRest := by
  have hroom {c : Channel} (hr : c.hasRoom = true) : c.queue.length + 1 ≤ c.capacity :=
    of_decide_eq_true hr
  have hle := h.length_le
  cases o with
  | void => exact h
  | queued idle room => exact ⟨h.sinkOpen, by simpa [amid] using hroom room, .inl rfl⟩
  | replaced idle full split oldest =>
    refine ⟨h.sinkOpen, ?_, .inl rfl⟩
    rw [split] at hle
    simpa [amid] using hle
  | refused => exact ⟨h.sinkOpen, hle, .inl rfl⟩
  | waits => exact ⟨h.sinkOpen, hle, .inr ⟨_, rfl⟩⟩
  | taken split =>
    rw [split] at hle
    exact ⟨h.sinkOpen, Nat.le_of_succ_le hle, h.sending⟩
  | entered ht waiting room => exact ⟨h.sinkOpen, by simpa [amid] using hroom room, .inl rfl⟩
  | expired => exact ⟨h.sinkOpen, hle, .inl rfl⟩

theorem streamOpen (o : d.Outcome t d') : d'.channel.streamOpen = d.channel.streamOpen := by
  cases o <;> rfl

theorem capacity (o : d.Outcome t d') : d'.channel.capacity = d.channel.capacity := by
  cases o <;> rfl

end Outcome

/-- What is lost in a turn: the event of a send whose time is over while there is no room. -/
def lostIn (d : Delivery) : Turn → List Event
  | .timeOut =>
    match d.channel.sending, d.channel.hasRoom with
    | .waiting e _, false => [e]
    | _, _ => []
  | _ => []

def lost (d : Delivery) : List Turn → List Event
  | [] => []
  | t :: ts => d.lostIn t ++ (d.turn t).lost ts

theorem lost_snoc (d : Delivery) (ts : List Turn) (t : Turn) :
    d.lost (ts ++ [t]) = d.lost ts ++ (d.turns ts).lostIn t := by
  induction ts generalizing d with
  | nil => simp [lost]
  | cons u ts ih => rw [List.cons_append, lost, ih, lost, List.append_assoc]; rfl

/-- What was sent is either known, which is received or on its way, dropped and counted, or lost. -/
structure Accounted (known : List Event) (dropped : Nat) (sent lost : List Event) : Prop where
  order : known.Sublist sent
  readings : dropped + (Event.readings known).length = (Event.readings sent).length
  controls (k : Control) : (Event.controls known).count k + (Event.controls lost).count k =
    (Event.controls sent).count k

namespace Accounted

variable {known older newer sent lost : List Event} {dropped : Nat}

theorem push (h : Accounted known dropped sent lost) (e : Event) :
    Accounted (known ++ [e]) dropped (sent ++ [e]) lost where
  order := h.order.append_right [e]
  readings := by
    have hreadings := h.readings
    simp only [Event.readings_append, List.length_append]
    omega
  controls k := by
    have hcontrols := h.controls k
    simp only [Event.controls_append, List.count_append]
    omega

/-- A reading is given up, and that is counted. -/
theorem giveUp {r : Reading} (h : Accounted (older ++ .metrics r :: newer) dropped sent lost) :
    Accounted (older ++ newer) (dropped + 1) sent lost where
  order := ((List.sublist_cons_self _ newer).append_left older).trans h.order
  readings := by
    have hreadings := h.readings
    simp only [Event.readings_append, Event.readings_cons_metrics, List.length_append,
      List.length_cons] at hreadings ⊢
    omega
  controls k := by simpa using h.controls k

theorem lose {k : Control} (h : Accounted (known ++ [.control k]) dropped sent lost) :
    Accounted known dropped sent (lost ++ [.control k]) where
  order := (List.sublist_append_left known [.control k]).trans h.order
  readings := by simpa [Event.readings_append] using h.readings
  controls x := by
    have hcontrols := h.controls x
    simp only [Event.controls_append, List.count_append] at hcontrols ⊢
    omega

end Accounted

theorem Outcome.accounted (o : d.Outcome t d') (hd : d.channel.AtRest) {lost : List Event}
    (h : Accounted (d.received ++ d.channel.inFlight) d.channel.dropped d.sent lost) :
    Accounted (d'.received ++ d'.channel.inFlight) d'.channel.dropped d'.sent
      (lost ++ d.lostIn t) := by
  cases o with
  | void hv =>
    have hnone : d.lostIn t = [] := by
      cases t with
      | timeOut => simp [lostIn, show d.channel.sending = .idle from hv]
      | send | receive | look => rfl
    rwa [hnone, List.append_nil]
  | @queued e idle room =>
    simp only [Channel.inFlight, idle] at h
    simpa [amid, Channel.inFlight, lostIn] using h.push e
  | @replaced e older newer r idle full split oldest =>
    simp only [Channel.inFlight, idle, split, ← List.append_assoc] at h
    have hpush := h.push e
    rw [List.append_assoc, List.cons_append] at hpush
    simpa [amid, Channel.inFlight, lostIn] using hpush.giveUp
  | @refused r idle full only =>
    simp only [Channel.inFlight, idle] at h
    simpa [amid, Channel.inFlight, lostIn] using (h.push (.metrics r)).giveUp
  | @waits k idle full only =>
    simp only [Channel.inFlight, idle] at h
    simpa [amid, Channel.inFlight, lostIn] using h.push (.control k)
  | @taken e queue split =>
    have hflight : d.channel.inFlight =
        e :: (amid d.channel queue d.channel.sending d.sent d.received).channel.inFlight := by
      rcases hd.sending with hs | ⟨k, hs⟩ <;> simp [amid, Channel.inFlight, hs, split]
    rw [hflight] at h
    simpa [amid, lostIn] using h
  | entered ht waiting room =>
    have hnone : d.lostIn t = [] := by
      rcases ht with rfl | rfl <;> simp [lostIn, room]
    simp only [Channel.inFlight, waiting] at h
    rwa [hnone, List.append_nil]
  | expired waiting full =>
    simp only [Channel.inFlight, waiting, ← List.append_assoc] at h
    simpa [amid, Channel.inFlight, lostIn, waiting, full] using h.lose

theorem turns_start (capacity : Nat) (ts : List Turn) :
    ((start capacity).turns ts).channel.AtRest ∧
      ((start capacity).turns ts).channel.streamOpen = true ∧
      ((start capacity).turns ts).channel.capacity = max capacity 1 := by
  induction ts using List.reverseRecOn with
  | nil => exact ⟨Channel.atRest_new capacity, rfl, rfl⟩
  | append_singleton ts t ih =>
    obtain ⟨hrest, hopen, hcap⟩ := ih
    have o := outcome_turn hrest hopen t
    rw [turns_snoc]
    exact ⟨o.atRest hrest, o.streamOpen.trans hopen, o.capacity.trans hcap⟩

theorem outcome_start (capacity : Nat) (ts : List Turn) (t : Turn) :
    ((start capacity).turns ts).Outcome t (((start capacity).turns ts).turn t) :=
  outcome_turn (turns_start capacity ts).1 (turns_start capacity ts).2.1 t

theorem accounted_turns (capacity : Nat) (ts : List Turn) :
    Accounted (((start capacity).turns ts).received ++ ((start capacity).turns ts).channel.inFlight)
      ((start capacity).turns ts).channel.dropped ((start capacity).turns ts).sent
      ((start capacity).lost ts) := by
  induction ts using List.reverseRecOn with
  | nil => exact ⟨List.Sublist.refl [], rfl, fun _ => rfl⟩
  | append_singleton ts t ih =>
    rw [turns_snoc, lost_snoc]
    exact (outcome_start capacity ts t).accounted (turns_start capacity ts).1 ih

/-- An event was sent to a queue full of control events, of which the stream took some since. -/
structure Blocked (capacity : Nat) (d : Delivery) (taken : List Event) (d' : Delivery) : Prop where
  idle : d.channel.sending = .idle
  controls : Event.readings d.channel.queue = []
  full : d.channel.queue.length = max capacity 1
  queue : d.channel.queue = taken ++ d'.channel.queue
  received : d'.received = d.received ++ taken

theorem waiting_since (capacity : Nat) (ts : List Turn) {e : Event} {rest : List Event}
    (h : ((start capacity).turns ts).channel.sending = .waiting e rest) :
    ∃ before waits taken, ts = before ++ .send e :: waits ∧
      Blocked capacity ((start capacity).turns before) taken ((start capacity).turns ts) := by
  induction ts using List.reverseRecOn with
  | nil => cases h
  | append_singleton ts t ih =>
    rw [turns_snoc] at h ⊢
    have o := outcome_start capacity ts t
    obtain ⟨hrest, -, hcap⟩ := turns_start capacity ts
    generalize hd : (start capacity).turns ts = d at *
    generalize d.turn t = d' at *
    cases o with
    | void hv =>
      obtain ⟨before, waits, taken, rfl, hb⟩ := ih h
      exact ⟨before, waits ++ [t], taken, by simp, hb⟩
    | waits idle full only =>
      cases h
      refine ⟨ts, [], [], rfl, ?_⟩
      rw [hd]
      refine ⟨idle, only, ?_, rfl, (List.append_nil _).symm⟩
      rw [← hcap]
      exact Nat.le_antisymm hrest.length_le (Nat.le_of_not_lt (of_decide_eq_false full))
    | @taken x queue split =>
      obtain ⟨before, waits, taken, rfl, hb⟩ := ih h
      refine ⟨before, waits ++ [.receive], taken ++ [x], by simp, hb.idle, hb.controls, hb.full,
        ?_, ?_⟩
      · rw [hb.queue, split]
        simp [amid]
      · simp [amid, hb.received]
    | queued | replaced | refused | entered | expired => cases h

theorem mem_lost {d : Delivery} {ts : List Turn} {e : Event} (h : e ∈ d.lost ts) :
    ∃ before after, ts = before ++ .timeOut :: after ∧ e ∈ (d.turns before).lostIn .timeOut := by
  induction ts generalizing d with
  | nil => cases h
  | cons t ts ih =>
    rcases List.mem_append.1 h with hin | hlater
    · cases t with
      | timeOut => exact ⟨[], ts, rfl, hin⟩
      | send | receive | look => cases hin
    · obtain ⟨before, after, rfl, he⟩ := ih hlater
      exact ⟨t :: before, after, rfl, he⟩

/-- A control event is lost only if nothing was received while it waited. -/
theorem blocked_of_mem_lost {capacity : Nat} {ts : List Turn} {e : Event}
    (h : e ∈ (start capacity).lost ts) :
    ∃ before waits after, ts = before ++ .send e :: waits ++ .timeOut :: after ∧
      Blocked capacity ((start capacity).turns before) []
        ((start capacity).turns (before ++ .send e :: waits)) := by
  obtain ⟨stopped, after, rfl, he⟩ := mem_lost h
  simp only [lostIn] at he
  split at he
  next x rest hs hf =>
    obtain rfl := List.mem_singleton.1 he
    obtain ⟨before, waits, taken, rfl, hb⟩ := waiting_since capacity stopped hs
    have hlen := congrArg List.length hb.queue
    have hfull := Nat.le_of_not_lt (of_decide_eq_false hf)
    rw [hb.full, List.length_append] at hlen
    rw [(turns_start capacity _).2.2] at hfull
    have hnone : taken = [] := List.length_eq_zero_iff.1 (by omega)
    exact ⟨before, waits, after, by simp, hnone ▸ hb⟩
  next => cases he

theorem length_queue_le (capacity : Nat) (steps : List Step) :
    ((start capacity).run steps).channel.queue.length ≤ max capacity 1 := by
  have hrun {d : Delivery} (h : d.channel.Fits (max capacity 1)) :
      (d.run steps).channel.Fits (max capacity 1) := by
    induction steps generalizing d with
    | nil => exact h
    | cons a steps ih => exact ih (fits_step h a)
  exact (hrun (fits_start (Nat.le_refl _))).idle

theorem readings_inFlight {c : Channel} (h : c.AtRest) :
    Event.readings c.inFlight = Event.readings c.queue := by
  rcases h.sending with hs | ⟨k, hs⟩ <;> simp [Channel.inFlight, hs]

theorem queue_sublist_inFlight {c : Channel} (h : c.AtRest) : c.queue.Sublist c.inFlight := by
  rcases h.sending with hs | ⟨k, hs⟩ <;> simp [Channel.inFlight, hs]

/-- Where no receive falls inside a send that has events in its hand, what is received and queued is
in the order of sending and every reading missing there is counted. A send that finds no room takes
the place of the oldest reading, and a control event is lost only when its wait among nothing but
control events ends without a receive. -/
theorem accounted_sends (capacity : Nat) :
    (∀ steps, ((start capacity).run steps).channel.queue.length ≤ max capacity 1) ∧
    (∀ ts, (((start capacity).turns ts).received ++
        ((start capacity).turns ts).channel.queue).Sublist ((start capacity).turns ts).sent) ∧
    (∀ ts, ((start capacity).turns ts).channel.dropped +
        (Event.readings (((start capacity).turns ts).received ++
          ((start capacity).turns ts).channel.queue)).length =
      (Event.readings ((start capacity).turns ts).sent).length) ∧
    (∀ ts t, ((start capacity).turns ts).Outcome t (((start capacity).turns ts).turn t)) ∧
    (∀ ts, (Event.controls (((start capacity).turns ts).received ++
        ((start capacity).turns ts).channel.inFlight ++ (start capacity).lost ts)).Perm
      (Event.controls ((start capacity).turns ts).sent)) ∧
    (∀ ts, ∀ e ∈ (start capacity).lost ts, ∃ before waits after,
      ts = before ++ .send e :: waits ++ .timeOut :: after ∧
      Blocked capacity ((start capacity).turns before) []
        ((start capacity).turns (before ++ .send e :: waits))) := by
  refine ⟨length_queue_le capacity, fun ts => ?_, fun ts => ?_, outcome_start capacity,
    fun ts => ?_, fun ts e he => blocked_of_mem_lost he⟩
  · exact ((queue_sublist_inFlight (turns_start capacity ts).1).append_left _).trans
      (accounted_turns capacity ts).order
  · have h := (accounted_turns capacity ts).readings
    rwa [Event.readings_append, readings_inFlight (turns_start capacity ts).1,
      ← Event.readings_append] at h
  · refine List.perm_iff_count.2 fun k => ?_
    rw [Event.controls_append, List.count_append]
    exact (accounted_turns capacity ts).controls k

def crowded : List Turn :=
  [.send (.control (.restarted 1)), .send (.control .stopped), .look, .timeOut]

theorem accounted_sends_crowded :
    (start 1).lost crowded = [.control .stopped] ∧
      ∃ before waits after,
        crowded = before ++ .send (.control .stopped) :: waits ++ .timeOut :: after ∧
        Blocked 1 ((start 1).turns before) []
          ((start 1).turns (before ++ .send (.control .stopped) :: waits)) := by
  have hlost : (start 1).lost crowded = [.control .stopped] := rfl
  obtain ⟨-, -, -, -, -, hblocked⟩ := accounted_sends 1
  exact ⟨hlost, hblocked crowded (.control .stopped) (by simp [hlost])⟩

end Delivery
end RigWarden
