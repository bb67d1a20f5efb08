import RigWarden.Proofs.Event.Sends
import RigWarden.Proofs.Session.Report
import RigWarden.Proofs.Session.Starts

/-!
# From a pump to its stream

A pump sends each of its events to the end before it goes on, so between two steps the channel of a
session is at rest. What was taken from it and what is left in it are then in the order of sending,
and the sink is open as long as the pump is at work.
-/

namespace RigWarden

theorem Event.mem_controls_iff {k : Control} {es : List Event} :
    k ∈ controls es ↔ .control k ∈ es := by
  simp only [controls, List.mem_filterMap]
  constructor
  · rintro ⟨e, he, hk⟩
    cases e <;> simp_all [control?]
  · intro h
    exact ⟨_, h, rfl⟩

namespace Channel

variable {c : Channel}

/-- The sink is open, and no event is on its way into the queue. -/
structure Still (c : Channel) : Prop where
  sinkOpen : c.sinkOpen = true
  length_le : c.queue.length ≤ c.capacity
  sending : c.sending = .idle

theorem Still.atRest (h : c.Still) : c.AtRest := ⟨h.sinkOpen, h.length_le, .inl h.sending⟩

theorem send_of_settled {d : Channel} {e : Event} (h : (c.offer e).settle = d)
    (hd : d.sending = .idle) : c.send e = d := by
  rw [send, h, expire_idle hd, settle_idle hd]

/-- A send joins the queue, takes the place of a reading, is dropped itself, or comes to wait. -/
theorem Still.settle_cases (h : c.Still) (e : Event) :
    (c.hasRoom = true ∧ (c.offer e).settle = { c with queue := c.queue ++ [e] }) ∨
    (c.hasRoom = false ∧ ∃ older r newer, c.queue = older ++ .metrics r :: newer ∧
      (c.offer e).settle =
        { c with queue := older ++ newer ++ [e], dropped := c.dropped + 1 }) ∨
    (c.hasRoom = false ∧ (c.offer e).settle = { c with dropped := c.dropped + 1 }) ∨
    (c.hasRoom = false ∧ (c.offer e).settle = { c with sending := .waiting e [] }) := by
  have hidle := h.sending
  cases hr : c.hasRoom with
  | true =>
    refine .inl ⟨rfl, ?_⟩
    rw [settle_offer_of_hasRoom h.sinkOpen hr, ← hidle]
  | false =>
    refine .inr ?_
    cases hany : c.queue.any Event.isMetrics with
    | true =>
      obtain ⟨older, r, newer, hq, hold⟩ := Event.exists_oldest hany
      refine .inl ⟨rfl, older, r, newer, hq, ?_⟩
      rw [settle_offer_of_reading h.atRest hr hq hold, ← hidle]
    | false =>
      have hcontrols := Event.readings_eq_nil_iff_any.2 hany
      cases e with
      | metrics r =>
        refine .inr (.inl ⟨rfl, ?_⟩)
        rw [settle_offer_of_controls h.atRest hr hcontrols, ← hidle]
      | control k => exact .inr (.inr ⟨rfl, settle_offer_control h.atRest hr hcontrols k⟩)

/-- The time of a send that waits is over, and its event is lost. -/
theorem Still.send_of_waiting (h : c.Still) {e : Event}
    (hs : (c.offer e).settle = { c with sending := .waiting e [] }) : c.send e = c := by
  rw [Channel.send, hs, expire]
  simp only
  rw [settle_refilled rfl]
  simp only [← h.sending]

/-- What is sent comes behind the queue. An event may be given up for it, or be lost itself. -/
theorem Still.send (h : c.Still) (e : Event) :
    (c.send e).Still ∧ (c.send e).queue.Sublist (c.queue ++ [e]) := by
  have hlen := h.length_le
  rcases h.settle_cases e with ⟨hr, hs⟩ | ⟨-, older, r, newer, hq, hs⟩ | ⟨-, hs⟩ | ⟨-, hs⟩
  · rw [send_of_settled hs h.sending]
    refine ⟨⟨h.sinkOpen, ?_, h.sending⟩, List.Sublist.refl _⟩
    have hlt : c.queue.length < c.capacity := of_decide_eq_true hr
    rw [List.length_append, List.length_singleton]
    exact hlt
  · rw [send_of_settled hs h.sending]
    refine ⟨⟨h.sinkOpen, ?_, h.sending⟩, ?_⟩
    · rw [hq] at hlen
      simpa using hlen
    · rw [hq]
      exact ((List.sublist_cons_self _ newer).append_left older).append_right [e]
  · rw [send_of_settled hs h.sending]
    exact ⟨⟨h.sinkOpen, hlen, h.sending⟩, List.sublist_append_left _ _⟩
  · rw [h.send_of_waiting hs]
    exact ⟨h, List.sublist_append_left _ _⟩

theorem Still.sendAll (h : c.Still) (es : List Event) :
    (c.sendAll es).Still ∧ (c.sendAll es).queue.Sublist (c.queue ++ es) := by
  induction es generalizing c with
  | nil => exact ⟨h, by simp [Channel.sendAll]⟩
  | cons e es ih =>
    obtain ⟨hstill, hqueue⟩ := h.send e
    obtain ⟨hlast, hrest⟩ := ih hstill
    refine ⟨hlast, hrest.trans ?_⟩
    simpa using hqueue.append_right es

end Channel

theorem SessionEnd.stopped_notMem_controls (x : SessionEnd) : .stopped ∉ x.controls := by
  cases x <;> simp [SessionEnd.controls]

namespace Pump

variable {p : Pump} {asked : Prop} {sent : List Event}

/-- The last event is the only one of its kind. -/
theorem Told.stopped_last (h : p.Told asked sent) (hp : p.phase = .closing ∨ p.phase = .done) :
    ∃ before, sent = before ++ [.control .stopped] ∧ .control .stopped ∉ before := by
  obtain ⟨exits, x, before, -, -, -, -, hs, hc⟩ := h.reported hp
  refine ⟨before, hs, fun hmem => ?_⟩
  rw [← Event.mem_controls_iff, hc, List.mem_append] at hmem
  rcases hmem with hmem | hmem
  · exact Control.stopped_notMem_rounds exits hmem
  · exact SessionEnd.stopped_notMem_controls x hmem

theorem Told.phase_of_stopped (h : p.Told asked sent) (hs : .control .stopped ∈ sent) :
    p.phase = .closing ∨ p.phase = .done := by
  obtain ⟨exits, -, -, ht⟩ := h
  rw [← Event.mem_controls_iff] at hs
  have hrounds := Control.stopped_notMem_rounds exits
  have hending := SessionEnd.stopped_notMem_controls
  cases hp : p.phase with
  | closing => exact .inl rfl
  | done => exact .inr rfl
  | launching n =>
    simp only [ToldAfter, hp] at ht
    rcases ht with ⟨-, ⟨-, -, hc⟩ | ⟨-, -, e, -, hc⟩⟩ <;> simp [hc, hrounds] at hs
  | draining | polling | waiting | settling | terminating =>
    simp only [ToldAfter, hp] at ht
    exact absurd (ht.2.2 ▸ hs) hrounds
  | backingOff n =>
    simp only [ToldAfter, hp] at ht
    obtain ⟨-, -, -, e, -, hc⟩ := ht
    simp [hc, hrounds] at hs
  | stopping =>
    simp only [ToldAfter, hp] at ht
    rcases ht with ⟨-, -, hc⟩ | ⟨x, -, -, hc⟩
    · exact absurd (hc ▸ hs) hrounds
    · simp [hc, hrounds, hending] at hs
  | finishing =>
    simp only [ToldAfter, hp] at ht
    obtain ⟨x, -, -, hc⟩ := ht
    simp [hc, hrounds, hending] at hs
  | lost =>
    simp only [ToldAfter, hp] at ht
    exact absurd (ht.2 ▸ hs) hrounds

end Pump

namespace Session

variable {s : Session} {sent taken : List Event}

/-- What the pump of a session has sent, what was taken from its channel, and the two between which
the channel is. -/
structure Passes (s : Session) (sent taken : List Event) : Prop where
  told : s.pump.Told True sent
  sending : s.channel.sending = .idle
  length_le : s.channel.queue.length ≤ s.channel.capacity
  sinkOpen : s.channel.sinkOpen = !s.pump.isOver
  order : (taken ++ s.channel.queue).Sublist sent

def withQueue (s : Session) (queue : List Event) : Session :=
  { s with channel := { s.channel with queue := queue } }

/-- The session after a step of its pump, which is given `o`. -/
def pumped (s : Session) (o : Observation) : Session :=
  { s with
    pump := (s.pump.step o).1
    channel := Host.deliver s.channel (s.pump.step o).1 (s.pump.step o).2 }

theorem Fresh.passes (h : s.Fresh) : s.Passes [] [] := by
  obtain ⟨b, program, policy, grace, tailer, hpump⟩ := h.pump
  obtain ⟨capacity, hchannel⟩ := h.channel
  refine ⟨?_, ?_, ?_, ?_, ?_⟩
  · rw [hpump]
    exact Pump.told_new b program policy grace tailer True
  · rw [hchannel]
    rfl
  · rw [hchannel]
    exact Nat.zero_le _
  · rw [hchannel, hpump]
    rfl
  · rw [hchannel]
    exact List.Sublist.refl _

theorem Passes.pumped (h : s.Passes sent taken) (hover : s.pump.isOver = false)
    (o : Observation) : (s.pumped o).Passes (sent ++ (s.pump.step o).2) taken := by
  have hopen : s.channel.sinkOpen = true := by rw [h.sinkOpen, hover]; rfl
  obtain ⟨hstill, hqueue⟩ :=
    Channel.Still.sendAll ⟨hopen, h.length_le, h.sending⟩ (s.pump.step o).2
  have horder : (taken ++ (s.channel.sendAll (s.pump.step o).2).queue).Sublist
      (sent ++ (s.pump.step o).2) := by
    refine (hqueue.append_left taken).trans ?_
    rw [← List.append_assoc]
    exact h.order.append_right _
  have htold := h.told.step (o := o) fun _ => trivial
  cases hend : (s.pump.step o).1.isOver with
  | false =>
    have hchannel : (s.pumped o).channel = s.channel.sendAll (s.pump.step o).2 := by
      simp [Session.pumped, Host.deliver, hend]
    refine ⟨htold, ?_, ?_, ?_, ?_⟩
    · rw [hchannel]
      exact hstill.sending
    · rw [hchannel]
      exact hstill.length_le
    · rw [hchannel, hstill.sinkOpen]
      exact (congrArg not hend).symm
    · rw [hchannel]
      exact horder
  | true =>
    have hchannel : (s.pumped o).channel =
        (s.channel.sendAll (s.pump.step o).2).closeSink := by
      simp [Session.pumped, Host.deliver, hend]
    refine ⟨htold, ?_, ?_, ?_, ?_⟩
    · rw [hchannel]
      rfl
    · rw [hchannel]
      exact hstill.length_le
    · rw [hchannel]
      exact (congrArg not hend).symm
    · rw [hchannel]
      exact horder

theorem Passes.take (h : s.Passes sent taken) {e : Event} {rest : List Event}
    (hq : s.channel.queue = e :: rest) : (s.withQueue rest).Passes sent (taken ++ [e]) := by
  refine ⟨h.told, h.sending, ?_, h.sinkOpen, ?_⟩
  · have hlen := h.length_le
    rw [hq, List.length_cons] at hlen
    exact Nat.le_of_succ_le hlen
  · have horder := h.order
    rw [hq] at horder
    simpa [withQueue] using horder

/-- A session that was reported to have stopped is about to end, or has ended. -/
theorem Passes.phase_of_stopped (h : s.Passes sent taken) (ht : .control .stopped ∈ taken) :
    s.pump.phase = .closing ∨ s.pump.phase = .done :=
  h.told.phase_of_stopped (h.order.subset (List.mem_append_left _ ht))

/-- A relation between a session and what went into its channel and came out of it holds at the
start, and lasts whatever is done to the session from outside its pump. -/
structure Lasting (P : Session → List Event → List Event → Prop) : Prop where
  fresh : ∀ s, s.Fresh → P s [] []
  asked : ∀ s sent taken, P s sent taken → P { s with stopAsked := true } sent taken
  take : ∀ s sent taken e rest, s.channel.queue = e :: rest → P s sent taken →
    P (s.withQueue rest) sent (taken ++ [e])

theorem lasting_passes : Lasting Passes :=
  ⟨fun _ h => h.passes, fun _ _ _ h => ⟨h.told, h.sending, h.length_le, h.sinkOpen, h.order⟩,
    fun _ _ _ _ _ hq h => h.take hq⟩

/-- The pump is not lost, and no control event is either. -/
structure Complete (s : Session) (sent taken : List Event) : Prop extends s.Passes sent taken where
  found : s.pump.phase ≠ .lost
  controls : Event.controls (taken ++ s.channel.queue) = Event.controls sent

theorem lasting_complete : Lasting Complete := by
  refine ⟨fun s h => ⟨h.passes, ?_, ?_⟩, fun s sent taken h => ?_,
    fun s sent taken e rest hq h => ⟨h.toPasses.take hq, h.found, ?_⟩⟩
  · rw [h.phase]
    nofun
  · obtain ⟨capacity, hchannel⟩ := h.channel
    rw [hchannel]
    rfl
  · exact ⟨lasting_passes.asked s sent taken h.toPasses, h.found, h.controls⟩
  · have hcontrols := h.controls
    rw [hq] at hcontrols
    simpa [withQueue] using hcontrols

theorem Complete.pumped (h : s.Complete sent taken) (hover : s.pump.isOver = false)
    {o : Observation} (hfound : (s.pump.step o).1.phase ≠ .lost)
    (hcontrols : Event.controls (s.pumped o).channel.queue =
      Event.controls (s.channel.queue ++ (s.pump.step o).2)) :
    (s.pumped o).Complete (sent ++ (s.pump.step o).2) taken := by
  refine ⟨h.toPasses.pumped hover o, hfound, ?_⟩
  rw [Event.controls_append, hcontrols, Event.controls_append, ← List.append_assoc,
    ← Event.controls_append, h.controls, Event.controls_append]

/-- Once its sink is gone and its channel empty, all control events of a session were taken, with the
last one. -/
theorem Complete.stopped_of_drained (h : s.Complete sent taken) (hq : s.channel.queue = [])
    (hclosed : s.channel.sinkOpen = false) : .control .stopped ∈ taken := by
  have hover : s.pump.isOver = true := by
    have hsink := h.sinkOpen
    rw [hclosed] at hsink
    simpa using hsink.symm
  have hdone := (Pump.isOver_iff.1 hover).resolve_right h.found
  obtain ⟨before, hsent, -⟩ := h.told.stopped_last (.inr hdone)
  have hcontrols := h.controls
  rw [hq, List.append_nil, hsent] at hcontrols
  rw [← Event.mem_controls_iff, hcontrols, Event.mem_controls_iff]
  exact List.mem_append_right _ List.mem_cons_self

/-- When the last event was taken, no control event is left and none was missed. -/
theorem Complete.controls_of_stopped (h : s.Complete sent taken) (ht : .control .stopped ∈ taken) :
    Event.controls taken = Event.controls sent := by
  obtain ⟨before, hsent, hnot⟩ := h.told.stopped_last (h.phase_of_stopped ht)
  rw [← Event.mem_controls_iff] at ht hnot
  have hcontrols := h.controls
  rw [Event.controls_append] at hcontrols
  -- Whatever is left would end with the last event, which came once and was taken.
  rcases List.eq_nil_or_concat (Event.controls s.channel.queue) with hnone | ⟨rest, k, hrest⟩
  · rwa [hnone, List.append_nil] at hcontrols
  · rw [hrest, hsent, Event.controls_append, List.concat_eq_append, ← List.append_assoc] at hcontrols
    obtain ⟨hinit, -⟩ := List.append_inj' hcontrols rfl
    rw [← hinit] at hnot
    exact absurd (List.mem_append_left rest ht) hnot

end Session

namespace Host

variable {h : Host} {s : Session} {i : Nat} {m : Machine} {now : Instant} {clock : Clock}

/-- What a step of the pump of session `i` sends. -/
def sends (m : Machine) (h : Host) (now : Instant) (clock : Clock) (i : Nat) : List Event :=
  match h.sessions[i]? with
  | none => []
  | some s =>
    if s.pump.isOver then []
    else (s.pump.step (h.observe s now clock (h.effect m s).1)).2

/-- A step of a pump is given one observation, and changes its own session alone. -/
theorem pumpStep_cases (m : Machine) (h : Host) (now : Instant) (clock : Clock) (i : Nat) :
    (h.pumpStep m now clock i).sessions = h.sessions ∧ h.sends m now clock i = [] ∨
    ∃ s o, h.sessions[i]? = some s ∧ s.pump.isOver = false ∧
      (h.pumpStep m now clock i).sessions = h.sessions.set i (s.pumped o) ∧
      h.sends m now clock i = (s.pump.step o).2 := by
  cases hs : h.sessions[i]? with
  | none => exact .inl (by simp [pumpStep, sends, hs])
  | some s =>
    cases hover : s.pump.isOver with
    | true => exact .inl (by simp [pumpStep, sends, hs, hover])
    | false =>
      refine .inr ⟨s, h.observe s now clock (h.effect m s).1, rfl, hover, ?_, ?_⟩
      · simp only [pumpStep, hs, hover, Bool.false_eq_true, if_false, setSession]
        rfl
      · simp only [sends, hs, hover, Bool.false_eq_true, if_false]

theorem sessions_askStop (h : Host) (i : Nat) : (h.askStop i).sessions = h.sessions ∨
    ∃ s, h.sessions[i]? = some s ∧
      (h.askStop i).sessions = h.sessions.set i { s with stopAsked := true } := by
  unfold askStop Host.modify
  cases hs : h.sessions[i]? with
  | none => exact .inl rfl
  | some s => exact .inr ⟨s, rfl, rfl⟩

end Host

end RigWarden
