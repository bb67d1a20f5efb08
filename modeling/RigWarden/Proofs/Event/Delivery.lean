import Mathlib.Data.List.Induction
import Mathlib.Data.List.Perm.Subperm
import RigWarden.Proofs.Event.InFlight

/-!
# Order of delivery

A channel together with what was sent into it and what came out. The stream sees the events in the
order in which they were sent. The exception is a receive while the sink holds events that it has
pulled out and will put back: the event received overtakes those.
-/

namespace RigWarden

namespace Event

/-- The share totals of the readings never go down. -/
def Rising (es : List Event) : Prop :=
  (readings es).Pairwise fun r s => r.accepted ≤ s.accepted ∧ r.rejected ≤ s.rejected

instance (es : List Event) : Decidable (Rising es) :=
  inferInstanceAs (Decidable (List.Pairwise _ _))

theorem readings_filter (es : List Event) : readings (es.filter isMetrics) = readings es := by
  induction es with
  | nil => rfl
  | cons e es ih =>
    cases e with
    | metrics r => exact congrArg (r :: ·) ih
    | control c => exact ih

theorem Rising.sublist {es fs : List Event}
    (h : (es.filter isMetrics).Sublist (fs.filter isMetrics)) (hf : Rising fs) : Rising es := by
  have hr := h.filterMap reading?
  change (readings _).Sublist (readings _) at hr
  rw [readings_filter, readings_filter] at hr
  exact List.Pairwise.sublist hr hf

end Event

/-- A channel, all that was sent into it, and all that its stream took. -/
structure Delivery where
  channel : Channel
  sent : List Event := []
  received : List Event := []

namespace Delivery

inductive Step where
  /-- The sink is asked to send, which it does one event at a time. -/
  | send (e : Event)
  | sink
  | expire
  | receive
  | closeSink
  | closeStream

def step (d : Delivery) : Step → Delivery
  | .send e =>
    match d.channel.sending, d.channel.sinkOpen with
    | .idle, true => { d with channel := d.channel.offer e, sent := d.sent ++ [e] }
    | _, _ => d
  | .sink => { d with channel := d.channel.step }
  | .expire => { d with channel := d.channel.expire }
  | .receive =>
    match d.channel.streamOpen, d.channel.receive with
    | true, (.event e, c) => { d with channel := c, received := d.received ++ [e] }
    | _, _ => d
  | .closeSink =>
    match d.channel.sending with
    | .idle => { d with channel := d.channel.closeSink }
    | _ => d
  | .closeStream => { d with channel := d.channel.closeStream }

def run (d : Delivery) (steps : List Step) : Delivery := steps.foldl step d

@[simp] theorem run_nil (d : Delivery) : d.run [] = d := rfl

@[simp] theorem run_cons (d : Delivery) (a : Step) (steps : List Step) :
    d.run (a :: steps) = (d.step a).run steps := rfl

theorem run_append (d : Delivery) (as bs : List Step) : d.run (as ++ bs) = (d.run as).run bs :=
  List.foldl_append

def start (capacity : Nat) : Delivery := { channel := .new capacity }

/-- A receive would take an event of some kind while the sink holds back earlier ones. -/
def Overtaking (kind : Event → Bool) (d : Delivery) : Prop :=
  d.channel.streamOpen = true ∧ (∃ e queue, d.channel.queue = e :: queue ∧ kind e = true) ∧
    d.channel.HoldsBack kind

/-- Somewhere in the run an event overtakes others of its kind. -/
def Overtakes (kind : Event → Bool) (d : Delivery) : List Step → Prop
  | [] => False
  | a :: steps => a = .receive ∧ d.Overtaking kind ∨ (d.step a).Overtakes kind steps

/-- What came out and what is on its way is in the order of sending, for events of some kind. -/
def InOrder (kind : Event → Bool) (d : Delivery) : Prop :=
  ((d.received ++ d.channel.inFlight).filter kind).Sublist (d.sent.filter kind)

/-- Nothing comes out twice, in whatever order. -/
def Once (d : Delivery) : Prop := (d.received ++ d.channel.inFlight).Subperm d.sent

theorem step_receive (d : Delivery) : d.step .receive = d ∨
    ∃ e queue, d.channel.streamOpen = true ∧ d.channel.queue = e :: queue ∧
      d.step .receive =
        { d with channel := { d.channel with queue := queue }, received := d.received ++ [e] } := by
  cases ho : d.channel.streamOpen with
  | false => exact .inl (by simp [step, ho])
  | true =>
    cases hq : d.channel.queue with
    | nil =>
      refine .inl ?_
      cases hk : d.channel.sinkOpen <;> simp [step, ho, Channel.receive, hq, hk]
    | cons e queue => exact .inr ⟨e, queue, rfl, rfl, by simp [step, ho, Channel.receive, hq]⟩

/-- A step sends an event, lets some be lost, or takes one of those on their way. -/
theorem step_cases (d : Delivery) (a : Step) :
    (∃ e, (d.step a).sent = d.sent ++ [e] ∧ (d.step a).received = d.received ∧
      (d.step a).channel.inFlight = d.channel.inFlight ++ [e]) ∨
    ((d.step a).sent = d.sent ∧ (d.step a).received = d.received ∧
      (d.step a).channel.inFlight.Sublist d.channel.inFlight) ∨
    (a = .receive ∧ ∃ e, (d.step a).sent = d.sent ∧ (d.step a).received = d.received ++ [e] ∧
      d.channel.inFlight.Perm (e :: (d.step a).channel.inFlight) ∧
      ∀ kind, ¬ d.Overtaking kind →
        d.channel.inFlight.filter kind = (e :: (d.step a).channel.inFlight).filter kind) := by
  cases a with
  | send e =>
    simp only [step]
    split
    next hs _ => exact .inl ⟨e, rfl, rfl, Channel.inFlight_offer hs e⟩
    next => exact .inr (.inl ⟨rfl, rfl, List.Sublist.refl _⟩)
  | sink => exact .inr (.inl ⟨rfl, rfl, d.channel.inFlight_step⟩)
  | expire => exact .inr (.inl ⟨rfl, rfl, d.channel.inFlight_expire⟩)
  | receive =>
    rcases d.step_receive with hr | ⟨e, queue, ho, hq, hr⟩
    · rw [hr]
      exact .inr (.inl ⟨rfl, rfl, List.Sublist.refl _⟩)
    · rw [hr]
      refine .inr (.inr ⟨rfl, e, rfl, rfl, Channel.inFlight_perm_of_queue hq, fun kind hn => ?_⟩)
      exact Channel.filter_inFlight_of_queue hq fun hk hb => hn ⟨ho, ⟨e, queue, hq, hk⟩, hb⟩
  | closeSink =>
    simp only [step]
    split
    next hs => exact .inr (.inl ⟨rfl, rfl, by rw [Channel.inFlight_closeSink hs]⟩)
    next => exact .inr (.inl ⟨rfl, rfl, List.Sublist.refl _⟩)
  | closeStream => exact .inr (.inl ⟨rfl, rfl, List.Sublist.refl _⟩)

theorem InOrder.step {kind : Event → Bool} {d : Delivery} (h : d.InOrder kind) {a : Step}
    (hn : a = .receive → ¬ d.Overtaking kind) : (d.step a).InOrder kind := by
  unfold InOrder at h ⊢
  rcases d.step_cases a with ⟨e, hs, hr, hf⟩ | ⟨hs, hr, hf⟩ | ⟨ha, e, hs, hr, _, hf⟩
  · rw [hs, hr, hf, ← List.append_assoc, List.filter_append _ [e], List.filter_append _ [e]]
    exact h.append_right _
  · rw [hs, hr]
    exact ((hf.append_left d.received).filter kind).trans h
  · rw [hs, hr, List.append_assoc, List.singleton_append, List.filter_append, ← hf kind (hn ha),
      ← List.filter_append]
    exact h

theorem InOrder.run {kind : Event → Bool} {d : Delivery} (h : d.InOrder kind) {steps : List Step}
    (hn : ¬ d.Overtakes kind steps) : (d.run steps).InOrder kind := by
  induction steps generalizing d with
  | nil => exact h
  | cons a steps ih =>
    rw [Overtakes, not_or] at hn
    exact ih (h.step fun ha ho => hn.1 ⟨ha, ho⟩) hn.2

theorem Once.step {d : Delivery} (h : d.Once) (a : Step) : (d.step a).Once := by
  unfold Once
  rcases d.step_cases a with ⟨e, hs, hr, hf⟩ | ⟨hs, hr, hf⟩ | ⟨_, e, hs, hr, hf, _⟩
  · rw [hs, hr, hf, ← List.append_assoc]
    exact (List.subperm_append_right [e]).2 h
  · rw [hs, hr]
    exact (hf.append_left d.received).subperm.trans h
  · rw [hs, hr, List.append_assoc, List.singleton_append]
    exact (hf.append_left d.received).symm.subperm.trans h

theorem Once.run {d : Delivery} (h : d.Once) (steps : List Step) : (d.run steps).Once := by
  induction steps generalizing d with
  | nil => exact h
  | cons a steps ih => exact ih (h.step a)

theorem inOrder_start (kind : Event → Bool) (capacity : Nat) : (start capacity).InOrder kind :=
  List.Sublist.refl []

theorem once_start (capacity : Nat) : (start capacity).Once := (List.Perm.refl []).subperm

theorem InOrder.received {kind : Event → Bool} {d : Delivery} (h : d.InOrder kind) :
    (d.received.filter kind).Sublist (d.sent.filter kind) :=
  ((List.sublist_append_left _ _).filter kind).trans h

theorem Once.received {d : Delivery} (h : d.Once) : d.received.Subperm d.sent :=
  (List.sublist_append_left _ _).subperm.trans h

theorem fits_step {d : Delivery} {n : Nat} (h : d.channel.Fits n) (a : Step) :
    (d.step a).channel.Fits n := by
  cases a with
  | send e =>
    simp only [step]
    split
    · exact ⟨h.capacity_le, by simpa [Channel.held, Channel.offer] using h.idle⟩
    · exact h
  | sink => exact h.step
  | expire => exact h.expire
  | receive =>
    rcases d.step_receive with hr | ⟨e, queue, _, hq, hr⟩
    · rw [hr]
      exact h
    · rw [hr]
      exact h.tail hq
  | closeSink =>
    simp only [step]
    split
    · exact ⟨h.capacity_le, by simpa [Channel.held, Channel.closeSink] using h.idle⟩
    · exact h
  | closeStream => exact ⟨h.capacity_le, h.length_le⟩

theorem fits_start {capacity n : Nat} (h : max capacity 1 ≤ n) : (start capacity).channel.Fits n :=
  ⟨h, Nat.zero_le n⟩

/-- Nothing overtakes where nothing is held back beside a queue. -/
theorem not_overtakes {kind : Event → Bool} {n : Nat}
    (hb : ∀ {c : Channel}, c.Fits n → c.queue ≠ [] → ¬ c.HoldsBack kind) {d : Delivery}
    (h : d.channel.Fits n) (steps : List Step) : ¬ d.Overtakes kind steps := by
  induction steps generalizing d with
  | nil => exact id
  | cons a steps ih =>
    rintro (⟨_, _, ⟨e, queue, hq, _⟩, hheld⟩ | ho)
    · exact hb h (by simp [hq]) hheld
    · exact ih (fits_step h a) ho

section overtaken

def amid (c : Channel) (queue : List Event) (sending : Sending) (sent received : List Event) :
    Delivery :=
  ⟨{ c with queue := queue, sending := sending }, sent, received⟩

def fill (es : List Event) : List Step := es.flatMap fun e => [.send e, .sink]

theorem run_fill {capacity : Nat} {es : List Event} (h : es.length ≤ capacity) :
    (start capacity).run (fill es) = amid (.new capacity) es .idle es [] := by
  induction es using List.reverseRecOn with
  | nil => rfl
  | append_singleton es e ih =>
    rw [List.length_append, List.length_singleton] at h
    have hroom : es.length < max capacity 1 := Nat.lt_of_lt_of_le h (Nat.le_max_left _ _)
    rw [fill, List.flatMap_append, run_append, ← fill, ih (Nat.le_of_succ_le h)]
    simp [amid, step, Channel.new, Channel.offer, Channel.step, Channel.receivingEnds,
      Channel.hasRoom, Channel.push, hroom]

variable (e : Event) (sent received : List Event)

theorem run_offer {c : Channel} {queue : List Event} (hs : c.sinkOpen = true)
    (ho : c.streamOpen = true) (hc : c.capacity = queue.length) :
    (amid c queue .idle sent received).run [.send e, .sink] =
      amid c queue (.pulling e []) (sent ++ [e]) received := by
  simp [amid, step, Channel.offer, Channel.step, Channel.receivingEnds, Channel.hasRoom, hs, ho, hc]

theorem run_pull (c : Channel) (pulled first queue : List Event) :
    (amid c (first ++ queue) (.pulling e pulled) sent received).run
        (List.replicate first.length .sink) =
      amid c queue (.pulling e (pulled ++ first)) sent received := by
  induction first generalizing pulled with
  | nil => simp
  | cons x first ih =>
    rw [List.length_cons, List.replicate_succ, run_cons]
    have h := ih (pulled ++ [x])
    rw [List.append_assoc, List.singleton_append] at h
    exact h

theorem run_receive {c : Channel} (ho : c.streamOpen = true) (queue : List Event)
    (sending : Sending) :
    (amid c (e :: queue) sending sent received).run [.receive] =
      amid c queue sending sent (received ++ [e]) := by
  simp [amid, step, Channel.receive, ho]

/-- What is held is put back, and the stream takes the first of it. -/
theorem run_put_back {c : Channel} {first : Event} {pulled rest : List Event}
    (ho : c.streamOpen = true) (h : (Channel.makeRoom pulled e).1 = first :: rest) :
    ((amid c [] (.pulling e pulled) sent received).run [.sink, .sink, .receive]).sent = sent ∧
      ((amid c [] (.pulling e pulled) sent received).run [.sink, .sink, .receive]).received =
        received ++ [first] := by
  simp [amid, step, Channel.step, Channel.receive, Channel.hasRoom, Channel.push, c.capacity_pos,
    ho, h]

/-- An event is taken from a full queue while those before it are held. -/
def overtake (held : List Event) (taken : Event) (queue : List Event) : List Step :=
  fill (held ++ taken :: queue) ++ ([.send e, .sink] ++ (List.replicate held.length .sink ++
    ([.receive] ++ (List.replicate queue.length .sink ++ [.sink, .sink, .receive]))))

theorem run_overtake {held : List Event} {taken : Event} {queue : List Event} {capacity : Nat}
    (hc : capacity = (held ++ taken :: queue).length) {first : Event} {rest : List Event}
    (h : (Channel.makeRoom (held ++ queue) e).1 = first :: rest) :
    ((start capacity).run (overtake e held taken queue)).sent = held ++ taken :: queue ++ [e] ∧
      ((start capacity).run (overtake e held taken queue)).received = [taken, first] := by
  have hcapacity : (Channel.new capacity).capacity = (held ++ taken :: queue).length := by
    rw [← hc]
    exact Nat.max_eq_left (by simp [hc]; omega)
  have hall := run_pull e (held ++ taken :: queue ++ [e]) [taken] (.new capacity) held queue []
  rw [List.append_nil] at hall
  rw [overtake, run_append, run_fill (Nat.le_of_eq hc.symm), run_append,
    run_offer e _ _ rfl rfl hcapacity, run_append, run_pull, List.nil_append, run_append,
    run_receive taken _ _ rfl, List.nil_append, run_append, hall]
  exact run_put_back e _ _ rfl h

theorem makeRoom_control (c : Control) (es : List Event) :
    ∃ rest, (Channel.makeRoom (.control c :: es) e).1 = .control c :: rest := by
  unfold Channel.makeRoom Channel.dropOldest
  split
  · exact ⟨es.eraseP Event.isMetrics ++ [e], by simp⟩
  · split
    · exact ⟨es, rfl⟩
    · exact ⟨es ++ [e], rfl⟩

/-- A control event is overtaken by a reading. -/
theorem not_sublist_overtake (n : Nat) (c : Control) (r : Reading) :
    ¬ ((start (n + 2)).run (overtake (.metrics r) [.control c] (.metrics r)
        (List.replicate n (.metrics r)))).received.Sublist
      ((start (n + 2)).run (overtake (.metrics r) [.control c] (.metrics r)
        (List.replicate n (.metrics r)))).sent := by
  have hcapacity : n + 2 =
      ([Event.control c] ++ Event.metrics r :: List.replicate n (.metrics r)).length := by simp
  obtain ⟨rest, hrest⟩ := makeRoom_control (.metrics r) c (List.replicate n (.metrics r))
  obtain ⟨hs, hr⟩ := run_overtake (.metrics r) hcapacity hrest
  rw [hs, hr]
  intro h
  cases h with
  | cons _ h => simpa using h.mem (List.mem_cons_of_mem _ List.mem_cons_self)

def reading (accepted : Nat) : Event := .metrics { (default : Reading) with accepted := accepted }

theorem rising_readings {ns : List Nat} (h : ns.Pairwise (· ≤ ·)) :
    Event.Rising (ns.map reading) := by
  have hr : Event.readings (ns.map reading) =
      ns.map fun n => { (default : Reading) with accepted := n } := by
    simp [Event.readings, List.filterMap_map, Function.comp_def, reading, Event.reading?]
  rw [Event.Rising, hr, List.pairwise_map]
  exact h.imp fun hle => ⟨hle, Nat.le_refl _⟩

/-- The second of three readings is overtaken by the third. -/
theorem exists_not_rising {capacity : Nat} (h : 3 ≤ capacity) : ∃ steps,
    Event.Rising ((start capacity).run steps).sent ∧
      ¬ Event.Rising ((start capacity).run steps).received := by
  obtain ⟨n, rfl⟩ := Nat.exists_eq_add_of_le' h
  let queue : List Event := List.replicate n (reading 3)
  have hcapacity : n + 3 = ([reading 1, reading 2] ++ reading 3 :: queue).length := by simp [queue]
  have hrest : (Channel.makeRoom ([reading 1, reading 2] ++ queue) (reading 3)).1 =
      reading 2 :: (queue ++ [reading 3]) := rfl
  obtain ⟨hs, hr⟩ := run_overtake (reading 3) hcapacity hrest
  refine ⟨overtake (reading 3) [reading 1, reading 2] (reading 3) queue, ?_, ?_⟩
  · have hle : (1 :: 2 :: 3 :: (List.replicate n 3 ++ [3])).Pairwise (· ≤ ·) := by
      simp [List.pairwise_append, List.pairwise_replicate]
      and_intros <;> intro a ha <;> omega
    rw [hs]
    simpa [queue] using rising_readings hle
  · rw [hr]
    decide

end overtaken

/-- The stream sees events in the order of sending as long as none overtakes what the sink holds,
its totals never go down as long as no reading overtakes another, and it sees no event twice. Only
a channel for a single event rules the first kind of overtaking out, and only one for at most two
the other. -/
theorem in_order_iff (capacity : Nat) :
    (∀ steps, ¬ (start capacity).Overtakes (fun _ => true) steps →
      ((start capacity).run steps).received.Sublist ((start capacity).run steps).sent) ∧
    (∀ steps, ¬ (start capacity).Overtakes Event.isMetrics steps →
      Event.Rising ((start capacity).run steps).sent →
      Event.Rising ((start capacity).run steps).received) ∧
    (∀ steps,
      ((start capacity).run steps).received.Subperm ((start capacity).run steps).sent) ∧
    ((∀ steps,
      ((start capacity).run steps).received.Sublist ((start capacity).run steps).sent) ↔
        capacity ≤ 1) ∧
    ((∀ steps, Event.Rising ((start capacity).run steps).sent →
      Event.Rising ((start capacity).run steps).received) ↔ capacity ≤ 2) := by
  have ordered (steps : List Step) (hn : ¬ (start capacity).Overtakes (fun _ => true) steps) :
      ((start capacity).run steps).received.Sublist ((start capacity).run steps).sent := by
    simpa using ((inOrder_start _ capacity).run hn).received
  have rising (steps : List Step) (hn : ¬ (start capacity).Overtakes Event.isMetrics steps)
      (hr : Event.Rising ((start capacity).run steps).sent) :
      Event.Rising ((start capacity).run steps).received :=
    hr.sublist ((inOrder_start _ capacity).run hn).received
  refine ⟨ordered, rising, fun steps => ((once_start capacity).run steps).received, ?_, ?_⟩
  · refine ⟨fun h => ?_, fun h steps => ordered steps ?_⟩
    · by_contra hc
      obtain ⟨n, rfl⟩ := Nat.exists_eq_add_of_le' (Nat.lt_of_not_le hc)
      exact not_sublist_overtake n .stopped default (h _)
    · exact not_overtakes (fun hf hq => hf.not_holdsBack hq _)
        (fits_start (Nat.max_le.2 ⟨h, Nat.le_refl 1⟩)) steps
  · refine ⟨fun h => ?_, fun h steps => ?_⟩
    · by_contra hc
      obtain ⟨steps, hs, hr⟩ := exists_not_rising (Nat.lt_of_not_le hc)
      exact hr (h steps hs)
    · exact rising steps
        (not_overtakes Channel.Fits.not_holdsBack_reading
          (fits_start (Nat.max_le.2 ⟨h, by decide⟩)) steps)

def replacing : List Step :=
  [.send (reading 1), .sink, .send (reading 2), .sink, .sink, .sink, .sink, .sink, .receive]

theorem in_order_replacing :
    ¬ (start 1).Overtakes (fun _ => true) replacing ∧
      ((start 1).run replacing).received = [reading 2] ∧
      ((start 1).run replacing).received.Sublist ((start 1).run replacing).sent := by
  have hn : ¬ (start 1).Overtakes (fun _ => true) replacing :=
    not_overtakes (fun hf hq => hf.not_holdsBack hq _) (fits_start (Nat.le_refl 1)) replacing
  exact ⟨hn, rfl, (in_order_iff 1).1 replacing hn⟩

theorem not_always_in_order : ¬ ∀ (capacity : Nat) (steps : List Step),
    ((start capacity).run steps).received.Sublist ((start capacity).run steps).sent ∧
    (Event.Rising ((start capacity).run steps).sent →
      Event.Rising ((start capacity).run steps).received) := by
  intro h
  have hrising := (h 3 (overtake (reading 4) [reading 1, reading 2] (reading 3) [])).2 (by decide)
  exact absurd hrising (by decide)

end Delivery
end RigWarden
