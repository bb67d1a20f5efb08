import RigWarden.Proofs.Peer.Reports
import RigWarden.Proofs.Session.Passage

/-!
# The chronicle of a connection

What the answers of a connection depend on is put down step by step: which messages the reader
answers itself, which starts were let in and what became of them, what was said and by whom, and
which events went into the channel of a session and came out of it. The chronicle only grows, so what
it says once is said for good.
-/

namespace RigWarden

namespace Peer

inductive Entry where
  /-- A message was taken that the reader answers itself. -/
  | due (r : Reply)
  /-- A start was let in, as task `k`. -/
  | admitted (k : Nat)
  /-- A message asked for an end. -/
  | asked
  /-- The start that task `k` makes has come to its end. -/
  | came (k : Nat) (outcome : Except Error Nat)
  /-- The slot has learned of it. -/
  | settled (k : Nat)
  | replied (r : Reply)
  | said (k : Nat) (r : Report)
  | sent (session : Nat) (e : Event)
  | taken (session : Nat) (e : Event)

namespace Entry

/-- What went into the queue of the connection. -/
def report? : Entry → Option Report
  | replied r => some ⟨none, r⟩
  | said _ r => some r
  | _ => none

def due? : Entry → Option Reply
  | due r => some r
  | _ => none

def replied? : Entry → Option Reply
  | replied r => some r
  | _ => none

def saidBy? (k : Nat) : Entry → Option Reply
  | said j r => if j = k then some r.reply else none
  | _ => none

def sentBy? (s : Nat) : Entry → Option Event
  | sent i e => if i = s then some e else none
  | _ => none

def takenFrom? (s : Nat) : Entry → Option Event
  | taken i e => if i = s then some e else none
  | _ => none

end Entry

/-- What task `k` has put into the queue. -/
def saidBy (k : Nat) (log : List Entry) : List Reply := log.filterMap (Entry.saidBy? k)

/-- What the pump of a session has sent. -/
def sentBy (s : Nat) (log : List Entry) : List Event := log.filterMap (Entry.sentBy? s)

/-- What was taken out of the channel of a session. -/
def takenFrom (s : Nat) (log : List Entry) : List Event := log.filterMap (Entry.takenFrom? s)

@[simp] theorem saidBy_append (k : Nat) (log rs : List Entry) :
    saidBy k (log ++ rs) = saidBy k log ++ saidBy k rs := List.filterMap_append

@[simp] theorem sentBy_append (s : Nat) (log rs : List Entry) :
    sentBy s (log ++ rs) = sentBy s log ++ sentBy s rs := List.filterMap_append

@[simp] theorem takenFrom_append (s : Nat) (log rs : List Entry) :
    takenFrom s (log ++ rs) = takenFrom s log ++ takenFrom s rs := List.filterMap_append

theorem saidBy_concat (k : Nat) (log : List Entry) (r : Report) :
    saidBy k (log ++ [.said k r]) = saidBy k log ++ [r.reply] := by
  simp [saidBy, Entry.saidBy?]

theorem takenFrom_concat (s : Nat) (log : List Entry) (e : Event) :
    takenFrom s (log ++ [.taken s e]) = takenFrom s log ++ [e] := by
  simp [takenFrom, Entry.takenFrom?]

@[simp] theorem mem_takenFrom_iff {s : Nat} {e : Event} {log : List Entry} :
    e ∈ takenFrom s log ↔ .taken s e ∈ log := by
  simp only [takenFrom, List.mem_filterMap]
  constructor
  · rintro ⟨a, ha, he⟩
    cases a <;> simp_all [Entry.takenFrom?]
  · intro h
    exact ⟨_, h, by simp [Entry.takenFrom?]⟩

namespace Connection

/-- What is put down when the reader has taken a message. -/
def messageEntries (c : Connection) (defaults : Defaults) : Option Request → List Entry
  | some (.start _) => if c.slot = .empty then [.admitted c.tasks.length] else [.due busy]
  | some .stop => [.asked]
  | some (.provisionStatus b) =>
    let b := b.getD defaults.backend
    [.due (.provisionStatus b (c.host.provisionStatus b))]
  | none => [.due (.error none "Invalid message")]

/-- What is put down about a step of task `k`, apart from what it says. -/
def taskEntries (c : Connection) (m : Machine) (env : ProvisionEnv) (k : Nat) :
    Task → List Entry
  | .starting profile b =>
    match (c.host.start m env profile b).1 with
    | .ok s => [.came k (.ok s)]
    | .error (.error e) => [.came k (.error e)]
    | .error .overflow => []
  | .failed _ => [.settled k]
  | .obtained _ _ => [.settled k]
  | .forwarding s =>
    match c.host.sessions[s]?.map fun session => session.channel.queue with
    | some (e :: _) => [.taken s e]
    | _ => []
  | _ => []

def entries (m : Machine) (defaults : Defaults) (c : Connection) : Step → List Entry
  | .message text =>
    match c.reader with
    | .reading => c.messageEntries defaults (Request.read? text)
    | _ => []
  | .reader => (c.reports .reader).map fun r => .replied r.reply
  | .task k env =>
    (c.tasks[k]?.map (c.taskEntries m env k)).getD [] ++
      (c.reports (.task k env)).map (.said k)
  | .pump s now clock => (c.host.sends m now clock s).map (.sent s)
  | _ => []

def chronicle (m : Machine) (defaults : Defaults) : Connection → List Step → List Entry
  | _, [] => []
  | c, a :: steps => c.entries m defaults a ++ chronicle m defaults (step m defaults c a) steps

variable {m : Machine} {defaults : Defaults} {c : Connection} {k : Nat} {t : Task}
  {env : ProvisionEnv}

theorem report?_taskEntries (c : Connection) (m : Machine) (env : ProvisionEnv) (k : Nat)
    (t : Task) : (c.taskEntries m env k t).filterMap Entry.report? = [] := by
  cases t with
  | starting | forwarding =>
    simp only [taskEntries]
    split <;> rfl
  | _ => rfl

theorem report?_map_said (k : Nat) (rs : List Report) :
    (rs.map (.said k)).filterMap Entry.report? = rs := by
  rw [List.filterMap_map]
  have hsome : Entry.report? ∘ Entry.said k = some := rfl
  rw [hsome, List.filterMap_some]

theorem filterMap_map_sent {β : Type} {f : Entry → Option β} {s : Nat}
    (hf : ∀ e, f (.sent s e) = none) (es : List Event) : (es.map (.sent s)).filterMap f = [] := by
  rw [List.filterMap_map, List.filterMap_eq_nil_iff]
  intro e _
  exact hf e

theorem report?_entries (m : Machine) (defaults : Defaults) (c : Connection) (a : Step) :
    (c.entries m defaults a).filterMap Entry.report? = c.reports a := by
  have hsilent : c.report? a = none → c.reports a = [] := fun h => by simp [reports, h]
  cases a with
  | message text =>
    rw [hsilent rfl]
    simp only [entries]
    split
    · unfold messageEntries
      split
      · split <;> rfl
      · rfl
      · rfl
      · rfl
    · rfl
  | reader =>
    simp only [entries, reports, report?]
    split
    · cases c.reader <;> rfl
    · rfl
  | task k env =>
    simp only [entries, List.filterMap_append, report?_map_said]
    cases c.tasks[k]? with
    | none => rfl
    | some t =>
      simp only [Option.map_some, Option.getD_some, report?_taskEntries]
      rfl
  | pump s now clock =>
    rw [hsilent rfl]
    exact filterMap_map_sent (fun _ => rfl) _
  | disconnect | deliver | unreachable | worker => exact (hsilent rfl).symm

/-- The history of a connection is what its chronicle says to have been said. -/
theorem report?_chronicle (m : Machine) (defaults : Defaults) (c : Connection)
    (steps : List Step) :
    (chronicle m defaults c steps).filterMap Entry.report? = history m defaults c steps := by
  induction steps generalizing c with
  | nil => rfl
  | cons a steps ih => rw [chronicle, List.filterMap_append, ih, report?_entries, history]

/-- What a step of a task can do, and what is put down about it. -/
inductive Moves (m : Machine) (c : Connection) (k : Nat) (env : ProvisionEnv) :
    Task → Connection → List Entry → Prop
  | obtain {profile : Profile} {b : Backend} {s : Nat} {host : Host}
      (hstart : c.host.start m env profile b = (.ok s, host)) :
      Moves m c k env (.starting profile b) ({ c with host := host }.setTask k (.obtained s b))
        [.came k (.ok s)]
  | fail {profile : Profile} {b : Backend} {e : Error} {host : Host}
      (hstart : c.host.start m env profile b = (.error (.error e), host)) :
      Moves m c k env (.starting profile b) ({ c with host := host }.setTask k (.failed e))
        [.came k (.error e)]
  | overflow {profile : Profile} {b : Backend} {host : Host}
      (hstart : c.host.start m env profile b = (.error .overflow, host)) :
      Moves m c k env (.starting profile b) ({ c with host := host }.setTask k .ended) []
  | regret {e : Error} :
      Moves m c k env (.failed e) ({ c with slot := .empty }.setTask k (.reporting e))
        [.settled k]
  | keep {s : Nat} {b : Backend} (hslot : c.slot = .starting) :
      Moves m c k env (.obtained s b)
        ({ c with slot := .active s }.setTask k (.announcing s b)) [.settled k]
  | abandon {s : Nat} {b : Backend} (hslot : c.slot ≠ .starting) :
      Moves m c k env (.obtained s b) ({ c with slot := .empty }.setTask k (.abandoning s))
        [.settled k]
  | say {t : Task} {r : Report} (hr : t.report? = some r) (hroom : c.hasRoom = true) :
      Moves m c k env t ({ c with queue := c.queue ++ [r.reply] }.setTask k (t.reported true))
        [.said k r]
  | lose {t : Task} {r : Report} (hr : t.report? = some r) (hsends : c.sends = false) :
      Moves m c k env t (c.setTask k (t.reported false)) []
  /-- There is no room in the queue, the channel is empty or a pump is not over yet. -/
  | wait {t : Task} (hwait : t.report?.isSome = true ∧ queueLimit ≤ c.queue.length ∨
      (∃ s, t = .forwarding s ∧ ∃ session, c.host.sessions[s]? = some session ∧
        session.channel.queue = [] ∧ session.channel.sinkOpen = true) ∨
      (∃ s, (t = .awaitingAbandoned s ∨ t = .awaiting s) ∧ c.host.isFinished s = false) ∨
      t = .ended) : Moves m c k env t c []
  | stopAbandoned {s : Nat} :
      Moves m c k env (.abandoning s)
        ({ c with host := c.host.askStop s }.setTask k (.awaitingAbandoned s)) []
  | abandoned {s : Nat} (hover : c.host.isFinished s = true) :
      Moves m c k env (.awaitingAbandoned s) (c.setTask k (.confirming s)) []
  | take {s : Nat} {session : Session} {e : Event} {rest : List Event}
      (hs : c.host.sessions[s]? = some session) (hq : session.channel.queue = e :: rest) :
      Moves m c k env (.forwarding s)
        ({ c with host := c.host.setSession s (session.withQueue rest) }.setTask k (.relaying s e))
        [.taken s e]
  | drain {s : Nat} (hend : c.host.sessions[s]? = none ∨
      ∃ session, c.host.sessions[s]? = some session ∧ session.channel.queue = [] ∧
        session.channel.sinkOpen = false) :
      Moves m c k env (.forwarding s) (c.setTask k (.releasing s)) []
  | release {s : Nat} :
      Moves m c k env (.releasing s)
        ({ c with slot := c.slot.finished s }.setTask k (.dropping s)) []
  | drop {s : Nat} {u : Task} (hu : u = .ended ∨ u = .stopping s) :
      Moves m c k env (.dropping s) (c.setTask k u) []
  | stop {s : Nat} :
      Moves m c k env (.stopping s)
        ({ c with host := c.host.askStop s }.setTask k (.awaiting s)) []
  | finish {s : Nat} (hover : c.host.isFinished s = true) :
      Moves m c k env (.awaiting s) (c.setTask k .ended) []

theorem setSession_self {h : Host} {i : Nat} {s : Session} (hs : h.sessions[i]? = some s) :
    h.setSession i s = h := by
  obtain ⟨hi, rfl⟩ := List.getElem?_eq_some_iff.1 hs
  simp [Host.setSession]

theorem moves_starting {profile : Profile} {b : Backend} :
    Moves m c k env (.starting profile b) (c.start m env k profile b)
      (c.taskEntries m env k (.starting profile b)) := by
  rcases hstart : c.host.start m env profile b with ⟨(e | _) | s, host⟩ <;>
    simp only [taskEntries, Connection.start, hstart]
  · exact .fail hstart
  · exact .overflow hstart
  · exact .obtain hstart

theorem moves_forwarding {s : Nat} :
    Moves m c k env (.forwarding s) (c.takeEvent k s)
      (c.taskEntries m env k (.forwarding s)) := by
  simp only [taskEntries, takeEvent]
  cases hs : c.host.sessions[s]? with
  | none => exact .drain (.inl hs)
  | some session =>
    simp only [Option.map_some]
    cases hq : session.channel.queue with
    | cons e rest =>
      simp only [Channel.receive, hq]
      exact .take hs hq
    | nil =>
      have hsame : { c with host := c.host.setSession s session } = c := by
        rw [setSession_self hs]
      cases hopen : session.channel.sinkOpen with
      | true =>
        simp only [Channel.receive, hq, hopen, if_true, hsame]
        exact .wait (.inr (.inl ⟨s, rfl, session, hs, hq, hopen⟩))
      | false =>
        simp only [Channel.receive, hq, hopen, Bool.false_eq_true, if_false, hsame]
        exact .drain (.inr ⟨session, hs, hq, hopen⟩)

theorem moves_send {r : Report} (hr : t.report? = some r) :
    Moves m c k env t
      (c.send r.reply (·.setTask k (t.reported true)) (·.setTask k (t.reported false)))
      ((if c.hasRoom then [r] else []).map (.said k)) := by
  unfold send
  by_cases hsends : c.sends = true
  · by_cases hlt : c.queue.length < queueLimit
    · have hroom : c.hasRoom = true := by simp [hasRoom, hsends, hlt]
      simpa [hsends, hlt, hroom] using Moves.say hr hroom
    · have hroom : c.hasRoom = false := by simp [hasRoom, hlt]
      simp only [hsends, hlt, hroom, Bool.not_true, Bool.false_eq_true, if_false, List.map_nil]
      exact .wait (.inl ⟨by rw [hr]; rfl, Nat.le_of_not_lt hlt⟩)
  · have hsends : c.sends = false := by simpa using hsends
    have hroom : c.hasRoom = false := by simp [hasRoom, hsends]
    simpa [hsends, hroom] using Moves.lose hr hsends

theorem moves_taskStep (ht : c.tasks[k]? = some t) :
    Moves m c k env t (c.taskStep m env k) (c.entries m defaults (.task k env)) := by
  simp only [entries, reports, report?, ht, Option.map_some, Option.getD_some, Option.bind_some]
  cases hr : t.report? with
  | some r =>
    have hsilent : c.taskEntries m env k t = [] := by
      cases t <;> first | rfl | cases hr
    rw [taskStep_of_report ht hr, hsilent, List.nil_append]
    exact moves_send hr
  | none =>
    simp only [Option.toList_none, ite_self, List.map_nil, List.append_nil]
    simp only [taskStep, ht]
    cases t with
    | reporting | confirming | announcing | relaying => cases hr
    | starting profile b => exact moves_starting
    | failed e =>
      simp only [Slot.started_none]
      exact .regret
    | obtained s b =>
      by_cases hslot : c.slot = .starting
      · simpa [hslot, Slot.started, taskEntries] using Moves.keep hslot
      · have hstarted : c.slot.started (some s) = (some s, .empty) := by
          cases hs : c.slot <;> first | rfl | exact absurd hs hslot
        simp only [hstarted, taskEntries]
        exact .abandon hslot
    | abandoning s => exact .stopAbandoned
    | awaitingAbandoned s =>
      simp only [taskEntries]
      split
      · next hover => exact .abandoned hover
      · next hover =>
        exact .wait (.inr (.inr (.inl ⟨s, .inl rfl, by simpa using hover⟩)))
    | forwarding s => exact moves_forwarding
    | releasing s => exact .release
    | dropping s =>
      refine .drop ?_
      split
      · exact .inl rfl
      · exact .inr rfl
    | stopping s => exact .stop
    | awaiting s =>
      simp only [taskEntries]
      split
      · next hover => exact .finish hover
      · next hover =>
        exact .wait (.inr (.inr (.inl ⟨s, .inr rfl, by simpa using hover⟩)))
    | ended => exact .wait (.inr (.inr (.inr rfl)))

/-- What a step that is none of a task or a pump can do with the slot and the tasks. -/
inductive Turns (c d : Connection) : List Entry → Prop
  | still {rs : List Entry} (htasks : d.tasks = c.tasks) (hslot : d.slot = c.slot)
      (hrs : ∀ a ∈ rs, a.due?.isSome = true ∨ a.replied?.isSome = true ∨
        a = .asked ∧ c.slot.isPending = false) : Turns c d rs
  | letIn {profile : Profile} {b : Backend} (hempty : c.slot = .empty)
      (htasks : d.tasks = c.tasks ++ [.starting profile b]) (hslot : d.slot = .starting) :
      Turns c d [.admitted c.tasks.length]
  /-- The session of the slot is to be stopped. -/
  | giveUp {rs : List Entry} {s : Nat} (hactive : c.slot = .active s)
      (htasks : d.tasks = c.tasks ++ [.stopping s]) (hslot : d.slot = .empty)
      (hrs : ∀ a ∈ rs, a = .asked) : Turns c d rs
  /-- The start that is under way is to be stopped. -/
  | cancel {rs : List Entry} (hpending : c.slot.isPending = true) (htasks : d.tasks = c.tasks)
      (hslot : d.slot = .cancelled) (hrs : rs = [.asked] ∨ rs = [] ∧ c.reader = .leaving) :
      Turns c d rs

theorem turns_takeRequest (c : Connection) (defaults : Defaults) (r : Option Request) :
    Turns c (c.takeRequest defaults r) (c.messageEntries defaults r) := by
  unfold takeRequest messageEntries
  split
  · cases hslot : c.slot with
    | empty => exact .letIn hslot rfl rfl
    | starting | cancelled | active =>
      refine .still rfl hslot.symm fun a ha => .inl ?_
      simp only [reduceCtorEq, if_false, List.mem_singleton] at ha
      rw [ha]
      rfl
  · rcases c.slot.release_cases with ⟨s, hs, hrel⟩ | ⟨hs, hrel⟩ | ⟨hs, hrel⟩ <;> simp only [hrel]
    · exact .giveUp hs rfl rfl fun a ha => List.mem_singleton.1 ha
    · refine .still rfl hs.symm fun a ha => .inr (.inr ⟨List.mem_singleton.1 ha, ?_⟩)
      rw [hs]
      rfl
    · exact .cancel hs rfl rfl (.inl rfl)
  · refine .still rfl rfl fun a ha => .inl ?_
    rw [List.mem_singleton.1 ha]
    rfl
  · refine .still rfl rfl fun a ha => .inl ?_
    rw [List.mem_singleton.1 ha]
    rfl

theorem turns_readerStep (c : Connection) :
    Turns c c.readerStep ((c.reports .reader).map fun r => .replied r.reply) := by
  have hreplied : ∀ a ∈ (c.reports .reader).map fun r => Entry.replied r.reply,
      a.due?.isSome = true ∨ a.replied?.isSome = true ∨
        a = .asked ∧ c.slot.isPending = false := by
    intro a ha
    obtain ⟨r, -, rfl⟩ := List.mem_map.1 ha
    exact .inr (.inl rfl)
  unfold readerStep
  split
  · next r hr =>
    have hsame : ∀ d : Connection, d.tasks = c.tasks ∧ d.slot = c.slot →
        Turns c d ((c.reports .reader).map fun r => .replied r.reply) :=
      fun d h => .still h.1 h.2 hreplied
    exact hsame _ (send_cases (P := fun d => d.tasks = c.tasks ∧ d.slot = c.slot)
      ⟨rfl, rfl⟩ ⟨rfl, rfl⟩ ⟨rfl, rfl⟩)
  · next hr =>
    have hnone : ((c.reports .reader).map fun r => Entry.replied r.reply) = [] := by
      simp [reports, report?, hr, Reader.report?]
    rcases c.slot.release_cases with ⟨s, hs, hrel⟩ | ⟨hs, hrel⟩ | ⟨hs, hrel⟩ <;> simp only [hrel]
    · refine .giveUp hs rfl rfl fun a ha => ?_
      rw [hnone] at ha
      cases ha
    · exact .still rfl hs.symm hreplied
    · exact .cancel hs rfl rfl (.inr ⟨hnone, hr⟩)
  · split <;> exact .still rfl rfl hreplied
  · exact .still rfl rfl hreplied

/-- A step is one of a task, one of a pump, or it leaves all sessions as they are. -/
theorem step_cases (m : Machine) (defaults : Defaults) (c : Connection) (a : Step) :
    (∃ k env t, a = .task k env ∧ c.tasks[k]? = some t ∧
      Moves m c k env t (step m defaults c a) (c.entries m defaults a)) ∨
    (∃ s now clock, a = .pump s now clock ∧
      step m defaults c a = { c with host := c.host.pumpStep m now clock s } ∧
      c.entries m defaults a = (c.host.sends m now clock s).map (.sent s)) ∨
    (step m defaults c a).host.sessions = c.host.sessions ∧
      Turns c (step m defaults c a) (c.entries m defaults a) := by
  have hstill {d : Connection} (htasks : d.tasks = c.tasks) (hslot : d.slot = c.slot) :
      Turns c d [] := .still htasks hslot fun a ha => absurd ha List.not_mem_nil
  cases a with
  | message text =>
    refine .inr (.inr ?_)
    simp only [step, takeMessage, entries]
    cases hr : c.reader with
    | reading =>
      refine ⟨?_, c.turns_takeRequest defaults _⟩
      simp only [takeRequest]
      split
      · split <;> rfl
      · split <;> rfl
      · rfl
      · rfl
    | replying | leaving | awaiting | closed => exact ⟨rfl, hstill rfl rfl⟩
  | disconnect =>
    refine .inr (.inr ?_)
    simp only [step, disconnect, entries]
    split <;> exact ⟨rfl, hstill rfl rfl⟩
  | reader =>
    refine .inr (.inr ⟨?_, c.turns_readerStep⟩)
    simp only [step, readerStep]
    split
    · exact send_cases (P := fun d => d.host.sessions = c.host.sessions) rfl rfl rfl
    · split <;> rfl
    · split <;> rfl
    · rfl
  | task k env =>
    cases ht : c.tasks[k]? with
    | some t => exact .inl ⟨k, env, t, rfl, ht, moves_taskStep ht⟩
    | none =>
      have hsame : c.taskStep m env k = c := by simp only [taskStep, ht]
      have hnone : c.entries m defaults (.task k env) = [] := by
        simp [entries, reports, report?, ht]
      rw [step, hsame, hnone]
      exact .inr (.inr ⟨rfl, hstill rfl rfl⟩)
  | deliver =>
    refine .inr (.inr ?_)
    simp only [step, entries]
    split <;> exact ⟨rfl, hstill rfl rfl⟩
  | pump s now clock => exact .inr (.inl ⟨s, now, clock, rfl, rfl, rfl⟩)
  | unreachable | worker => exact .inr (.inr ⟨rfl, hstill rfl rfl⟩)

end Connection
end Peer
end RigWarden
