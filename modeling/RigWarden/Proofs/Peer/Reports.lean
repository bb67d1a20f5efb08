import RigWarden.Proofs.Peer.Custody

/-!
# What a peer hears

Everything that reaches a peer was put into the queue of its connection by a step of the reader or
of a task, and arrives in that order; what is still in the queue when the connection breaks is lost.
A reply does not name its session: a report is a reply together with the session it comes from.
-/

namespace RigWarden.Peer

/-- A reply and the session it comes from. A reply about the connection comes from none. -/
structure Report where
  session : Option Nat
  reply : Reply

/-- What a task has to say next. -/
def Task.report? : Task → Option Report
  | reporting e => some ⟨none, .ofError e⟩
  | confirming s => some ⟨some s, .event (.control .stopped)⟩
  | announcing s b => some ⟨some s, .sessionStarted ("session-" ++ Number.decimal s) b⟩
  | relaying s e => some ⟨some s, .event e⟩
  | _ => none

/-- What a task does once its report is in the queue, or once nobody takes reports any more. -/
def Task.reported (sent : Bool) : Task → Task
  | announcing s _ => forwarding s
  | relaying s e => if sent && !e.isTerminal then forwarding s else releasing s
  | _ => ended

def Reader.report? : Reader → Option Report
  | replying r => some ⟨none, r⟩
  | _ => none

namespace Connection

def hasRoom (c : Connection) : Bool := c.sends && decide (c.queue.length < queueLimit)

def report? (c : Connection) : Step → Option Report
  | .reader => c.reader.report?
  | .task k _ => c.tasks[k]?.bind Task.report?
  | _ => none

/-- What a step puts into the queue. -/
def reports (c : Connection) (a : Step) : List Report :=
  if c.hasRoom then (c.report? a).toList else []

/-- What all steps of a run put into the queue. -/
def history (m : Machine) (defaults : Defaults) : Connection → List Step → List Report
  | _, [] => []
  | c, a :: steps => c.reports a ++ history m defaults (step m defaults c a) steps

/-- The part of the history that has reached the peer. -/
def heard (m : Machine) (defaults : Defaults) (c : Connection) (steps : List Step) : List Report :=
  (history m defaults c steps).take
    ((run m defaults c steps).received.length - c.received.length)

/-- What was on its way from `c` is on its way from `d`, with more behind it. -/
structure Carries (c d : Connection) (rs : List Report) : Prop where
  sends : d.sends = c.sends
  grows : c.received <+: d.received
  replies : d.received ++ d.queue = c.received ++ c.queue ++ rs.map Report.reply

/-- Nobody takes replies from the queue any more. -/
structure Cut (c d : Connection) : Prop where
  sends : d.sends = false
  queue : d.queue = []
  received : d.received = c.received

section steps

variable {m : Machine} {defaults : Defaults} {c d : Connection}

theorem Carries.same (hs : d.sends = c.sends) (hq : d.queue = c.queue)
    (hr : d.received = c.received) : c.Carries d [] :=
  ⟨hs, hr ▸ List.prefix_refl _, by simp [hq, hr]⟩

/-- A report is put into the queue, is lost, or waits. -/
theorem send_report_cases {P : Connection → List Report → Prop} {r : Report}
    {sent lost : Connection → Connection}
    (hs : P (sent { c with queue := c.queue ++ [r.reply] }) [r]) (hl : P (lost c) [])
    (hc : P c []) : P (c.send r.reply sent lost) (if c.hasRoom then [r] else []) := by
  unfold send hasRoom
  cases hsends : c.sends with
  | false => simpa using hl
  | true =>
    by_cases hlt : c.queue.length < queueLimit
    · simpa [hsends, hlt] using hs
    · simpa [hlt] using hc

theorem carries_send {r : Report} {sent lost : Connection → Connection}
    (hs : ∀ c : Connection, c.Carries (sent c) []) (hl : ∀ c : Connection, c.Carries (lost c) []) :
    c.Carries (c.send r.reply sent lost) (if c.hasRoom then [r] else []) := by
  refine send_report_cases ?_ (hl c) (.same rfl rfl rfl)
  have h := hs { c with queue := c.queue ++ [r.reply] }
  exact ⟨h.sends, h.grows, by simpa using h.replies⟩

theorem taskStep_of_report {k : Nat} {t : Task} {r : Report} (ht : c.tasks[k]? = some t)
    (hr : t.report? = some r) (env : ProvisionEnv) :
    c.taskStep m env k =
      c.send r.reply (·.setTask k (t.reported true)) (·.setTask k (t.reported false)) := by
  simp only [taskStep, ht]
  cases t with
  | relaying s e =>
    cases hr
    cases he : e.isTerminal <;> simp [Task.reported, he]
  | reporting | confirming | announcing =>
    cases hr
    rfl
  | _ => cases hr

theorem taskStep_of_silent {k : Nat} {t : Task} (ht : c.tasks[k]? = some t)
    (hr : t.report? = none) (env : ProvisionEnv) :
    (c.taskStep m env k).sends = c.sends ∧ (c.taskStep m env k).queue = c.queue ∧
      (c.taskStep m env k).received = c.received ∧ (c.taskStep m env k).reader = c.reader := by
  simp only [taskStep, ht]
  cases t with
  | reporting | confirming | announcing | relaying => cases hr
  | starting profile b => simp only [start]; split <;> exact ⟨rfl, rfl, rfl, rfl⟩
  | forwarding s =>
    simp only [takeEvent]
    split
    · exact ⟨rfl, rfl, rfl, rfl⟩
    · split <;> exact ⟨rfl, rfl, rfl, rfl⟩
  | obtained | awaitingAbandoned | awaiting => simp only; split <;> exact ⟨rfl, rfl, rfl, rfl⟩
  | failed | abandoning | releasing | dropping | stopping | ended => exact ⟨rfl, rfl, rfl, rfl⟩

theorem carries_taskStep (c : Connection) (k : Nat) (env : ProvisionEnv) :
    c.Carries (c.taskStep m env k) (c.reports (.task k env)) := by
  simp only [reports, report?]
  cases ht : c.tasks[k]? with
  | none => simpa [taskStep, ht] using Carries.same (c := c) rfl rfl rfl
  | some t =>
    simp only [Option.bind_some]
    cases hr : t.report? with
    | none =>
      obtain ⟨hs, hq, hrec, -⟩ := taskStep_of_silent (m := m) ht hr env
      simpa using Carries.same hs hq hrec
    | some r =>
      rw [taskStep_of_report ht hr]
      exact carries_send (r := r) (fun _ => .same rfl rfl rfl) fun _ => .same rfl rfl rfl

theorem cut_close (c : Connection) : c.Cut c.close := ⟨rfl, rfl, rfl⟩

theorem carries_takeRequest (c : Connection) (defaults : Defaults) (r : Option Request) :
    c.Carries (c.takeRequest defaults r) [] := by
  unfold takeRequest
  split
  · split <;> exact .same rfl rfl rfl
  · split <;> exact .same rfl rfl rfl
  · exact .same rfl rfl rfl
  · exact .same rfl rfl rfl

theorem readerStep_cases (c : Connection) :
    c.Carries c.readerStep (c.reports .reader) ∨
      c.Cut c.readerStep ∧ c.reports .reader = [] := by
  unfold readerStep reports report?
  cases hr : c.reader with
  | replying r =>
    exact .inl (carries_send (r := ⟨none, r⟩) (fun _ => .same rfl rfl rfl)
      fun _ => .same rfl rfl rfl)
  | leaving =>
    rcases c.slot.release_cases with ⟨s, -, hrel⟩ | ⟨-, hrel⟩ | ⟨-, hrel⟩
    · simpa [hrel, Reader.report?] using .inl (Carries.same rfl rfl rfl)
    · simpa [hrel, Reader.report?] using .inr ⟨rfl, rfl, rfl⟩
    · simpa [hrel, Reader.report?] using .inr ⟨rfl, rfl, rfl⟩
  | awaiting k =>
    simp only [Reader.report?, Option.toList_none, ite_self, and_true]
    split
    · exact .inr c.cut_close
    · exact .inl (.same rfl rfl rfl)
  | reading | closed =>
    simpa [Reader.report?] using .inl (Carries.same (c := c) rfl rfl rfl)

/-- A step keeps all that is on its way and adds what it reports, or cuts the peer off. -/
theorem carries_or_cut (m : Machine) (defaults : Defaults) (c : Connection) (a : Step) :
    c.Carries (step m defaults c a) (c.reports a) ∨
      c.Cut (step m defaults c a) ∧ c.reports a = [] := by
  have hsilent : c.report? a = none → c.reports a = [] := fun h => by simp [reports, h]
  cases a with
  | message text =>
    rw [hsilent rfl]
    simp only [step, takeMessage]
    split
    · exact .inl (c.carries_takeRequest defaults _)
    · exact .inl (.same rfl rfl rfl)
  | disconnect =>
    rw [hsilent rfl]
    simp only [step, disconnect]
    split <;> exact .inl (.same rfl rfl rfl)
  | reader => exact c.readerStep_cases
  | task k env => exact .inl (c.carries_taskStep k env)
  | deliver =>
    rw [hsilent rfl]
    simp only [step]
    split
    · exact .inl (.same rfl rfl rfl)
    · next r rest hq => exact .inl ⟨rfl, List.prefix_append _ _, by simp [hq]⟩
  | unreachable => exact .inr ⟨⟨rfl, rfl, rfl⟩, hsilent rfl⟩
  | pump | worker =>
    rw [hsilent rfl]
    exact .inl (.same rfl rfl rfl)

theorem prefix_received_step (m : Machine) (defaults : Defaults) (c : Connection) (a : Step) :
    c.received <+: (step m defaults c a).received := by
  rcases carries_or_cut m defaults c a with h | ⟨h, -⟩
  · exact h.grows
  · exact h.received ▸ List.prefix_refl _

theorem prefix_received_run (m : Machine) (defaults : Defaults) (c : Connection)
    (steps : List Step) : c.received <+: (run m defaults c steps).received := by
  induction steps generalizing c with
  | nil => exact List.prefix_refl _
  | cons a steps ih => exact (prefix_received_step m defaults c a).trans (ih _)

/-- Nothing is reported once the peer is cut off. -/
theorem history_of_not_sends (steps : List Step) (h : c.sends = false) :
    history m defaults c steps = [] := by
  induction steps generalizing c with
  | nil => rfl
  | cons a steps ih =>
    have hd : (step m defaults c a).sends = false := by
      rcases carries_or_cut m defaults c a with hc | ⟨hc, -⟩
      · rw [hc.sends, h]
      · exact hc.sends
    simp [history, reports, hasRoom, h, ih hd]

/-- What arrives, and what is still on its way, is what was reported, up to a point beyond which all
is lost. -/
theorem replies_run (m : Machine) (defaults : Defaults) (c : Connection) (steps : List Step) :
    (run m defaults c steps).received ++ (run m defaults c steps).queue <+:
      c.received ++ c.queue ++ (history m defaults c steps).map Report.reply := by
  induction steps generalizing c with
  | nil => simp [history]
  | cons a steps ih =>
    have hd := ih (step m defaults c a)
    rw [run_cons, history, List.map_append]
    rcases carries_or_cut m defaults c a with h | ⟨h, hr⟩
    · rwa [h.replies, List.append_assoc _ (List.map _ _)] at hd
    · rw [history_of_not_sends steps h.sends, h.queue, h.received] at hd
      rw [history_of_not_sends steps h.sends, hr]
      simp only [List.map_nil, List.append_nil] at hd ⊢
      exact hd.trans (List.prefix_append _ _)

/-- A peer hears what was reported, in that order and without gaps. -/
theorem received_eq_heard (hq : c.queue = []) (steps : List Step) :
    (run m defaults c steps).received =
      c.received ++ (heard m defaults c steps).map Report.reply := by
  have hp := (List.prefix_append _ _).trans (replies_run m defaults c steps)
  rw [hq, List.append_nil] at hp
  have hlen := (prefix_received_run m defaults c steps).length_le
  rw [List.prefix_iff_eq_take.1 hp, List.take_append, List.take_of_length_le hlen, heard,
    List.map_take]

end steps

end Connection
end RigWarden.Peer
