import RigWarden.Proofs.Peer.Reports

/-!
# Which session an event belongs to

Replies name no session, so a peer can only take an event for one of the session that was announced
last. That is right as long as a start is let in only when no earlier session has anything left to
say. The slot does not see to this: it is given back before the session that is asked to stop has
come to its end.
-/

namespace RigWarden.Peer

/-- The reply is about a session. -/
def Reply.isSessional : Reply → Bool
  | event _ => true
  | sessionStarted _ _ => true
  | _ => false

/-- The sessions that were announced since the last end of a session. -/
def announced (log : List Report) : List Nat :=
  log.foldl (fun open_ r => match r.reply with
    | .sessionStarted _ _ => r.session.toList ++ open_
    | .event (.control .stopped) => []
    | _ => open_) []

/-- Every event comes from the sessions that it can be taken for. -/
def Attributable (log : List Report) : Prop :=
  ∀ before origin e after, log = before ++ ⟨origin, .event e⟩ :: after →
    ∀ s ∈ announced before, origin = some s

/-- The session that an event comes from, if the report is one. -/
def Report.eventSession? (r : Report) : Option (Option Nat) :=
  match r.reply with
  | .event _ => some r.session
  | _ => none

/-- The task may still put something about a session into the queue. -/
def Task.mayReport : Task → Bool
  | starting _ _ => true
  | obtained _ _ => true
  | abandoning _ => true
  | awaitingAbandoned _ => true
  | confirming _ => true
  | announcing _ _ => true
  | forwarding _ => true
  | relaying _ _ => true
  | _ => false

/-- The task passes on what a session sends, after its announcement. -/
def Task.passes? : Task → Option Nat
  | forwarding s => some s
  | relaying s _ => some s
  | _ => none

/-- Only a session that was just started has more to say to a peer that no longer listens. -/
theorem Task.announcing_of_mayReport {t : Task} (h : (t.reported false).mayReport = true) :
    ∃ s b, t = announcing s b := by
  cases t with
  | announcing s b => exact ⟨s, b, rfl⟩
  | _ => simp [reported, mayReport] at h

@[simp] theorem announced_nil : announced [] = [] := rfl

theorem announced_started (log : List Report) (s : Nat) (name : String) (b : Backend) :
    announced (log ++ [⟨some s, .sessionStarted name b⟩]) = s :: announced log := by
  simp [announced]

theorem announced_event (log : List Report) (origin : Option Nat) (e : Event) :
    announced (log ++ [⟨origin, .event e⟩]) = if e.isTerminal then [] else announced log := by
  cases e with
  | metrics r => simp [announced, Event.isTerminal]
  | control c => cases c <;> simp [announced, Event.isTerminal]

theorem announced_of_not_sessional {r : Report} (h : r.reply.isSessional = false)
    (log : List Report) : announced (log ++ [r]) = announced log := by
  obtain ⟨origin, reply⟩ := r
  cases reply with
  | event | sessionStarted => cases h
  | connected | provisionStatus | error => simp [announced]

theorem attributable_nil : Attributable [] := by
  intro before origin e after h
  simp at h

theorem Attributable.of_prefix {log log' : List Report} (h : Attributable log') (hp : log <+: log') :
    Attributable log := by
  obtain ⟨rest, rfl⟩ := hp
  intro before origin e after heq
  refine h before origin e (after ++ rest) ?_
  rw [heq, List.append_assoc, List.cons_append]

/-- The event at a place of the log comes from what was announced before it. -/
theorem Attributable.session_eq {log : List Report} (h : Attributable log) {n : Nat}
    {origin : Option Nat} (hn : log[n]?.bind Report.eventSession? = some origin) :
    ∀ s ∈ announced (log.take n), origin = some s := by
  obtain ⟨r, hr, hevent⟩ := Option.bind_eq_some_iff.1 hn
  obtain ⟨hlt, hget⟩ := List.getElem?_eq_some_iff.1 hr
  obtain ⟨session, reply⟩ := r
  cases reply with
  | event e =>
    cases hevent
    refine h (log.take n) session e (log.drop (n + 1)) ?_
    rw [← hget, ← List.drop_eq_getElem_cons hlt, List.take_append_drop]
  | _ => cases hevent

theorem Attributable.append {log : List Report} {r : Report} (h : Attributable log)
    (hr : ∀ e, r.reply = .event e → ∀ s ∈ announced log, r.session = some s) :
    Attributable (log ++ [r]) := by
  intro before origin e after heq
  rcases List.append_eq_append_iff.1 heq with ⟨between, rfl, hb⟩ | ⟨between, rfl, hb⟩
  · cases between with
    | nil =>
      simp only [List.nil_append, List.cons.injEq] at hb
      rw [List.append_nil]
      rw [hb.1] at hr
      exact hr e rfl
    | cons x between => simp at hb
  · cases between with
    | nil =>
      simp only [List.nil_append, List.cons.injEq] at hb
      rw [List.append_nil] at hr
      rw [← hb.1] at hr
      exact hr e rfl
    | cons x between =>
      simp only [List.cons_append, List.cons.injEq] at hb
      obtain ⟨rfl, hb⟩ := hb
      exact h before origin e between rfl

namespace Connection

/-- No session has anything left to say, as far as the peer can tell and in fact. -/
def isQuiet (c : Connection) (log : List Report) : Bool :=
  (announced log).isEmpty && !c.tasks.any Task.mayReport

/-- A step that lets a start in. -/
def admits (m : Machine) (defaults : Defaults) (c : Connection) (a : Step) : Bool :=
  c.slot = .empty && (step m defaults c a).slot = .starting

/-- Every start that is let in finds the connection quiet. -/
def isPatient (m : Machine) (defaults : Defaults) : Connection → List Report → List Step → Bool
  | _, _, [] => true
  | c, log, a :: steps =>
    (!c.admits m defaults a || c.isQuiet log) &&
      isPatient m defaults (step m defaults c a) (log ++ c.reports a) steps

/-- At most one session has anything left to say, and it is the one that was announced. -/
structure Single (c : Connection) (log : List Report) : Prop where
  one : c.tasks.countP Task.mayReport ≤ 1
  attributable : Attributable log
  passing : ∀ s ∈ announced log, ∀ t ∈ c.tasks, t.mayReport = true → t.passes? = some s
  answers : ∀ r, c.reader = .replying r → r.isSessional = false

section steps

variable {m : Machine} {defaults : Defaults} {c d : Connection} {log : List Report} {k : Nat}
  {t u : Task}

/-- The task that may report is the only one. -/
theorem Single.eq_of_mayReport (h : c.Single log) (ht : c.tasks[k]? = some t)
    (hm : t.mayReport = true) {v : Task} (hv : v ∈ c.tasks.set k u) (hvm : v.mayReport = true) :
    v = u := by
  obtain ⟨j, hj⟩ := List.mem_iff_getElem?.1 hv
  by_cases hjk : k = j
  · subst hjk
    rw [List.getElem?_set_self (List.getElem?_eq_some_iff.1 ht).1] at hj
    exact (Option.some.inj hj).symm
  · rw [List.getElem?_set_ne hjk] at hj
    have hmem : v ∈ c.tasks.set k .ended :=
      List.mem_iff_getElem?.2 ⟨j, by rw [List.getElem?_set_ne hjk, hj]⟩
    have hcount := countP_set Task.mayReport (u := .ended) ht
    rw [hm] at hcount
    have hpos := List.countP_pos_iff.2 ⟨v, hmem, hvm⟩
    have hone := h.one
    simp only [Task.mayReport, if_true, Bool.false_eq_true, if_false] at hcount
    omega

/-- A task goes on as another one, and may have reported something. -/
theorem Single.replace {log' : List Report} (h : c.Single log) (ht : c.tasks[k]? = some t)
    (htasks : d.tasks = c.tasks.set k u) (hreader : d.reader = c.reader)
    (hm : u.mayReport = true → t.mayReport = true) (hlog : Attributable log')
    (hpasses : ∀ s ∈ announced log', u.mayReport = true → u.passes? = some s)
    (hothers : ∀ s ∈ announced log', s ∈ announced log ∨ t.mayReport = true) :
    d.Single log' := by
  refine ⟨?_, hlog, fun s hs v hv hvm => ?_, fun r hr => h.answers r (hreader ▸ hr)⟩
  · have hcount := countP_set Task.mayReport (u := u) ht
    have hone := h.one
    rw [htasks]
    by_cases hu : u.mayReport = true
    · simp only [hu, hm hu, if_true] at hcount
      omega
    · simp only [hu, Bool.false_eq_true, if_false] at hcount
      omega
  · rw [htasks] at hv
    rcases hothers s hs with hold | htm
    · rcases List.mem_or_eq_of_mem_set hv with hmem | rfl
      · exact h.passing s hold v hmem hvm
      · exact hpasses s hs hvm
    · obtain rfl := h.eq_of_mayReport ht htm hv hvm
      exact hpasses s hs hvm

/-- A task goes on as another one without a word. -/
theorem Single.goOn (h : c.Single log) (ht : c.tasks[k]? = some t)
    (htasks : d.tasks = c.tasks.set k u) (hreader : d.reader = c.reader)
    (hm : u.mayReport = true → t.mayReport = true)
    (hpasses : ∀ s, t.passes? = some s → u.mayReport = true → u.passes? = some s) :
    d.Single log :=
  h.replace ht htasks hreader hm h.attributable
    (fun s hs hu => hpasses s (h.passing s hs t (List.mem_of_getElem? ht) (hm hu)) hu)
    fun _ hs => .inl hs

theorem Single.turn (h : c.Single log) (htasks : d.tasks = c.tasks)
    (hreader : ∀ r, d.reader = .replying r → c.reader = .replying r ∨ r.isSessional = false) :
    d.Single log := by
  refine ⟨htasks ▸ h.one, h.attributable, fun s hs t ht => h.passing s hs t (htasks ▸ ht),
    fun r hr => ?_⟩
  exact (hreader r hr).elim (h.answers r) id

/-- A task begins that has nothing to report. -/
theorem Single.spawn (h : c.Single log) (htasks : d.tasks = c.tasks ++ [u])
    (hu : u.mayReport = false) (hreader : ∀ r, d.reader = .replying r → c.reader = .replying r) :
    d.Single log := by
  refine ⟨?_, h.attributable, fun s hs t ht htm => ?_, fun r hr => h.answers r (hreader r hr)⟩
  · rw [htasks, List.countP_append, List.countP_singleton, hu]
    simpa using h.one
  · rw [htasks, List.mem_append, List.mem_singleton] at ht
    rcases ht with ht | rfl
    · exact h.passing s hs t ht htm
    · rw [hu] at htm
      cases htm

/-- A start begins on a quiet connection. -/
theorem Single.start {profile : Profile} {b : Backend} (h : c.Single log)
    (hq : c.isQuiet log = true) (htasks : d.tasks = c.tasks ++ [.starting profile b])
    (hreader : d.reader = c.reader) : d.Single log := by
  simp only [isQuiet, Bool.and_eq_true, List.isEmpty_iff, Bool.not_eq_true',
    List.any_eq_false] at hq
  refine ⟨?_, h.attributable, fun s hs => ?_, fun r hr => h.answers r (hreader ▸ hr)⟩
  · rw [htasks, List.countP_append, List.countP_eq_zero.2 hq.2]
    simp [Task.mayReport]
  · rw [hq.1] at hs
    cases hs

/-- What a task becomes without a word. -/
theorem tasks_of_silent (ht : c.tasks[k]? = some t) (hr : t.report? = none) (m : Machine)
    (env : ProvisionEnv) :
    (c.taskStep m env k).tasks = c.tasks ∨
      ∃ u, (c.taskStep m env k).tasks = c.tasks.set k u ∧
        (u.mayReport = true → t.mayReport = true) ∧
        ∀ s, t.passes? = some s → u.mayReport = true → u.passes? = some s := by
  have still {u : Task} (hu : u.mayReport = false) : (u.mayReport = true → t.mayReport = true) ∧
      ∀ s, t.passes? = some s → u.mayReport = true → u.passes? = some s := by
    simp [hu]
  have passing {u : Task} (hm : t.mayReport = true) (hp : t.passes? = none) :
      (u.mayReport = true → t.mayReport = true) ∧
        ∀ s, t.passes? = some s → u.mayReport = true → u.passes? = some s := by
    simp [hm, hp]
  simp only [taskStep, ht]
  cases t with
  | reporting | confirming | announcing | relaying => cases hr
  | starting profile b =>
    simp only [Connection.start]
    split <;> exact .inr ⟨_, rfl, passing rfl rfl⟩
  | obtained s b =>
    simp only
    split <;> exact .inr ⟨_, rfl, passing rfl rfl⟩
  | failed e => exact .inr ⟨_, rfl, still rfl⟩
  | abandoning s => exact .inr ⟨_, rfl, passing rfl rfl⟩
  | awaitingAbandoned s =>
    simp only
    split
    · exact .inr ⟨_, rfl, passing rfl rfl⟩
    · exact .inl rfl
  | forwarding s =>
    simp only [takeEvent]
    split
    · exact .inr ⟨_, rfl, still rfl⟩
    · split
      · exact .inr ⟨_, rfl, fun _ => rfl, fun _ h _ => h⟩
      · exact .inl rfl
      · exact .inr ⟨_, rfl, still rfl⟩
  | releasing s => exact .inr ⟨_, rfl, still rfl⟩
  | dropping s =>
    refine .inr ⟨_, rfl, still ?_⟩
    split <;> rfl
  | stopping s => exact .inr ⟨_, rfl, still rfl⟩
  | awaiting s =>
    simp only
    split
    · exact .inr ⟨_, rfl, still rfl⟩
    · exact .inl rfl
  | ended => exact .inl rfl

/-- A report and its task fit together. -/
theorem Single.report (h : c.Single log) (ht : c.tasks[k]? = some t) {r : Report}
    (hr : t.report? = some r) (htasks : d.tasks = c.tasks.set k (t.reported true))
    (hreader : d.reader = c.reader) : d.Single (log ++ [r]) := by
  have hmem := List.mem_of_getElem? ht
  -- What may report but passes nothing on is alone before any announcement.
  have hnone : t.mayReport = true → t.passes? = none → announced log = [] := fun hm hp =>
    List.eq_nil_iff_forall_not_mem.2 fun s hs => by
      have hs := h.passing s hs t hmem hm
      rw [hp] at hs
      cases hs
  cases t with
  | reporting e =>
    cases hr
    have hlog : announced (log ++ [⟨none, .ofError e⟩]) = announced log :=
      announced_of_not_sessional rfl log
    refine h.replace ht htasks hreader nofun (h.attributable.append nofun) nofun fun s hs => ?_
    exact .inl (hlog ▸ hs)
  | confirming s =>
    cases hr
    have hlog := hnone rfl rfl
    refine h.replace ht htasks hreader nofun (h.attributable.append fun e he i hi => ?_) nofun
      fun _ _ => .inr rfl
    rw [hlog] at hi
    cases hi
  | announcing s b =>
    cases hr
    refine h.replace ht htasks hreader (fun _ => rfl) (h.attributable.append nofun)
      (fun i hi _ => ?_) fun _ _ => .inr rfl
    rw [announced_started, hnone rfl rfl, List.mem_singleton] at hi
    rw [hi]
    rfl
  | relaying s e =>
    cases hr
    have hown : ∀ i ∈ announced log, some s = some i := fun i hi => h.passing i hi _ hmem rfl
    refine h.replace ht htasks hreader (fun _ => rfl)
      (h.attributable.append fun _ _ i hi => hown i hi) (fun i hi hu => ?_) fun _ _ => .inr rfl
    rw [announced_event] at hi
    cases he : e.isTerminal with
    | true => simp [he] at hi
    | false =>
      simp only [he, Bool.false_eq_true, if_false] at hi
      simpa [Task.reported, he, Task.passes?] using hown i hi
  | _ => cases hr

theorem Single.taskStep (h : c.Single log) (k : Nat) (env : ProvisionEnv) :
    (c.taskStep m env k).Single (log ++ c.reports (.task k env)) := by
  simp only [reports, report?]
  cases ht : c.tasks[k]? with
  | none =>
    simp only [Connection.taskStep, ht, Option.bind_none, Option.toList_none, ite_self,
      List.append_nil]
    exact h
  | some t =>
    simp only [Option.bind_some]
    cases hr : t.report? with
    | none =>
      obtain ⟨-, -, -, hreader⟩ := taskStep_of_silent (m := m) ht hr env
      simp only [Option.toList_none, ite_self, List.append_nil]
      rcases tasks_of_silent ht hr m env with htasks | ⟨u, htasks, hm, hp⟩
      · exact h.turn htasks fun r hr => .inl (hreader ▸ hr)
      · exact h.goOn ht htasks hreader hm hp
    | some r =>
      rw [taskStep_of_report ht hr]
      refine send_report_cases (P := fun d rs => d.Single (log ++ rs))
        (h.report ht hr rfl rfl) ?_ ?_
      · rw [List.append_nil]
        refine h.goOn ht rfl rfl (fun hm => ?_) fun s hs hm => ?_
        · obtain ⟨s, b, rfl⟩ := Task.announcing_of_mayReport hm
          rfl
        · obtain ⟨s, b, rfl⟩ := Task.announcing_of_mayReport hm
          cases hs
      · rwa [List.append_nil]

theorem Single.takeRequest (h : c.Single log) (r : Option Request)
    (hq : c.slot = .empty → (c.takeRequest defaults r).slot = .starting → c.isQuiet log = true) :
    (c.takeRequest defaults r).Single log := by
  unfold Connection.takeRequest at hq ⊢
  split
  · split
    · refine h.turn rfl fun r hr => .inr ?_
      cases hr
      rfl
    · next hslot =>
      obtain ⟨hs, rfl⟩ := Slot.reserve?_eq_some_iff.1 hslot
      exact h.start (hq hs (by simp [hslot, Connection.spawn])) rfl rfl
  · split
    · exact h.spawn rfl rfl fun _ hr => hr
    · exact h.turn rfl fun _ hr => .inl hr
  · refine h.turn rfl fun r hr => .inr ?_
    cases hr
    rfl
  · refine h.turn rfl fun r hr => .inr ?_
    cases hr
    rfl

theorem Single.readerStep (h : c.Single log) :
    c.readerStep.Single (log ++ c.reports .reader) := by
  unfold Connection.readerStep reports report?
  cases hr : c.reader with
  | replying r =>
    have hn := h.answers r hr
    refine send_report_cases (r := ⟨none, r⟩) (P := fun d rs => d.Single (log ++ rs)) ?_ ?_ ?_
    · refine ⟨h.one, h.attributable.append fun e he => ?_, ?_, fun _ hr => by cases hr⟩
      · change r = .event e at he
        rw [he] at hn
        cases hn
      · rw [announced_of_not_sessional hn]
        exact h.passing
    · rw [List.append_nil]
      exact h.turn rfl fun _ hr => by cases hr
    · rwa [List.append_nil]
  | leaving =>
    simp only [Reader.report?, Option.toList_none, ite_self, List.append_nil]
    split
    · exact h.spawn rfl rfl fun _ hr => by cases hr
    · exact h.turn rfl fun _ hr => by cases hr
  | awaiting k =>
    simp only [Reader.report?, Option.toList_none, ite_self, List.append_nil]
    split
    · exact h.turn rfl fun _ hr => by cases hr
    · exact h
  | reading | closed =>
    simpa [Reader.report?] using h

theorem Single.step (h : c.Single log) (a : Step)
    (hq : c.admits m defaults a = true → c.isQuiet log = true) :
    (step m defaults c a).Single (log ++ c.reports a) := by
  have hsilent : c.report? a = none → log ++ c.reports a = log := fun h => by simp [reports, h]
  cases a with
  | message text =>
    rw [hsilent rfl]
    simp only [admits, Connection.step, takeMessage] at hq ⊢
    split
    · next hr =>
      refine h.takeRequest _ fun he hs => hq ?_
      simp only [hr, he, hs, decide_true, Bool.and_self]
    · exact h
  | disconnect =>
    rw [hsilent rfl]
    simp only [Connection.step, disconnect]
    split
    · exact h.turn rfl fun _ hr => by cases hr
    · exact h
  | reader => exact h.readerStep
  | task k env => exact h.taskStep k env
  | deliver =>
    rw [hsilent rfl]
    simp only [Connection.step]
    split
    · exact h
    · exact h.turn rfl fun _ hr => .inl hr
  | unreachable | pump | worker =>
    rw [hsilent rfl]
    exact h.turn rfl fun _ hr => .inl hr

theorem Single.run (h : c.Single log) (steps : List Step)
    (hp : c.isPatient m defaults log steps = true) :
    (run m defaults c steps).Single (log ++ history m defaults c steps) := by
  induction steps generalizing c log with
  | nil => simpa [history] using h
  | cons a steps ih =>
    simp only [isPatient, Bool.and_eq_true, Bool.or_eq_true, Bool.not_eq_true'] at hp
    have hstep := h.step a fun ha => hp.1.resolve_left fun hn => by
      rw [ha] at hn
      cases hn
    rw [run_cons, history, ← List.append_assoc]
    exact ih hstep hp.2

theorem single_accept (host : Host) (version : String) : (accept host version).Single [] :=
  ⟨Nat.zero_le _, attributable_nil, nofun, nofun⟩

end steps

/-- If every start that is let in finds the connection quiet, a peer takes every event that it hears
for one of the session that sent it. -/
theorem attributable_heard (m : Machine) (defaults : Defaults) (host : Host) (version : String)
    (steps : List Step) (hp : (accept host version).isPatient m defaults [] steps = true) :
    (run m defaults (accept host version) steps).received =
        .connected version :: (heard m defaults (accept host version) steps).map Report.reply ∧
      Attributable (heard m defaults (accept host version) steps) := by
  have h := (single_accept host version).run steps hp
  exact ⟨received_eq_heard rfl steps, h.attributable.of_prefix (List.take_prefix _ _)⟩

/-- The first session comes to its end before the peer asks for a second one. -/
def oneAfterTheOther : List Step :=
  [askStart] ++ List.replicate 3 (.task 0 noFetch) ++ List.replicate 5 (look 0) ++
    List.replicate 5 (.task 0 noFetch) ++ [askStart] ++ List.replicate 3 (.task 1 noFetch) ++
    List.replicate 4 .deliver

theorem attributable_oneAfterTheOther :
    (heard bareMachine simulating (accept bareHost "1") oneAfterTheOther).length = 4 ∧
      (run bareMachine simulating (accept bareHost "1") oneAfterTheOther).received =
        .connected "1" ::
          (heard bareMachine simulating (accept bareHost "1") oneAfterTheOther).map Report.reply ∧
      Attributable (heard bareMachine simulating (accept bareHost "1") oneAfterTheOther) :=
  ⟨by decide +kernel, attributable_heard bareMachine simulating bareHost "1" oneAfterTheOther
    (by decide +kernel)⟩

/-- The peer asks for an end and at once for another start. The slot is empty by then, but the first
session has not yet said that its worker could not be started. -/
def startAfterStop : List Step :=
  [askStart] ++ List.replicate 3 (.task 0 noFetch) ++ [askEnd, .task 1 noFetch] ++
    List.replicate 5 (look 0) ++ [askStart] ++ List.replicate 3 (.task 2 noFetch) ++
    List.replicate 2 (.task 0 noFetch) ++ List.replicate 3 .deliver

theorem not_always_attributable : ¬ ∀ (m : Machine) (defaults : Defaults) (host : Host)
    (version : String) (steps : List Step),
    Attributable (heard m defaults (accept host version) steps) := by
  intro h
  have hthird :
      ((heard bareMachine simulating (accept bareHost "1") startAfterStop)[2]?.bind
          Report.eventSession? = some (some 0)) ∧
        announced ((heard bareMachine simulating (accept bareHost "1") startAfterStop).take 2) =
          [1, 0] := by
    decide +kernel
  obtain ⟨hevent, hannounced⟩ := hthird
  have hsession := (h bareMachine simulating bareHost "1" startAfterStop).session_eq hevent 1
    (by rw [hannounced]; exact List.mem_cons_self)
  cases hsession

end Connection
end RigWarden.Peer
