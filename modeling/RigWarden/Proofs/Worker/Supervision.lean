import RigWarden.Proofs.Session.PumpStep

/-!
# A supervisor under any calls

A supervisor is called in any order, whatever is found outside. Each call that comes back has one of
a few outcomes. Between calls a worker is held exactly while the supervisor is running, the state
goes only the ways that are meant, and an exit is told once and then remembered until the next
worker is started.
-/

namespace RigWarden.Supervisor

/-- A call, and what it meets outside. -/
inductive Call where
  | start (program : String) (spawned : Except Error Nat)
  | poll (ended : Option WorkerExit)
  | isAlive (ended : Option WorkerExit)
  | stop (clock : Clock) (killed : WorkerExit) (looks : List StopLook)

inductive Answer where
  | started (result : Except Error Unit)
  | polled (exit : Option WorkerExit)
  | alive (alive : Bool)
  | stopped (outcome : StopOutcome)

/-- The exit that an answer reports. -/
def Answer.exit? : Answer → Option WorkerExit
  | .polled exit => exit
  | .stopped (.graceful exit) | .stopped (.forced exit) => some exit
  | .started _ | .alive _ | .stopped .notRunning => none

/-- A call that comes back. To stop a worker takes a deadline that the clock can show, and a look
that decides. -/
def exec (grace : Duration) (s : Supervisor) : Call → Option (Answer × Supervisor)
  | .start program spawned =>
    let (result, s) := s.start program spawned
    some (.started result, s)
  | .poll ended =>
    let (exit, s) := s.poll ended
    some (.polled exit, s)
  | .isAlive ended => some (.alive (s.isAlive ended), s)
  | .stop clock killed looks =>
    match s.worker, clock.add? grace with
    | some _, none => none
    | _, deadline =>
      match s.stop (deadline.getD clock) killed looks with
      | (some outcome, s) => some (.stopped outcome, s)
      | (none, _) => none

/-- A call that came back. -/
structure Move where
  before : Supervisor
  call : Call
  answer : Answer
  after : Supervisor

/-- The calls that come back, and those from the first one that does not. -/
def trace (grace : Duration) (s : Supervisor) : List Call → List Move × List Call
  | [] => ([], [])
  | call :: calls =>
    match s.exec grace call with
    | none => ([], call :: calls)
    | some (answer, after) =>
      let (moves, rest) := trace grace after calls
      (⟨s, call, answer, after⟩ :: moves, rest)

/-- A worker is held while the supervisor is running, and no call is under way. -/
structure Settled (s : Supervisor) : Prop where
  held : s.worker.isSome = true ↔ s.state = .running
  notStarting : s.state ≠ .starting
  notStopping : s.state ≠ .stopping

/-- What can come of a call. -/
inductive Outcome (s : Supervisor) : Call → Answer → Supervisor → Prop where
  | launched (program : String) (w : Nat) (h : s.worker = none) :
    Outcome s (.start program (.ok w)) (.started (.ok ())) ⟨.running, some w, none⟩
  | failed (program : String) (e : Error) (h : s.worker = none) :
    Outcome s (.start program (.error e)) (.started (.error e)) { s with state := .crashed }
  | refused (program : String) (spawned : Except Error Nat) (h : s.worker.isSome = true) :
    Outcome s (.start program spawned) (.started (.error (.launch program .workerRunning))) s
  | unheard (ended : Option WorkerExit) : Outcome s (.poll ended) (.polled none) s
  | exited (e : WorkerExit) (h : s.state = .running) :
    Outcome s (.poll (some e)) (.polled (some e)) ⟨afterExit e, none, some e⟩
  | asked (ended : Option WorkerExit) (alive : Bool) : Outcome s (.isAlive ended) (.alive alive) s
  | ended (clock : Clock) (killed : WorkerExit) (looks : List StopLook) (outcome : StopOutcome)
    (e : WorkerExit) (hw : s.worker.isSome = true) (he : (Answer.stopped outcome).exit? = some e) :
    Outcome s (.stop clock killed looks) (.stopped outcome) ⟨.stopped, none, some e⟩
  | rested (clock : Clock) (killed : WorkerExit) (looks : List StopLook) (h : s.worker = none) :
    Outcome s (.stop clock killed looks) (.stopped .notRunning) s

variable {grace : Duration} {s s' : Supervisor} {call : Call} {answer : Answer}

theorem outcome_start (s : Supervisor) (program : String) (spawned : Except Error Nat) :
    Outcome s (.start program spawned) (.started (s.start program spawned).1)
      (s.start program spawned).2 := by
  cases hw : s.worker with
  | some w =>
    have hrefused : s.start program spawned = (.error (.launch program .workerRunning), s) := by
      simp [start, hw]
    rw [hrefused]
    exact .refused program spawned (by simp [hw])
  | none =>
    cases spawned with
    | ok w =>
      rw [start_ok hw]
      exact .launched program w hw
    | error e =>
      rw [start_error hw]
      exact .failed program e hw

theorem outcome_poll (h : s.Settled) (ended : Option WorkerExit) :
    Outcome s (.poll ended) (.polled (s.poll ended).1) (s.poll ended).2 := by
  cases ended with
  | none =>
    rw [poll_none]
    exact .unheard none
  | some e =>
    cases hw : s.worker with
    | none =>
      have hquiet : s.poll (some e) = (none, s) := by simp [poll, hw]
      rw [hquiet]
      exact .unheard (some e)
    | some w =>
      have hs : s.state = .running := h.held.1 (by simp [hw])
      rw [poll_some hs hw]
      exact .exited e hs

theorem stop_resting (h : s.Settled) (hw : s.worker = none) (deadline : Clock)
    (killed : WorkerExit) (looks : List StopLook) :
    s.stop deadline killed looks = (some .notRunning, s) := by
  have hr : s.state ≠ .running := fun hs => by simpa [hw] using h.held.2 hs
  rw [stop, beginStop_resting hw hr h.notStopping]

/-- What decides is a worker that has ended by itself or one that was killed. -/
theorem exit_decide {look : StopLook} {deadline : Clock} {killed : WorkerExit}
    {outcome : StopOutcome} (h : look.decide deadline killed = some outcome) :
    ∃ e, outcome = .graceful e ∨ outcome = .forced e := by
  unfold StopLook.decide at h
  split at h
  · next e _ => exact ⟨e, .inl (Option.some.inj h).symm⟩
  · split at h
    · exact ⟨killed, .inr (Option.some.inj h).symm⟩
    · cases h

theorem stop_cases {w : Nat} (hw : s.worker = some w) (deadline : Clock) (killed : WorkerExit)
    (looks : List StopLook) :
    (∃ outcome e, (Answer.stopped outcome).exit? = some e ∧
      s.stop deadline killed looks = (some outcome, ⟨.stopped, none, some e⟩)) ∨
    ((s.stop deadline killed looks).1 = none ∧
      ∀ look ∈ looks, look.decide deadline killed = none) := by
  rw [stop, beginStop_some hw]
  cases hfound : looks.findSome? fun l => l.decide deadline killed with
  | none => exact .inr ⟨rfl, List.findSome?_eq_none_iff.1 hfound⟩
  | some outcome =>
    obtain ⟨look, -, hlook⟩ := List.exists_of_findSome?_eq_some hfound
    obtain ⟨e, rfl | rfl⟩ := exit_decide hlook
    · exact .inl ⟨_, e, rfl, rfl⟩
    · exact .inl ⟨_, e, rfl, rfl⟩

theorem outcome_of_exec (h : s.Settled) (hexec : s.exec grace call = some (answer, s')) :
    Outcome s call answer s' := by
  cases call with
  | start program spawned =>
    cases hexec
    exact outcome_start s program spawned
  | poll ended =>
    cases hexec
    exact outcome_poll h ended
  | isAlive ended =>
    cases hexec
    exact .asked ended _
  | stop clock killed looks =>
    cases hw : s.worker with
    | none =>
      simp only [exec, hw, stop_resting h hw] at hexec
      cases hexec
      exact .rested clock killed looks hw
    | some w =>
      cases hadd : clock.add? grace with
      | none => simp [exec, hw, hadd] at hexec
      | some deadline =>
        simp only [exec, hw, hadd, Option.getD_some] at hexec
        rcases stop_cases hw deadline killed looks with ⟨outcome, e, he, hstop⟩ | ⟨hnone, -⟩
        · rw [hstop] at hexec
          cases hexec
          exact .ended clock killed looks outcome e (by simp [hw]) he
        · split at hexec
          · next hstop => simp [hstop] at hnone
          · cases hexec

/-- Only a stop can fail to come back: it holds a worker, and the clock cannot show the deadline or
no look has found the worker ended or the deadline reached. -/
theorem stop_of_exec (h : s.Settled) (hexec : s.exec grace call = none) :
    ∃ clock killed looks, call = .stop clock killed looks ∧ s.worker.isSome = true ∧
      ∀ deadline, clock.add? grace = some deadline → ∀ look ∈ looks,
        look.ended = none ∧ look.now.reached deadline = false := by
  cases call with
  | start program spawned => cases hexec
  | poll ended => cases hexec
  | isAlive ended => cases hexec
  | stop clock killed looks =>
    cases hw : s.worker with
    | none => simp [exec, hw, stop_resting h hw] at hexec
    | some w =>
      refine ⟨clock, killed, looks, rfl, rfl, fun deadline hadd look hlook => ?_⟩
      simp only [exec, hw, hadd, Option.getD_some] at hexec
      rcases stop_cases hw deadline killed looks with ⟨outcome, e, -, hstop⟩ | ⟨-, hall⟩
      · rw [hstop] at hexec
        cases hexec
      · have hnone := hall look hlook
        unfold StopLook.decide at hnone
        split at hnone
        · cases hnone
        · next hended =>
          split at hnone
          · cases hnone
          · next hreached => exact ⟨hended, Bool.eq_false_iff.2 hreached⟩

theorem settled_new : Settled {} := ⟨by decide, by decide, by decide⟩

theorem afterExit_cases (e : WorkerExit) : afterExit e = .stopped ∨ afterExit e = .crashed := by
  unfold afterExit
  split
  · exact .inl rfl
  · exact .inr rfl

theorem settled_of_resting {state : WorkerState} (h : state = .stopped ∨ state = .crashed)
    (exit : Option WorkerExit) : Settled ⟨state, none, exit⟩ := by
  rcases h with rfl | rfl
  · exact ⟨by simp, nofun, nofun⟩
  · exact ⟨by simp, nofun, nofun⟩

theorem Outcome.settled (ho : Outcome s call answer s') (h : s.Settled) : s'.Settled := by
  cases ho with
  | launched program w hw => exact ⟨by simp, nofun, nofun⟩
  | failed program e hw => rw [hw]; exact settled_of_resting (.inr rfl) _
  | refused | unheard | asked | rested => exact h
  | exited e hs => exact settled_of_resting (afterExit_cases e) _
  | ended => exact settled_of_resting (.inl rfl) _

/-- The ways from one state to another. -/
inductive Way : WorkerState → Call → WorkerState → Prop where
  | start (program : String) (spawned : Except Error Nat) {before after : WorkerState}
    (hb : before = .idle ∨ before = .stopped ∨ before = .crashed)
    (ha : after = .running ∨ after = .crashed) : Way before (.start program spawned) after
  | poll (ended : Option WorkerExit) {after : WorkerState}
    (ha : after = .stopped ∨ after = .crashed) : Way .running (.poll ended) after
  | stop (clock : Clock) (killed : WorkerExit) (looks : List StopLook) :
    Way .running (.stop clock killed looks) .stopped

/-- Without a worker nothing is running, and nothing is being started or stopped. -/
theorem Settled.resting (h : s.Settled) (hw : s.worker = none) :
    s.state = .idle ∨ s.state = .stopped ∨ s.state = .crashed := by
  have hr : s.state ≠ .running := fun hs => by simpa [hw] using h.held.2 hs
  have hstarting := h.notStarting
  have hstopping := h.notStopping
  cases hs : s.state <;> simp_all

theorem Outcome.way (ho : Outcome s call answer s') (h : s.Settled) :
    s'.state = s.state ∨ Way s.state call s'.state := by
  cases ho with
  | launched program w hw => exact .inr (.start program (.ok w) (h.resting hw) (.inl rfl))
  | failed program e hw => exact .inr (.start program (.error e) (h.resting hw) (.inr rfl))
  | refused | unheard | asked | rested => exact .inl rfl
  | exited e hs =>
    rw [hs]
    exact .inr (.poll (some e) (afterExit_cases e))
  | ended clock killed looks outcome e hw he =>
    rw [h.held.1 hw]
    exact .inr (.stop clock killed looks)

theorem Outcome.refuses {program : String} {spawned : Except Error Nat}
    (ho : Outcome s (.start program spawned) answer s') (hw : s.worker.isSome = true) :
    answer = .started (.error (.launch program .workerRunning)) ∧ s' = s := by
  cases ho with
  | launched _ _ hnone | failed _ _ hnone => simp [hnone] at hw
  | refused => exact ⟨rfl, rfl⟩

/-- Who reports an exit remembers it and holds no worker any more. -/
theorem Outcome.reports (ho : Outcome s call answer s') {e : WorkerExit}
    (he : answer.exit? = some e) : s'.worker = none ∧ s'.lastExit = some e := by
  cases ho with
  | launched | failed | refused | unheard | asked | rested => cases he
  | exited e' hs =>
    cases he
    exact ⟨rfl, rfl⟩
  | ended clock killed looks outcome e' hw he' =>
    rw [he'] at he
    cases he
    exact ⟨rfl, rfl⟩

theorem Outcome.stops {outcome : StopOutcome} (ho : Outcome s call (.stopped outcome) s') :
    s'.worker = none := by
  cases ho with
  | ended => rfl
  | rested _ _ _ hw => exact hw

/-- A worker was started. -/
def Answer.isLaunch : Answer → Bool
  | .started (.ok _) => true
  | _ => false

/-- What can come of a call without a worker, but to start one. -/
theorem Outcome.rests (ho : Outcome s call answer s') (hw : s.worker = none)
    (hl : answer.isLaunch = false) (hs : s.Settled) :
    s'.worker = none ∧ s'.lastExit = s.lastExit ∧ answer.exit? = none ∧
      ∀ clock killed looks, call = .stop clock killed looks →
        answer = .stopped .notRunning ∧ s' = s := by
  cases ho with
  | launched => cases hl
  | failed | unheard | asked => exact ⟨hw, rfl, rfl, nofun⟩
  | refused _ _ hsome | ended _ _ _ _ _ hsome => simp [hw] at hsome
  | exited e hr => simpa [hw] using hs.held.2 hr
  | rested => exact ⟨hw, rfl, rfl, fun _ _ _ _ => ⟨rfl, rfl⟩⟩

/-- What is true of a call that came back. -/
structure Move.Lawful (m : Move) : Prop where
  settled : m.after.Settled
  way : m.after.state = m.before.state ∨ Way m.before.state m.call m.after.state
  refused : ∀ program spawned, m.call = .start program spawned → m.before.worker.isSome = true →
    m.answer = .started (.error (.launch program .workerRunning)) ∧ m.after = m.before

/-- What is true of the calls that follow one, up to the next start of a worker. -/
structure Move.Quiet (m : Move) (exit : Option WorkerExit) : Prop where
  remembers : m.after.lastExit = exit
  silent : m.answer.exit? = none
  stops : ∀ clock killed looks, m.call = .stop clock killed looks →
    m.answer = .stopped .notRunning ∧ m.after = m.before

theorem trace_cons (hexec : s.exec grace call = some (answer, s')) (calls : List Call) :
    s.trace grace (call :: calls) =
      (⟨s, call, answer, s'⟩ :: (s'.trace grace calls).1, (s'.trace grace calls).2) := by
  simp only [trace, hexec]

theorem trace_stuck (hexec : s.exec grace call = none) (calls : List Call) :
    s.trace grace (call :: calls) = ([], call :: calls) := by
  simp only [trace, hexec]

theorem lawful_trace (h : s.Settled) (calls : List Call) :
    ∀ m ∈ (s.trace grace calls).1, m.Lawful := by
  induction calls generalizing s with
  | nil => exact List.forall_mem_nil _
  | cons call calls ih =>
    cases hexec : s.exec grace call with
    | none =>
      rw [trace_stuck hexec]
      exact List.forall_mem_nil _
    | some result =>
      obtain ⟨answer, s'⟩ := result
      have ho := outcome_of_exec h hexec
      rw [trace_cons hexec]
      refine List.forall_mem_cons.2 ⟨⟨ho.settled h, ho.way h, ?_⟩, ih (ho.settled h)⟩
      rintro program spawned rfl hw
      exact ho.refuses hw

theorem quiet_trace (h : s.Settled) (hw : s.worker = none) (calls : List Call) :
    ∀ m ∈ (s.trace grace calls).1.takeWhile (!·.answer.isLaunch), m.Quiet s.lastExit := by
  induction calls generalizing s with
  | nil => exact List.forall_mem_nil _
  | cons call calls ih =>
    cases hexec : s.exec grace call with
    | none =>
      rw [trace_stuck hexec]
      exact List.forall_mem_nil _
    | some result =>
      obtain ⟨answer, s'⟩ := result
      have ho := outcome_of_exec h hexec
      rw [trace_cons hexec]
      cases hl : answer.isLaunch with
      | true => simp [hl]
      | false =>
        obtain ⟨hw', hlast, hsilent, hstops⟩ := ho.rests hw hl h
        rw [List.takeWhile_cons_of_pos (by simp [hl])]
        refine List.forall_mem_cons.2 ⟨⟨hlast, hsilent, hstops⟩, ?_⟩
        exact hlast ▸ ih (ho.settled h) hw'

/-- Each call that came back was made in a settled state, and the trace goes on from where it left
off. -/
theorem trace_split (h : s.Settled) (calls : List Call) {pre post : List Move} {m : Move}
    (hsplit : (s.trace grace calls).1 = pre ++ m :: post) :
    m.before.Settled ∧ Outcome m.before m.call m.answer m.after ∧
      ∃ more, post = (m.after.trace grace more).1 := by
  induction calls generalizing s pre with
  | nil => simp [trace] at hsplit
  | cons call calls ih =>
    cases hexec : s.exec grace call with
    | none => simp [trace_stuck hexec] at hsplit
    | some result =>
      obtain ⟨answer, s'⟩ := result
      have ho := outcome_of_exec h hexec
      rw [trace_cons hexec] at hsplit
      cases pre with
      | nil =>
        obtain ⟨rfl, rfl⟩ := List.cons.inj hsplit
        exact ⟨h, ho, calls, rfl⟩
      | cons first pre => exact ih (ho.settled h) (List.cons.inj hsplit).2

/-- The supervisor after some calls. -/
def afterMoves (s : Supervisor) (moves : List Move) : Supervisor :=
  (moves.getLast?.map Move.after).getD s

theorem afterMoves_cons (m : Move) (moves : List Move) :
    s.afterMoves (m :: moves) = m.after.afterMoves moves := by
  cases moves with
  | nil => rfl
  | cons n moves => simp [afterMoves, List.getLast?_cons]

theorem trace_complete (h : s.Settled) (calls : List Call) :
    (s.trace grace calls).1.map Move.call ++ (s.trace grace calls).2 = calls ∧
    ∀ call rest, (s.trace grace calls).2 = call :: rest →
      ∃ clock killed looks, call = .stop clock killed looks ∧
        (s.afterMoves (s.trace grace calls).1).worker.isSome = true ∧
        ∀ deadline, clock.add? grace = some deadline → ∀ look ∈ looks,
          look.ended = none ∧ look.now.reached deadline = false := by
  induction calls generalizing s with
  | nil => exact ⟨rfl, nofun⟩
  | cons call calls ih =>
    cases hexec : s.exec grace call with
    | none =>
      rw [trace_stuck hexec]
      refine ⟨rfl, fun call' rest heq => ?_⟩
      obtain ⟨rfl, -⟩ := List.cons.inj heq
      exact stop_of_exec h hexec
    | some result =>
      obtain ⟨answer, s'⟩ := result
      have ho := outcome_of_exec h hexec
      obtain ⟨hcalls, hstuck⟩ := ih (ho.settled h)
      rw [trace_cons hexec]
      refine ⟨congrArg (call :: ·) hcalls, fun call' rest heq => ?_⟩
      rw [afterMoves_cons]
      exact hstuck call' rest heq

/-- Whatever is called and met outside: every call that comes back leaves the supervisor settled and
goes a way that is meant. An exit that is reported is remembered; before the first worker is started,
and from then until the next one, no exit is reported and a stop does nothing. Only a stop that holds
a worker can fail to come back. -/
theorem lawful_calls (grace : Duration) (calls : List Call) :
    (∀ m ∈ (trace grace {} calls).1, m.Lawful) ∧
    (∀ n ∈ (trace grace {} calls).1.takeWhile (!·.answer.isLaunch), n.Quiet none) ∧
    (∀ pre m post, (trace grace {} calls).1 = pre ++ m :: post →
      (∀ e, m.answer.exit? = some e → m.after.lastExit = some e ∧
        ∀ n ∈ post.takeWhile (!·.answer.isLaunch), n.Quiet (some e)) ∧
      (∀ outcome, m.answer = .stopped outcome →
        ∀ n ∈ post.takeWhile (!·.answer.isLaunch), n.Quiet m.after.lastExit)) ∧
    (trace grace {} calls).1.map Move.call ++ (trace grace {} calls).2 = calls ∧
    ∀ call rest, (trace grace {} calls).2 = call :: rest →
      ∃ clock killed looks, call = .stop clock killed looks ∧
        (afterMoves {} (trace grace {} calls).1).worker.isSome = true ∧
        ∀ deadline, clock.add? grace = some deadline → ∀ look ∈ looks,
          look.ended = none ∧ look.now.reached deadline = false := by
  refine ⟨lawful_trace settled_new calls, quiet_trace settled_new rfl calls,
    fun pre m post hsplit => ?_, trace_complete settled_new calls⟩
  obtain ⟨hbefore, ho, more, rfl⟩ := trace_split settled_new calls hsplit
  have hafter := ho.settled hbefore
  refine ⟨fun e he => ?_, fun outcome houtcome => ?_⟩
  · obtain ⟨hw, hlast⟩ := ho.reports he
    exact ⟨hlast, hlast ▸ quiet_trace hafter hw more⟩
  · rw [houtcome] at ho
    exact quiet_trace hafter ho.stops more

end RigWarden.Supervisor
