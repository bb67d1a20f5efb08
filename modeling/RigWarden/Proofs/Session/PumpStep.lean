import RigWarden.Session.Pump

/-!
# Single steps of the pump

What launching, looking at the worker and stopping make of a pump, one equation for each outcome.
Reading the log moves only the tailer and the tally, so it is described once for all phases.
-/

namespace RigWarden

namespace Supervisor

variable {s : Supervisor}

theorem start_ok (h : s.worker = none) (program : String) (w : Nat) :
    s.start program (.ok w) = (.ok (), ⟨.running, some w, none⟩) := by
  simp [start, h]

theorem start_error (h : s.worker = none) (program : String) (e : Error) :
    s.start program (.error e) = (.error e, { s with state := .crashed }) := by
  simp [start, h]

theorem poll_none (s : Supervisor) : s.poll none = (none, s) := by
  unfold poll
  split <;> first | rfl | contradiction

theorem poll_some {w : Nat} (hs : s.state = .running) (hw : s.worker = some w) (e : WorkerExit) :
    s.poll (some e) = (some e, ⟨afterExit e, none, some e⟩) := by
  simp [poll, hs, hw]

theorem beginStop_some {w : Nat} (h : s.worker = some w) :
    s.beginStop = (some w, { s with state := .stopping, worker := none }) := by
  simp [beginStop, h]

/-- A supervisor without a worker that is neither running nor stopping has nothing to stop. -/
theorem beginStop_resting (hw : s.worker = none) (hr : s.state ≠ .running)
    (hs : s.state ≠ .stopping) : s.beginStop = (none, s) := by
  cases s
  simp_all [beginStop]

theorem afterExit_success {e : WorkerExit} (h : e.isSuccess = true) : afterExit e = .stopped := by
  simp [afterExit, h]

theorem afterExit_failure {e : WorkerExit} (h : e.isSuccess = false) : afterExit e = .crashed := by
  simp [afterExit, h]

end Supervisor

namespace Pump

variable {p : Pump}

/-- Reading the log touches the tailer and the tally, and sends readings only. -/
theorem drain_eq (p : Pump) (o : Observation) : ∃ tailer tally, ∃ rs : List Reading,
    p.drain o = ({ p with tailer := tailer, tally := tally }, rs.map .metrics) := by
  unfold drain
  split
  next tailer _ => exact ⟨tailer, p.tally, [], rfl⟩
  next lines tailer _ => exact ⟨tailer, _, _, rfl⟩

theorem launch_ok (h : p.supervisor.worker = none) {o : Observation} {w : Nat}
    (ho : o.spawned = .ok w) (n : Nat) :
    p.launch o n =
      ({ p with supervisor := ⟨.running, some w, none⟩, restarts := n, published := .running,
                phase := .draining },
        if n = 0 then [] else [.control (.restarted n)]) := by
  simp only [launch, ho, Supervisor.start_ok h]
  rfl

theorem launch_error (h : p.supervisor.worker = none) {o : Observation} {e : Error}
    (ho : o.spawned = .error e) (n : Nat) :
    p.launch o n =
      ({ p with supervisor := { p.supervisor with state := .crashed }, restarts := n,
                published := .crashed, phase := .stopping },
        [.control (.launchFailed e.message)]) := by
  simp only [launch, ho, Supervisor.start_error h]
  rfl

theorem afterExit_success {e : WorkerExit} (h : e.isSuccess = true) :
    p.afterExit e = (p.goTo .stopping, [.control (.exited e)]) := by
  simp [afterExit, h]

theorem afterExit_last {e : WorkerExit} (h : e.isSuccess = false)
    (hm : p.policy.maxRestarts ≤ p.restarts) :
    p.afterExit e = (p.goTo .stopping, [.control (.crashed e)]) := by
  simp [afterExit, h, hm]

theorem afterExit_again {e : WorkerExit} (h : e.isSuccess = false)
    (hm : p.restarts < p.policy.maxRestarts) :
    p.afterExit e = (p.goTo (.backingOff (p.restarts + 1)), [.control (.crashed e)]) := by
  simp [afterExit, h, Nat.not_le.2 hm]

theorem beginStop_resting (hw : p.supervisor.worker = none) (hr : p.supervisor.state ≠ .running)
    (hs : p.supervisor.state ≠ .stopping) (o : Observation) :
    p.beginStop o = p.publish.goTo .finishing := by
  simp only [beginStop, Supervisor.beginStop_resting hw hr hs]

theorem beginStop_some {w : Nat} (hw : p.supervisor.worker = some w) {o : Observation}
    {deadline : Clock} (hd : o.clock.add? p.grace = some deadline) :
    p.beginStop o =
      { p with supervisor := { p.supervisor with state := .stopping, worker := none },
               phase := .terminating w deadline } := by
  rw [beginStop, Supervisor.beginStop_some hw, hd]
  rfl

theorem beginStop_lost {w : Nat} (hw : p.supervisor.worker = some w) {o : Observation}
    (hd : o.clock.add? p.grace = none) :
    p.beginStop o =
      { p with supervisor := { p.supervisor with state := .stopping, worker := none },
               phase := .lost } := by
  rw [beginStop, Supervisor.beginStop_some hw, hd]
  rfl

/-- A look at a worker that is to end either leaves everything as it is or finishes the stop. -/
theorem terminate_cases (p : Pump) (o : Observation) (deadline : Clock) :
    p.terminate o deadline = p ∨ ∃ e, p.terminate o deadline = p.endStop e := by
  unfold terminate
  split
  next e _ => exact .inr ⟨e, rfl⟩
  next e _ => exact .inr ⟨e, rfl⟩
  next => exact .inl rfl

theorem step_launching {n : Nat} (h : p.phase = .launching n) (o : Observation) :
    p.step o = p.launch o n := by
  simp [step, h]

theorem step_draining (h : p.phase = .draining) (o : Observation) :
    p.step o = ((p.drain o).1.goTo .polling, (p.drain o).2) := by
  simp [step, h]

theorem step_polling_none (h : p.phase = .polling) {o : Observation} (ho : o.ended = none) :
    p.step o = (p.goTo .waiting, []) := by
  simp only [step, h, ho, Supervisor.poll_none]
  rfl

theorem step_polling_some (h : p.phase = .polling) {o : Observation} {w : Nat} {e : WorkerExit}
    (hs : p.supervisor.state = .running) (hw : p.supervisor.worker = some w)
    (ho : o.ended = some e) :
    p.step o =
      ({ p with supervisor := ⟨Supervisor.afterExit e, none, some e⟩,
                published := Supervisor.afterExit e, phase := .settling e }, []) := by
  simp only [step, h, ho, Supervisor.poll_some hs hw]
  rfl

theorem step_polling_cases (h : p.phase = .polling) (o : Observation) :
    ∃ supervisor published phase,
      p.step o = ({ p with supervisor := supervisor, published := published, phase := phase }, []) ∧
      (phase = .waiting ∨ ∃ e, phase = .settling e) := by
  simp only [step, h]
  split
  · exact ⟨_, _, _, rfl, .inl rfl⟩
  next e _ _ => exact ⟨_, _, _, rfl, .inr ⟨e, rfl⟩⟩

theorem step_settling {e : WorkerExit} (h : p.phase = .settling e) (o : Observation) :
    p.step o =
      (((p.drain o).1.afterExit e).1, (p.drain o).2 ++ ((p.drain o).1.afterExit e).2) := by
  simp [step, h]

theorem step_backingOff_asked {n : Nat} (h : p.phase = .backingOff n) {o : Observation}
    (ho : o.stopAsked = true) : p.step o = (p.goTo .stopping, []) := by
  simp [step, h, ho]

theorem step_backingOff {n : Nat} (h : p.phase = .backingOff n) {o : Observation}
    (ho : o.stopAsked = false) :
    p.step o = ({ p with tally := p.tally.restarted }.goTo (.launching n), []) := by
  simp [step, h, ho]

theorem step_waiting_asked (h : p.phase = .waiting) {o : Observation} (ho : o.stopAsked = true) :
    p.step o = (p.goTo .stopping, []) := by
  simp [step, h, ho]

theorem step_waiting (h : p.phase = .waiting) {o : Observation} (ho : o.stopAsked = false) :
    p.step o = (p.goTo .draining, []) := by
  simp [step, h, ho]

theorem step_stopping (h : p.phase = .stopping) (o : Observation) :
    p.step o = (p.beginStop o, []) := by
  simp [step, h]

theorem step_terminating {w : Nat} {deadline : Clock} (h : p.phase = .terminating w deadline)
    (o : Observation) : p.step o = (p.terminate o deadline, []) := by
  simp [step, h]

theorem step_finishing (h : p.phase = .finishing) (o : Observation) :
    p.step o = ((p.drain o).1.goTo .closing, (p.drain o).2 ++ [.control .stopped]) := by
  simp [step, h]

theorem step_closing (h : p.phase = .closing) (o : Observation) :
    p.step o = (p.goTo .done, []) := by
  simp [step, h]

theorem step_lost (h : p.phase = .lost) (o : Observation) : p.step o = (p, []) := by
  simp [step, h]

theorem launch_cases (p : Pump) (o : Observation) (n : Nat) :
    ∃ supervisor published phase, ∃ cs : List Control, p.launch o n =
      ({ p with supervisor := supervisor, restarts := n, published := published, phase := phase },
        cs.map .control) ∧ (phase = .draining ∨ phase = .stopping) := by
  unfold launch
  dsimp only
  split
  · refine ⟨_, _, .draining, if n = 0 then [] else [.restarted n], Prod.ext rfl ?_, .inl rfl⟩
    split <;> rfl
  next e _ => exact ⟨_, _, .stopping, [.launchFailed e.message], rfl, .inr rfl⟩

theorem afterExit_cases (p : Pump) (e : WorkerExit) : ∃ phase c,
    p.afterExit e = (p.goTo phase, [.control c]) ∧
      (phase = .stopping ∨ ∃ n, phase = .backingOff n) := by
  unfold afterExit
  split
  · exact ⟨_, _, rfl, .inl rfl⟩
  · split
    · exact ⟨_, _, rfl, .inl rfl⟩
    · exact ⟨_, _, rfl, .inr ⟨_, rfl⟩⟩

theorem beginStop_cases (p : Pump) (o : Observation) : ∃ supervisor published phase,
    p.beginStop o =
      { p with supervisor := supervisor, published := published, phase := phase } ∧
    (phase = .finishing ∨ (∃ w deadline, phase = .terminating w deadline) ∨ phase = .lost) := by
  unfold beginStop
  rcases p.supervisor.beginStop with ⟨_ | w, supervisor⟩
  · exact ⟨_, _, _, rfl, .inl rfl⟩
  · cases o.clock.add? p.grace with
    | some deadline => exact ⟨_, _, _, rfl, .inr (.inl ⟨w, deadline, rfl⟩)⟩
    | none => exact ⟨_, _, _, rfl, .inr (.inr rfl)⟩

/-- What a pump is given at its start and keeps. -/
def settings (p : Pump) : Backend × String × RestartPolicy × Duration :=
  (p.backend, p.program, p.policy, p.grace)

theorem settings_drain (p : Pump) (o : Observation) : (p.drain o).1.settings = p.settings := by
  obtain ⟨tailer, tally, rs, h⟩ := p.drain_eq o
  rw [h]
  rfl

theorem settings_launch (p : Pump) (o : Observation) (n : Nat) :
    (p.launch o n).1.settings = p.settings := by
  obtain ⟨_, _, _, _, h, _⟩ := p.launch_cases o n
  rw [h]
  rfl

theorem settings_afterExit (p : Pump) (e : WorkerExit) :
    (p.afterExit e).1.settings = p.settings := by
  obtain ⟨_, _, h, _⟩ := p.afterExit_cases e
  rw [h]
  rfl

theorem settings_beginStop (p : Pump) (o : Observation) :
    (p.beginStop o).settings = p.settings := by
  obtain ⟨_, _, _, h, _⟩ := p.beginStop_cases o
  rw [h]
  rfl

theorem settings_terminate (p : Pump) (o : Observation) (deadline : Clock) :
    (p.terminate o deadline).settings = p.settings := by
  rcases p.terminate_cases o deadline with h | ⟨e, h⟩
  · rw [h]
  · rw [h]
    rfl

theorem settings_step (p : Pump) (o : Observation) : (p.step o).1.settings = p.settings := by
  cases hp : p.phase with
  | launching n => rw [step_launching hp, settings_launch]
  | draining => rw [step_draining hp]; exact p.settings_drain o
  | polling =>
    obtain ⟨_, _, _, h, _⟩ := step_polling_cases hp o
    rw [h]
    rfl
  | settling e => rw [step_settling hp]; exact (settings_afterExit _ e).trans (p.settings_drain o)
  | backingOff n =>
    simp only [step, hp]
    split <;> rfl
  | waiting => simp only [step, hp]; rfl
  | stopping => rw [step_stopping hp, settings_beginStop]
  | terminating w deadline => rw [step_terminating hp, settings_terminate]
  | finishing => rw [step_finishing hp]; exact p.settings_drain o
  | closing => rw [step_closing hp]; rfl
  | done => rw [step_done hp]
  | lost => rw [step_lost hp]

theorem settings_run (p : Pump) (os : List Observation) : (p.run os).1.settings = p.settings := by
  induction os generalizing p with
  | nil => rfl
  | cons o os ih => rw [run_cons, ih, settings_step]

theorem policy_run (p : Pump) (os : List Observation) : (p.run os).1.policy = p.policy :=
  congrArg (·.2.2.1) (p.settings_run os)

theorem grace_run (p : Pump) (os : List Observation) : (p.run os).1.grace = p.grace :=
  congrArg (·.2.2.2) (p.settings_run os)

theorem isOver_iff : p.isOver = true ↔ p.phase = .done ∨ p.phase = .lost := by
  simp [isOver]

theorem step_of_isOver (h : p.isOver = true) (o : Observation) : p.step o = (p, []) := by
  rcases isOver_iff.1 h with h | h
  · exact step_done h o
  · exact step_lost h o

theorem run_append (p : Pump) (os os' : List Observation) :
    p.run (os ++ os') = (((p.run os).1.run os').1, (p.run os).2 ++ ((p.run os).1.run os').2) := by
  induction os generalizing p with
  | nil => simp
  | cons o os ih => simp only [List.cons_append, run_cons, ih, List.append_assoc]

theorem run_snoc (p : Pump) (os : List Observation) (o : Observation) :
    p.run (os ++ [o]) =
      (((p.run os).1.step o).1, (p.run os).2 ++ ((p.run os).1.step o).2) := by
  simp [run_append, run_cons]

end Pump
end RigWarden
