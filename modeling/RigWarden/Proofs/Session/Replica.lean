import RigWarden.Proofs.Session.PumpStep

/-!
# A pump with a log of its own

A pump that starts at the end of its log sends what it would send if its log had begun with nothing in
it. The numbers of its workers do not matter either.
-/

namespace RigWarden

open Log Text

/-- What a pump sees apart from its log and the numbers of workers. -/
structure Look where
  now : Instant
  clock : Clock
  /-- Why no worker was started. -/
  failure : Option Error
  ended : Option WorkerExit
  stopAsked : Bool
  killed : WorkerExit
  deriving Repr, DecidableEq

def Look.on (l : Look) (log : Bytes) : Observation where
  now := l.now
  clock := l.clock
  log := .content log
  spawned := (l.failure.map .error).getD (.ok 0)
  ended := l.ended
  stopAsked := l.stopAsked
  killed := l.killed

def Observation.failure? (o : Observation) : Option Error :=
  match o.spawned with
  | .ok _ => none
  | .error e => some e

def Observation.look (o : Observation) : Look :=
  ⟨o.now, o.clock, o.failure?, o.ended, o.stopAsked, o.killed⟩

theorem spawned_look (o : Observation) (log : Bytes) :
    (o.look.on log).spawned = o.spawned.map fun _ => 0 := by
  simp only [Look.on, Observation.look, Observation.failure?]
  cases o.spawned <;> rfl

namespace Log

/-- The lines that a look at the log gives. -/
def Tailer.given (t : Tailer) (v : View) : List Chars := (t.poll v).1.toOption.getD []

/-- The tailer follows the log `v`, of which another one, `t`, sees what has come since it was opened:
the bytes `log`. A log that cannot be read gives nothing. -/
inductive Tracks : View → Tailer → Bytes → Tailer → Prop
  | opened (old log pending : Bytes) (n : Nat) (le : n ≤ log.length) :
    Tracks (.content (old ++ log)) ⟨old.length + n, pending⟩ log ⟨n, pending⟩
  | missing : Tracks .absent .fromStart [] .fromStart
  | hidden (cause : SystemError) (t : Tailer) : Tracks (.hidden cause) t [] .fromStart
  | unreadable (length : Nat) (cause : SystemError) (t : Tailer) :
    Tracks (.unreadable length cause) t [] .fromStart

namespace Tracks

variable {v : View} {t u : Tailer} {data log bytes : Bytes}

theorem fromEnd (v : View) : Tracks v (.fromEnd v) [] .fromStart := by
  cases v with
  | absent => exact .missing
  | hidden cause => exact .hidden cause _
  | unreadable length cause => exact .unreadable length cause _
  | content bytes =>
    have hall := opened bytes [] [] 0 (Nat.le_refl 0)
    rwa [List.append_nil] at hall

/-- Both give the same lines, and go on like that. -/
theorem poll (h : Tracks v t log u) :
    u.given (.content log) = t.given v ∧ Tracks v (t.poll v).2 log (u.poll (.content log)).2 := by
  cases h with
  | opened old log pending n le =>
    have hold : ¬ old.length + log.length < old.length + n := by omega
    have hdrop : (old ++ log).drop (old.length + n) = log.drop n := by
      rw [← List.drop_drop, List.drop_left]
    simp only [Tailer.given, Tailer.poll, Tailer.rewind, List.length_append, hold, if_false,
      Nat.not_lt.2 le, hdrop]
    exact ⟨trivial, .opened old log _ log.length (Nat.le_refl _)⟩
  | missing => exact ⟨rfl, .missing⟩
  | hidden cause => exact ⟨rfl, .hidden cause _⟩
  | unreadable length cause =>
    refine ⟨?_, .unreadable length cause _⟩
    simp only [Tailer.given, Tailer.poll]
    split <;> rfl

theorem append (h : Tracks (.content data) t log u) (bytes : Bytes) :
    Tracks (.content (data ++ bytes)) t (log ++ bytes) u := by
  cases h with
  | opened old log pending n le =>
    rw [List.append_assoc]
    exact .opened old (log ++ bytes) pending n (by rw [List.length_append]; omega)

/-- A log that was missing is made. -/
theorem made (h : Tracks .absent t log u) : Tracks (.content []) t log u := by
  cases h
  exact .opened [] [] [] 0 (Nat.le_refl 0)

end Tracks

end Log

namespace Supervisor

/-- The supervisor, whatever the number of its worker. -/
def unnumbered (s : Supervisor) : Supervisor := { s with worker := s.worker.map fun _ => 0 }

theorem start_unnumbered (s : Supervisor) (program : String) (spawned : Except Error Nat) :
    s.unnumbered.start program (spawned.map fun _ => 0) =
      ((s.start program spawned).1, (s.start program spawned).2.unnumbered) := by
  rcases s with ⟨state, _ | w, lastExit⟩
  · cases spawned <;> rfl
  · rfl

theorem poll_unnumbered (s : Supervisor) (ended : Option WorkerExit) :
    s.unnumbered.poll ended = ((s.poll ended).1, (s.poll ended).2.unnumbered) := by
  rcases s with ⟨state, _ | w, lastExit⟩ <;> cases state <;> cases ended <;> rfl

end Supervisor

def Phase.unnumbered : Phase → Phase
  | terminating _ deadline => terminating 0 deadline
  | phase => phase

namespace Pump

/-- The pump with another tailer, whatever the numbers of its workers. -/
def mirror (p : Pump) (t : Tailer) : Pump :=
  { p with phase := p.phase.unnumbered, supervisor := p.supervisor.unnumbered, tailer := t }

section mirror

variable {p : Pump} {o : Observation} {t : Tailer} {log : Bytes}

theorem drain_eq_given (p : Pump) (o : Observation) :
    p.drain o =
      ({ p with tailer := (p.tailer.poll o.log).2
                tally := (p.tally.ingestAll p.backend o.now (p.tailer.given o.log)).2 },
        (p.tally.ingestAll p.backend o.now (p.tailer.given o.log)).1.map .metrics) := by
  unfold drain Tailer.given
  rcases p.tailer.poll o.log with ⟨_ | lines, tailer⟩ <;> rfl

theorem mirror_drain (h : Tracks o.log p.tailer log t) :
    ∃ u, (p.mirror t).drain (o.look.on log) = ((p.drain o).1.mirror u, (p.drain o).2) ∧
      Tracks o.log (p.drain o).1.tailer log u := by
  obtain ⟨hgiven, hnext⟩ := h.poll
  refine ⟨(t.poll (.content log)).2, ?_, ?_⟩
  · rw [drain_eq_given, drain_eq_given]
    simp only [mirror, Look.on, Observation.look, hgiven]
  · rw [drain_eq_given]
    exact hnext

theorem mirror_launch (p : Pump) (t : Tailer) (o : Observation) (log : Bytes) (n : Nat) :
    (p.mirror t).launch (o.look.on log) n = ((p.launch o n).1.mirror t, (p.launch o n).2) := by
  have hstart := p.supervisor.start_unnumbered p.program o.spawned
  rw [← spawned_look o log] at hstart
  simp only [launch, mirror, hstart]
  cases (p.supervisor.start p.program o.spawned).1 <;> rfl

theorem mirror_afterExit (p : Pump) (t : Tailer) (e : WorkerExit) :
    (p.mirror t).afterExit e = ((p.afterExit e).1.mirror t, (p.afterExit e).2) := by
  cases he : e.isSuccess with
  | true =>
    rw [afterExit_success he, afterExit_success he]
    rfl
  | false =>
    by_cases hr : p.policy.maxRestarts ≤ p.restarts
    · rw [afterExit_last he hr, afterExit_last he (p := p.mirror t) hr]
      rfl
    · rw [afterExit_again he (Nat.lt_of_not_le hr),
        afterExit_again he (p := p.mirror t) (Nat.lt_of_not_le hr)]
      rfl

theorem mirror_beginStop (p : Pump) (t : Tailer) (o : Observation) (log : Bytes) :
    (p.mirror t).beginStop (o.look.on log) = (p.beginStop o).mirror t := by
  cases hw : p.supervisor.worker with
  | none =>
    simp only [beginStop, Supervisor.beginStop, mirror, Supervisor.unnumbered, hw, Option.map_none]
    rfl
  | some w =>
    have hmirror : (p.mirror t).supervisor.worker = some 0 := by
      simp [mirror, Supervisor.unnumbered, hw]
    cases hd : o.clock.add? p.grace with
    | some deadline =>
      rw [beginStop_some hw hd, beginStop_some hmirror (o := o.look.on log) hd]
      rfl
    | none =>
      rw [beginStop_lost hw hd, beginStop_lost hmirror (o := o.look.on log) hd]
      rfl

theorem mirror_terminate (p : Pump) (t : Tailer) (o : Observation) (log : Bytes) (deadline : Clock) :
    (p.mirror t).terminate (o.look.on log) deadline = (p.terminate o deadline).mirror t := by
  unfold terminate
  simp only [Look.on, Observation.look]
  cases (⟨o.clock, o.ended⟩ : Supervisor.StopLook).decide deadline o.killed with
  | none => rfl
  | some outcome => cases outcome <;> rfl

/-- A pump and its mirror send the same in a step, and stay mirrored. -/
theorem mirror_step (h : Tracks o.log p.tailer log t) :
    ∃ u, (p.mirror t).step (o.look.on log) = ((p.step o).1.mirror u, (p.step o).2) ∧
      Tracks o.log (p.step o).1.tailer log u := by
  have hphase : (p.mirror t).phase = p.phase.unnumbered := rfl
  obtain ⟨u, hdrain, htracks⟩ := mirror_drain h
  cases hp : p.phase <;> rw [hp] at hphase
  case launching n =>
    rw [step_launching hp, step_launching hphase, mirror_launch]
    obtain ⟨_, _, _, _, he, -⟩ := p.launch_cases o n
    exact ⟨t, rfl, by rw [he]; exact h⟩
  case draining =>
    rw [step_draining hp, step_draining hphase, hdrain]
    exact ⟨u, rfl, htracks⟩
  case polling =>
    refine ⟨t, ?_, ?_⟩
    · simp only [step, hp, mirror, Phase.unnumbered, Look.on, Observation.look,
        p.supervisor.poll_unnumbered]
      rcases p.supervisor.poll o.ended with ⟨_ | e, supervisor⟩ <;> rfl
    · obtain ⟨_, _, _, he, -⟩ := step_polling_cases hp o
      rw [he]
      exact h
  case settling e =>
    rw [step_settling hp, step_settling hphase, hdrain, mirror_afterExit]
    obtain ⟨_, _, he, -⟩ := (p.drain o).1.afterExit_cases e
    exact ⟨u, rfl, by rw [he]; exact htracks⟩
  case backingOff n =>
    cases ho : o.stopAsked with
    | true =>
      rw [step_backingOff_asked hp ho, step_backingOff_asked hphase (o := o.look.on log) ho]
      exact ⟨t, rfl, h⟩
    | false =>
      rw [step_backingOff hp ho, step_backingOff hphase (o := o.look.on log) ho]
      exact ⟨t, rfl, h⟩
  case waiting =>
    cases ho : o.stopAsked with
    | true =>
      rw [step_waiting_asked hp ho, step_waiting_asked hphase (o := o.look.on log) ho]
      exact ⟨t, rfl, h⟩
    | false =>
      rw [step_waiting hp ho, step_waiting hphase (o := o.look.on log) ho]
      exact ⟨t, rfl, h⟩
  case stopping =>
    rw [step_stopping hp, step_stopping hphase, mirror_beginStop]
    obtain ⟨_, _, _, he, -⟩ := p.beginStop_cases o
    exact ⟨t, rfl, by rw [he]; exact h⟩
  case terminating w deadline =>
    rw [step_terminating hp, step_terminating hphase, mirror_terminate]
    refine ⟨t, rfl, ?_⟩
    rcases p.terminate_cases o deadline with he | ⟨e, he⟩ <;> rw [he] <;> exact h
  case finishing =>
    rw [step_finishing hp, step_finishing hphase, hdrain]
    exact ⟨u, rfl, htracks⟩
  case closing =>
    rw [step_closing hp, step_closing hphase]
    exact ⟨t, rfl, h⟩
  case done =>
    rw [step_done hp, step_done hphase]
    exact ⟨t, rfl, h⟩
  case lost =>
    rw [step_lost hp, step_lost hphase]
    exact ⟨t, rfl, h⟩

end mirror

end Pump

/-- What happens to one session: a worker of its own writes, or its pump makes a step. -/
inductive Own where
  | wrote (bytes : Bytes)
  | looked (look : Look)
  deriving Repr, DecidableEq

/-- A pump by itself, with a log that holds what the workers of its session have written. -/
structure Replica where
  pump : Pump
  log : Bytes := []

namespace Replica

def step (r : Replica) : Own → Replica × List Event
  | .wrote bytes => ({ r with log := r.log ++ bytes }, [])
  | .looked look =>
    let (pump, es) := r.pump.step (look.on r.log)
    ({ r with pump := pump }, es)

def run (r : Replica) : List Own → Replica × List Event
  | [] => (r, [])
  | own :: owns =>
    let (r, es) := r.step own
    let (r, more) := r.run owns
    (r, es ++ more)

theorem run_append (r : Replica) (owns more : List Own) :
    r.run (owns ++ more) =
      (((r.run owns).1.run more).1, (r.run owns).2 ++ ((r.run owns).1.run more).2) := by
  induction owns generalizing r with
  | nil => rfl
  | cons own owns ih => simp only [List.cons_append, run, ih, List.append_assoc]

end Replica

end RigWarden
