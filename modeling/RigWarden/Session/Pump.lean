import RigWarden.Log.Tailer
import RigWarden.Log.Tally
import RigWarden.Session.Restart
import RigWarden.Worker.Supervisor

/-!
# The pump of a session

The pump starts the worker, turns its log into readings, notices how it ends and starts it again as
long as its policy allows. It works in steps, and each step is given one observation of everything
outside; a step uses the part of it that its phase asks for.
-/

namespace RigWarden

inductive Phase where
  /-- About to start a worker; attempt 0 is the first start. -/
  | launching (attempt : Nat)
  | draining
  | polling
  /-- The worker has ended, and its last lines are still to be read. -/
  | settling (exit : WorkerExit)
  | backingOff (attempt : Nat)
  | waiting
  | stopping
  | terminating (worker : Nat) (deadline : Clock)
  | finishing
  /-- The last event was sent, and the thread still has to end. -/
  | closing
  | done
  /-- The deadline of the stop lies beyond the clock, and the pump is lost. -/
  | lost
  deriving Repr, DecidableEq, Inhabited

structure Observation where
  now : Instant
  clock : Clock
  log : Log.View
  spawned : Except Error Nat
  /-- The exit of the worker in question, if it has ended. -/
  ended : Option WorkerExit
  /-- Whether a stop was asked for before the current wait is over. -/
  stopAsked : Bool
  /-- The exit that killing the worker would give. -/
  killed : WorkerExit

structure Pump where
  backend : Backend
  program : String
  policy : RestartPolicy
  grace : Duration
  phase : Phase := .launching 0
  restarts : Nat := 0
  supervisor : Supervisor := {}
  tailer : Log.Tailer
  tally : Log.Tally := {}
  /-- The state that others see. -/
  published : WorkerState := .idle
  deriving Inhabited

namespace Pump

/-- The pump of a session that is about to start its first worker. -/
def new (b : Backend) (program : String) (policy : RestartPolicy) (grace : Duration)
    (tailer : Log.Tailer) : Pump :=
  { backend := b, program := program, policy := policy, grace := grace, tailer := tailer }

def goTo (p : Pump) (phase : Phase) : Pump := { p with phase := phase }

def publish (p : Pump) : Pump := { p with published := p.supervisor.state }

/-- Reads the log. A log that cannot be read is left for the next time. -/
def drain (p : Pump) (o : Observation) : Pump × List Event :=
  match p.tailer.poll o.log with
  | (.error _, tailer) => ({ p with tailer := tailer }, [])
  | (.ok lines, tailer) =>
    let (readings, tally) := p.tally.ingestAll p.backend o.now lines
    ({ p with tailer := tailer, tally := tally }, readings.map .metrics)

def launch (p : Pump) (o : Observation) (attempt : Nat) : Pump × List Event :=
  let (r, supervisor) := p.supervisor.start p.program o.spawned
  let p := { p with supervisor := supervisor, restarts := attempt }.publish
  match r with
  | .ok _ =>
    (p.goTo .draining, if attempt = 0 then [] else [.control (.restarted attempt)])
  | .error e => (p.goTo .stopping, [.control (.launchFailed e.message)])

def afterExit (p : Pump) (exit : WorkerExit) : Pump × List Event :=
  if exit.isSuccess then (p.goTo .stopping, [.control (.exited exit)])
  else if p.policy.maxRestarts ≤ p.restarts then
    (p.goTo .stopping, [.control (.crashed exit)])
  else (p.goTo (.backingOff (p.restarts + 1)), [.control (.crashed exit)])

/-- Asks the worker to end, or has nothing to ask. -/
def beginStop (p : Pump) (o : Observation) : Pump :=
  match p.supervisor.beginStop with
  | (none, supervisor) => { p with supervisor := supervisor }.publish.goTo .finishing
  | (some w, supervisor) =>
    match o.clock.add? p.grace with
    | some deadline => { p with supervisor := supervisor }.goTo (.terminating w deadline)
    | none => { p with supervisor := supervisor }.goTo .lost

def endStop (p : Pump) (exit : WorkerExit) : Pump :=
  { p with supervisor := p.supervisor.endStop exit }.publish.goTo .finishing

def terminate (p : Pump) (o : Observation) (deadline : Clock) : Pump :=
  match (⟨o.clock, o.ended⟩ : Supervisor.StopLook).decide deadline o.killed with
  | some (.graceful e) => p.endStop e
  | some (.forced e) => p.endStop e
  | _ => p

def step (p : Pump) (o : Observation) : Pump × List Event :=
  match p.phase with
  | .launching attempt => p.launch o attempt
  | .draining =>
    let (p, es) := p.drain o
    (p.goTo .polling, es)
  | .polling =>
    match p.supervisor.poll o.ended with
    | (none, supervisor) => ({ p with supervisor := supervisor }.goTo .waiting, [])
    | (some e, supervisor) =>
      ({ p with supervisor := supervisor }.publish.goTo (.settling e), [])
  | .settling e =>
    let (p, es) := p.drain o
    let (p, more) := p.afterExit e
    (p, es ++ more)
  | .backingOff attempt =>
    if o.stopAsked then (p.goTo .stopping, [])
    else ({ p with tally := p.tally.restarted }.goTo (.launching attempt), [])
  | .waiting => (p.goTo (if o.stopAsked then .stopping else .draining), [])
  | .stopping => (p.beginStop o, [])
  | .terminating _ deadline => (p.terminate o deadline, [])
  | .finishing =>
    let (p, es) := p.drain o
    (p.goTo .closing, es ++ [.control .stopped])
  | .closing => (p.goTo .done, [])
  | .done => (p, [])
  | .lost => (p, [])

def isOver (p : Pump) : Bool := p.phase = .done || p.phase = .lost

def run (p : Pump) : List Observation → Pump × List Event
  | [] => (p, [])
  | o :: os =>
    let (p, es) := p.step o
    let (p, more) := p.run os
    (p, es ++ more)

@[simp] theorem run_nil (p : Pump) : p.run [] = (p, []) := rfl

theorem run_cons (p : Pump) (o : Observation) (os : List Observation) :
    p.run (o :: os) = (((p.step o).1.run os).1, (p.step o).2 ++ ((p.step o).1.run os).2) := rfl

theorem step_done {p : Pump} (h : p.phase = .done) (o : Observation) : p.step o = (p, []) := by
  simp [step, h]

end Pump
end RigWarden
