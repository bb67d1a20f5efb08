import RigWarden.Error
import RigWarden.Time.Duration

/-!
# Supervising one worker

A supervisor holds at most one worker and knows how the last one ended. It is told what it finds
outside: whether a start succeeded, whether the worker has ended, and how a stop came out.
-/

namespace RigWarden

inductive WorkerState where
  | idle
  | starting
  | running
  | stopping
  | stopped
  | crashed
  deriving Repr, DecidableEq, Inhabited

def WorkerState.name : WorkerState → String
  | idle => "idle"
  | starting => "starting"
  | running => "running"
  | stopping => "stopping"
  | stopped => "stopped"
  | crashed => "crashed"

inductive StopOutcome where
  | notRunning
  | graceful (exit : WorkerExit)
  | forced (exit : WorkerExit)
  deriving Repr, DecidableEq, Inhabited

structure Supervisor where
  state : WorkerState := .idle
  worker : Option Nat := none
  lastExit : Option WorkerExit := none
  deriving Repr, DecidableEq, Inhabited

namespace Supervisor

/-- Takes the outcome of an attempt to start a program; a second worker is refused. -/
def start (s : Supervisor) (program : String) (spawned : Except Error Nat) :
    Except Error Unit × Supervisor :=
  if s.worker.isSome then (.error (.launch program .workerRunning), s)
  else match spawned with
    | .ok w => (.ok (), ⟨.running, some w, none⟩)
    | .error e => (.error e, { s with state := .crashed })

/-- The state that a worker leaves behind when it ends by itself. -/
def afterExit (e : WorkerExit) : WorkerState := if e.isSuccess then .stopped else .crashed

/-- Notices, once, that the worker has ended. -/
def poll (s : Supervisor) (ended : Option WorkerExit) : Option WorkerExit × Supervisor :=
  match s.state, s.worker, ended with
  | .running, some _, some e => (some e, ⟨afterExit e, none, some e⟩)
  | _, _, _ => (none, s)

def isAlive (s : Supervisor) (ended : Option WorkerExit) : Bool :=
  s.worker.isSome && ended.isNone

/-- Lets go of the worker in order to end it. Without a worker nothing is left to do. -/
def beginStop (s : Supervisor) : Option Nat × Supervisor :=
  match s.worker with
  | some w => (some w, { s with state := .stopping, worker := none })
  | none =>
    let state := if s.state = .running ∨ s.state = .stopping then .stopped else s.state
    (none, { s with state := state })

def endStop (s : Supervisor) (exit : WorkerExit) : Supervisor :=
  { s with state := .stopped, lastExit := some exit }

/-- A look at a worker that was asked to end: its exit, and the time. -/
structure StopLook where
  now : Clock
  ended : Option WorkerExit
  deriving Repr, DecidableEq

/-- What a look decides. While nothing is decided the worker is looked at again. -/
def StopLook.decide (l : StopLook) (deadline : Clock) (killed : WorkerExit) :
    Option StopOutcome :=
  match l.ended with
  | some e => some (.graceful e)
  | none => if l.now.reached deadline then some (.forced killed) else none

/-- A whole stop with the looks it takes. Looks that decide nothing leave it unfinished. -/
def stop (s : Supervisor) (deadline : Clock) (killed : WorkerExit) (looks : List StopLook) :
    Option StopOutcome × Supervisor :=
  match s.beginStop with
  | (none, s) => (some .notRunning, s)
  | (some _, s) =>
    let found : Option StopOutcome := looks.findSome? fun l => l.decide deadline killed
    match found with
    | some (.graceful e) => (some (.graceful e), s.endStop e)
    | some (.forced e) => (some (.forced e), s.endStop e)
    | _ => (none, s)

end Supervisor
end RigWarden
