import RigWarden.Session.Host
import RigWarden.Worker.Rehearsal

/-!
# Running a host

One schedule out of many: workers act as soon as they can, pauses within a given patience included,
and pumps step until nothing is left for them to do but wait. Nothing depends on chance, so a
history of calls has one outcome.
-/

namespace RigWarden

namespace Session

/-- There is something to read that was not there at the last look. -/
def hasNews (d : Disk) (s : Session) : Bool :=
  match Host.viewLog d s.logPath with
  | .content bytes => bytes.length ≠ s.pump.tailer.position
  | _ => false

/-- The pump would do more than look again. -/
def canMove (site : Site) (patience : Duration) (s : Session) : Bool :=
  match s.pump.phase with
  | .waiting =>
    s.stopAsked || hasNews site.disk s ||
      ((s.pump.supervisor.worker.bind site.exit?).isSome)
  | .backingOff attempt =>
    s.stopAsked || (s.pump.policy.backoff attempt).total ≤ patience.total
  | .done => false
  | .lost => false
  | _ => true

/-- The clock at the next look of a pump: when it waits for a worker to end, the end of its wait. -/
def nextClock (s : Session) : Clock :=
  match s.pump.phase with
  | .terminating _ deadline => deadline
  | _ => ⟨1, 0⟩

end Session

namespace Host

def mover? (h : Host) (patience : Duration) : Option Nat :=
  h.sessions.findIdx? (·.canMove h.site patience)

def settle (patience : Duration) (h : Host) : Host := { h with site := h.site.settle patience }

/-- Lets everything run that needs no pause of a worker, for at most a number of steps. -/
def run (m : Machine) (now : Instant) (patience : Duration) : (steps : Nat) → Host → Host
  | 0, h => h
  | steps + 1, h =>
    let h := h.settle .zero
    match h.mover? patience with
    | none => h
    | some i =>
      let clock := ((h.sessions[i]?).map (·.nextClock)).getD ⟨1, 0⟩
      run m now patience steps (h.pumpStep m now clock i)

def maxSteps : Nat := 100000

/-- Lets everything run until it rests, with pauses of workers and waits of pumps as far as the
patience goes. -/
def rest (m : Machine) (now : Instant) (patience : Duration) (h : Host) : Host :=
  run m now patience maxSteps ((run m now patience maxSteps h).settle patience)

def stop (m : Machine) (now : Instant) (h : Host) (i : Nat) : Host :=
  rest m now .zero (h.askStop i)

end Host
end RigWarden
