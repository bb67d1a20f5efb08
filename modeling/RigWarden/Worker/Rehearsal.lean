import RigWarden.Worker.Site
import RigWarden.Worker.Supervisor

/-!
# Letting workers run

Workers act as soon as they can, pauses within a given patience included. A ward is one supervisor
with the site of its workers; each of its calls lets the workers run as far as a caller of that call
would wait.
-/

namespace RigWarden

namespace Site

/-- A worker acts until it is done or would have to pause for longer than its patience. -/
def runWorker (w : Nat) : (acts : Nat) → (patience : Duration) → Site → Site
  | 0, _, s => s
  | acts + 1, patience, s =>
    match (s.workers[w]?).bind (·.behaviour.acts.head?) with
    | none => s
    | some (.pause d) =>
      if d.total ≤ patience.total then
        runWorker w acts (.ofTotal (patience.total - d.total)) (s.step w)
      else s
    | some _ => runWorker w acts patience (s.step w)

def settleFrom (patience : Duration) : List Nat → Site → Site
  | [], s => s
  | w :: ws, s =>
    let acts := ((s.workers[w]?).map (·.behaviour.acts.length)).getD 0
    settleFrom patience ws (runWorker w acts patience s)

def settle (patience : Duration) (s : Site) : Site :=
  settleFrom patience (List.range s.workers.length) s

end Site

/-- A supervisor, its workers and the log that they write to. -/
structure Ward where
  site : Site
  supervisor : Supervisor := {}
  log : Path

namespace Ward

def ended? (w : Ward) : Option WorkerExit := w.supervisor.worker.bind w.site.exit?

def rest (patience : Duration) (w : Ward) : Ward := { w with site := w.site.settle patience }

def start (m : Machine) (spec : LaunchSpec) (w : Ward) : Except Error Unit × Ward :=
  let (spawned, site) := if w.supervisor.worker.isSome then (.error .cancelled, w.site)
    else w.site.spawn m spec w.log
  let (r, supervisor) := w.supervisor.start spec.program spawned
  (r, { w with site := site.settle .zero, supervisor := supervisor })

def poll (w : Ward) : Option WorkerExit × Ward :=
  let (r, supervisor) := w.supervisor.poll w.ended?
  (r, { w with supervisor := supervisor })

def isAlive (w : Ward) : Bool := w.supervisor.isAlive w.ended?

/-- Asks the worker to end. What it does at once it does in time; for more it is killed. -/
def stop (w : Ward) : StopOutcome × Ward :=
  let deadline : Clock := ⟨1, 0⟩
  let asked := ((w.supervisor.worker.map w.site.request).getD w.site).settle .zero
  let (killed, dead) := (w.supervisor.worker.map asked.kill).getD (.unknown, asked)
  match w.supervisor.stop deadline killed [⟨deadline, w.supervisor.worker.bind asked.exit?⟩] with
  | (some (.forced e), supervisor) => (.forced e, { w with site := dead, supervisor := supervisor })
  | (r, supervisor) =>
    (r.getD .notRunning, { w with site := asked, supervisor := supervisor })

end Ward
end RigWarden
