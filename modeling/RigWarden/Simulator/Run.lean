import RigWarden.Config.KeyValue
import RigWarden.Number.Fixed
import RigWarden.Profile.Basic
import RigWarden.Simulator.Options
import RigWarden.SystemError
import RigWarden.Time.Instant
import RigWarden.Worker.Exit

/-!
# A run of the simulator

The simulator writes a banner, one line per tick and a last line. Chance comes in as draws, and
every write says whether it succeeded; a failed one ends the run. A run that has ended does nothing
any more.
-/

namespace RigWarden.Simulator

open Text Number

/-- Chance on one tick: the change of the rate, and two numbers below 1. -/
structure Draw where
  factor : Float
  share : Float
  reject : Float
  deriving Inhabited

def rejectRatio : Float := 0.05

structure Counters where
  hashrate : Float
  accepted : Nat
  rejected : Nat
  deriving Inhabited

def atLeastOne (x : Float) : Float := if 1 < x then x else 1

def Counters.tick (c : Counters) (shareProbability : Float) (d : Draw) : Counters :=
  let isShare := d.share < shareProbability
  let isReject := d.reject < rejectRatio
  { hashrate := atLeastOne (c.hashrate * d.factor)
    accepted := if isShare && !isReject then c.accepted + 1 else c.accepted
    rejected := if isShare && isReject then c.rejected + 1 else c.rejected }

def banner (config : KeyMap String) : String :=
  let field (key : String) := (config.get? key).getD "?"
  "Simulated miner starting | pool " ++ field "pool" ++ " | worker " ++ field "worker" ++
    " | wallet " ++ maskWallet (field "wallet") ++ " | threads " ++ field "threads"

def speedLine (now : Instant) (c : Counters) : String :=
  "[" ++ now.logText ++ "] Speed: " ++ fixed 2 c.hashrate ++ " H/s | accepted=" ++
    decimal c.accepted ++ " rejected=" ++ decimal c.rejected

def lastLine (elapsed : Duration) : String :=
  "Simulated miner finished after " ++ decimal elapsed.secs ++ "s"

structure Run where
  written : List String
  counters : Counters
  exit : Option WorkerExit
  deriving Inhabited

namespace Run

/-- The exit of a run that could not read its configuration. -/
def badConfig : WorkerExit := .failure 2

/-- The exit of a run that could not write. -/
def lostLog : WorkerExit := .failure 74

def write (r : Run) (succeeds : Bool) (line : String) : Run :=
  if r.exit.isSome then r
  else if succeeds then { r with written := r.written ++ [line] }
  else { r with exit := some lostLog }

def finish (r : Run) (exit : WorkerExit) : Run :=
  if r.exit.isSome then r else { r with exit := some exit }

def start (config : Except SystemError String) (hashrate : Float) (succeeds : Bool) : Run :=
  let r : Run := ⟨[], ⟨hashrate, 0, 0⟩, none⟩
  match config with
  | .ok text => r.write succeeds (banner (KeyValue.parse text))
  | .error cause =>
    let line := "simulator error: cannot read config: " ++ cause.text
    { r with written := if succeeds then [line] else [], exit := some badConfig }

/-- The last line, for a run that was stopped or has lasted its time. -/
def close (r : Run) (elapsed : Duration) (succeeds : Bool) : Run :=
  (r.write succeeds (lastLine elapsed)).finish .success

def tick (r : Run) (shareProbability : Float) (d : Draw) (now : Instant) (succeeds : Bool) : Run :=
  if r.exit.isSome then r
  else
    let counters := r.counters.tick shareProbability d
    { r with counters := counters }.write succeeds (speedLine now counters)

end Run

inductive Step where
  | tick (draw : Draw) (now : Instant) (elapsed : Duration) (writes closes : Bool)
  | stop (elapsed : Duration) (closes : Bool)

/-- A tick after the end of the duration is the last one. -/
def Run.step (settings : Settings) (r : Run) : Step → Run
  | .tick draw now elapsed writes closes =>
    let r := r.tick settings.shareProbability draw now writes
    if settings.duration.total ≤ elapsed.total then r.close elapsed closes else r
  | .stop elapsed closes => r.close elapsed closes

end RigWarden.Simulator
