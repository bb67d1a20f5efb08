import RigWarden.Json.Writer
import RigWarden.Time.Instant
import RigWarden.Worker.Exit

/-!
# What a session reports

A reading carries cumulative share counters, so a later reading makes an earlier one dispensable.
Everything else is a control event. Both have one JSON form, for logs and for peers alike.
-/

namespace RigWarden

open Number

structure Reading where
  timestamp : Instant
  /-- Hashes per second. -/
  hashrate : Float
  accepted : Nat
  rejected : Nat
  status : Option String
  deriving Inhabited

inductive Control where
  | restarted (attempt : Nat)
  | exited (exit : WorkerExit)
  | crashed (exit : WorkerExit)
  | launchFailed (reason : String)
  | stopped
  deriving Repr, DecidableEq

inductive Event where
  | metrics (reading : Reading)
  | control (c : Control)
  deriving Inhabited

def Reading.fields (r : Reading) : List (String × Json) :=
  [("timestamp", .string r.timestamp.text), ("hashrate", .ofFloat r.hashrate),
    ("accepted", .ofNat r.accepted), ("rejected", .ofNat r.rejected), ("status", .text r.status)]

def Control.tag : Control → String
  | restarted _ => "worker_restarted"
  | exited _ => "worker_exited"
  | crashed _ => "worker_crashed"
  | launchFailed _ => "launch_failed"
  | stopped => "stopped"

def Control.fields : Control → List (String × Json)
  | restarted attempt => [("attempt", .ofNat attempt)]
  | exited exit => [("status", exit.toJson)]
  | crashed exit => [("status", exit.toJson)]
  | launchFailed reason => [("reason", .string reason)]
  | stopped => []

namespace Event

def isMetrics : Event → Bool
  | metrics _ => true
  | control _ => false

def control? : Event → Option Control
  | metrics _ => none
  | control c => some c

def reading? : Event → Option Reading
  | metrics r => some r
  | control _ => none

def controls (es : List Event) : List Control := es.filterMap control?

def readings (es : List Event) : List Reading := es.filterMap reading?

/-- Nothing follows such an event. -/
def isTerminal : Event → Bool
  | control .stopped => true
  | _ => false

def toJson : Event → Json
  | metrics r => .object (("type", .string "metrics") :: r.fields)
  | control c => .object (("type", .string c.tag) :: c.fields)

@[simp] theorem isMetrics_metrics (r : Reading) : (metrics r).isMetrics = true := rfl

@[simp] theorem isMetrics_control (c : Control) : (control c).isMetrics = false := rfl

@[simp] theorem controls_nil : controls [] = [] := rfl

@[simp] theorem controls_append (es fs : List Event) :
    controls (es ++ fs) = controls es ++ controls fs := by
  simp [controls]

@[simp] theorem controls_metrics (rs : List Reading) : controls (rs.map metrics) = [] := by
  simp [controls, control?]

@[simp] theorem controls_control (c : Control) : controls [control c] = [c] := rfl

@[simp] theorem readings_nil : readings [] = [] := rfl

@[simp] theorem readings_append (es fs : List Event) :
    readings (es ++ fs) = readings es ++ readings fs := by
  simp [readings]

@[simp] theorem readings_metrics (rs : List Reading) : readings (rs.map metrics) = rs := by
  simp [readings, reading?, List.filterMap_map, Function.comp_def]

@[simp] theorem readings_control (c : Control) : readings [control c] = [] := rfl

@[simp] theorem readings_controls (cs : List Control) : readings (cs.map control) = [] := by
  simp [readings, reading?]

end Event
end RigWarden
