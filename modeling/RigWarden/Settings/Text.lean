import RigWarden.Settings.Basic
import RigWarden.Toml.Reader
import RigWarden.Toml.Writer

/-!
# Settings as text

A record is a table or an array of its fields in order; a field that is left out keeps its default
and one that is not known is ignored. Numbers have to fit the width of their field.
-/

namespace RigWarden

open Text Toml Number

/-- A backend is given by its name, or by a table with its name over something empty. -/
def Backend.ofToml? : Value → Option Backend
  | .string s => ofName? s
  | .table [(name, v)] => if v.isEmpty then ofName? name else none
  | _ => none

def Profile.ofToml? (v : Value) : Option Profile := do
  let at? ← v.fields?
  let blank : Profile := {}
  return {
    pool := ← valueOr (at? "pool" 0) Value.string? blank.pool
    wallet := ← valueOr (at? "wallet" 1) Value.string? blank.wallet
    worker := ← valueOr (at? "worker" 2) Value.string? blank.worker
    algorithm := ← valueOr (at? "algorithm" 3) Value.string? blank.algorithm
    threads := ← valueOr (at? "threads" 4) (Value.natural? limit64) blank.threads
    maxCpuUsage := ← valueOr (at? "max_cpu_usage" 5) (Value.natural? capLimit) blank.maxCpuUsage }

def SessionSettings.ofToml? (v : Value) : Option SessionSettings := do
  let at? ← v.fields?
  let blank : SessionSettings := {}
  let number := Value.natural? limit64
  return {
    provisionTimeoutSecs :=
      ← valueOr (at? "provision_timeout_secs" 0) number blank.provisionTimeoutSecs
    stopGraceSecs := ← valueOr (at? "stop_grace_secs" 1) number blank.stopGraceSecs
    maxRestarts := ← valueOr (at? "max_restarts" 2) (Value.natural? limit32) blank.maxRestarts
    restartBackoffSecs := ← valueOr (at? "restart_backoff_secs" 3) number blank.restartBackoffSecs
    pollIntervalMs := ← valueOr (at? "poll_interval_ms" 4) number blank.pollIntervalMs
    channelCapacity := ← valueOr (at? "channel_capacity" 5) number blank.channelCapacity
    truncateLog := ← valueOr (at? "truncate_log" 6) Value.bool? blank.truncateLog
    logFile := ← valueOr (at? "log_file" 7) (fun v => v.string?.map some) blank.logFile }

def Simulator.Options.ofToml? (v : Value) : Option Simulator.Options := do
  let at? ← v.fields?
  let blank : Simulator.Options := {}
  let number := Value.natural? limit64
  return {
    tickMs := ← valueOr (at? "tick_ms" 0) number blank.tickMs
    durationSecs := ← valueOr (at? "duration_secs" 1) number blank.durationSecs
    shareProbability := ← valueOr (at? "share_probability" 2) Value.float? blank.shareProbability
    seed := ← valueOr (at? "seed" 3) (fun v => (number v).map some) blank.seed }

/-- The share probability is not a number and has a minus sign. -/
def Simulator.hasNegativeNaN (v : Value) : Bool :=
  ((v.fields?.bind fun at? => at? "share_probability" 2).map Value.isNegativeNaN).getD false

namespace Settings

/-- Reads settings. The install root is `root` if none is given. -/
def ofToml? (root : Path) (v : Value) : Option Settings := do
  let at? ← v.fields?
  let blank : Settings := { installRoot := root }
  return {
    backend := ← valueOr (at? "backend" 0) Backend.ofToml? blank.backend
    installRoot := ← valueOr (at? "install_root" 1) Value.string? blank.installRoot
    profile := ← valueOr (at? "profile" 2) Profile.ofToml? blank.profile
    session := ← valueOr (at? "session" 3) SessionSettings.ofToml? blank.session
    simulator := ← valueOr (at? "simulator" 4) Simulator.Options.ofToml? blank.simulator
    negativeNaN := ((at? "simulator" 4).map Simulator.hasNegativeNaN).getD false }

def parse? (root : Path) (text : String) : Option Settings := (Toml.read? text).bind (ofToml? root)

def number (n : Nat) : Chars := integerText n

def optional (name : String) (value : Option Chars) : List Chars :=
  (value.map fun v => [entry name v]).getD []

def profileText (p : Profile) : Chars :=
  tableText "profile" [
    entry "pool" (stringText p.pool),
    entry "wallet" (stringText p.wallet),
    entry "worker" (stringText p.worker),
    entry "algorithm" (stringText p.algorithm),
    entry "threads" (number p.threads),
    entry "max_cpu_usage" (number p.maxCpuUsage)]

def sessionText (s : SessionSettings) : Chars :=
  tableText "session" ([
    entry "provision_timeout_secs" (number s.provisionTimeoutSecs),
    entry "stop_grace_secs" (number s.stopGraceSecs),
    entry "max_restarts" (number s.maxRestarts),
    entry "restart_backoff_secs" (number s.restartBackoffSecs),
    entry "poll_interval_ms" (number s.pollIntervalMs),
    entry "channel_capacity" (number s.channelCapacity),
    entry "truncate_log" (boolText s.truncateLog)] ++
      optional "log_file" (s.logFile.map stringText))

def simulatorText (o : Simulator.Options) (negativeNaN : Bool) : Chars :=
  tableText "simulator" ([
    entry "tick_ms" (number o.tickMs),
    entry "duration_secs" (number o.durationSecs),
    entry "share_probability" (floatText o.shareProbability negativeNaN)] ++
      optional "seed" (o.seed.map number))

def text (s : Settings) : String :=
  .ofList (entry "backend" (stringText s.backend.name) ++
    entry "install_root" (stringText s.installRoot) ++
    profileText s.profile ++ sessionText s.session ++ simulatorText s.simulator s.negativeNaN)

end Settings
end RigWarden
