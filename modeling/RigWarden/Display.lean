import RigWarden.Backend.Basic
import RigWarden.Event.Basic
import RigWarden.Number.Fixed
import RigWarden.Time.Duration

/-!
# Progress for people

A line of text follows the session: the backend, its hash rate, the shares and the status. Numbers
are scaled by the largest of kilo, mega and giga that they reach. A tab takes up eight blanks.
-/

namespace RigWarden.Display

open Text Number

def scales : List (Float × String) := [(1000000000, "G"), (1000000, "M"), (1000, "K")]

/-- The number in the largest scale it reaches, with the letter of that scale. -/
def scaleDown (x : Float) : Float × String :=
  match scales.find? fun s => s.1 ≤ x with
  | some (factor, letter) => (x / factor, letter)
  | none => (x, "")

def hashrateText (x : Float) : String :=
  match scaleDown x with
  | (y, "") => fixed 0 y ++ " H/s"
  | (y, letter) => fixed 2 y ++ " " ++ letter ++ "H/s"

def countText (n : Nat) : String :=
  match scaleDown n.toUInt64.toFloat with
  | (_, "") => decimal n
  | (y, letter) => fixed 2 y ++ letter

def durationText (d : Duration) : String :=
  let hours := d.secs / 3600
  let minutes := d.secs % 3600 / 60
  let seconds := .ofList (padded 2 (d.secs % 60))
  if 0 < hours then decimal hours ++ ":" ++ .ofList (padded 2 minutes) ++ ":" ++ seconds
  else decimal minutes ++ ":" ++ seconds

def readingText (b : Backend) (r : Reading) : String :=
  b.name ++ " | " ++ hashrateText r.hashrate ++ " | accepted " ++ countText r.accepted ++
    " | rejected " ++ countText r.rejected ++
    match r.status with
    | some s => " | " ++ s
    | none => ""

def expandTabs (s : String) : String :=
  .ofList (s.toList.flatMap fun c => if c = '\t' then List.replicate 8 ' ' else [c])

structure Spinner where
  backend : Backend
  message : String
  last : Option Reading

def Spinner.new (b : Backend) : Spinner := ⟨b, b.name ++ " | starting worker...", none⟩

/-- Takes in an event, and says whether more is to come. -/
def Spinner.handle (s : Spinner) : Event → Bool × Spinner
  | .metrics r => (true, { s with message := expandTabs (readingText s.backend r), last := some r })
  | .control .stopped => (false, s)
  | .control _ => (true, s)

def Spinner.summary (s : Spinner) (elapsed : Duration) : String :=
  match s.last with
  | some r =>
    "✅ Session ended after " ++ durationText elapsed ++ " (" ++ decimal r.accepted ++
      " accepted, " ++ decimal r.rejected ++ " rejected, last " ++ hashrateText r.hashrate ++ ")"
  | none => "Session ended after " ++ durationText elapsed ++ " without metrics"

inductive LogLevel where
  | debug
  | info
  | warn
  deriving Repr, DecidableEq

def LogLevel.name : LogLevel → String
  | debug => "debug"
  | info => "info"
  | warn => "warn"

def LogLevel.of (verbose quiet : Bool) : LogLevel :=
  if verbose then .debug else if quiet then .warn else .info

end RigWarden.Display
