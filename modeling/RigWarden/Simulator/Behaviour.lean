import RigWarden.Simulator.Run
import RigWarden.Worker.Site

/-!
# The simulator as a worker

The lines of a run as acts of a worker, with a pause before each tick. Asked to end, the simulator
writes its last line and exits.
-/

namespace RigWarden.Simulator

open Text

def lineBytes (line : String) : Bytes := utf8 line ++ [10]

/-- The ticks after which a run has lasted its time; at least one. -/
def ticksUntil (tick duration : Duration) : Nat := max 1 ((duration.total + tick.total - 1) / tick.total)

/-- The acts of the ticks of a run, `n` of them being left. -/
def tickActs (settings : Settings) (draw : Nat → Draw) (now : Instant) :
    (n : Nat) → Run → List Act
  | 0, _ => []
  | n + 1, r =>
    let next := r.tick settings.shareProbability (draw n) now true
    .pause settings.tick :: (next.written.drop r.written.length).map (.write ∘ lineBytes) ++
      tickActs settings draw now n next

def closing (elapsed : Duration) : List Act :=
  [.write (lineBytes (lastLine elapsed)), .exit .success]

/-- No more than this many ticks are planned ahead. A longer run goes on until it is asked to end. -/
def horizon : Nat := 5000

def behaviour (draw : Nat → Draw) (now : Instant) (settings : Settings)
    (config : Except SystemError String) : Behaviour :=
  let r := Run.start config 2000 true
  let opening := r.written.map fun line => Act.write (lineBytes line)
  match r.exit with
  | some e => ⟨opening ++ [.exit e], some [.exit e]⟩
  | none =>
    let n := ticksUntil settings.tick settings.duration
    let elapsed := Duration.ofTotal (n * settings.tick.total)
    let ticks := tickActs settings draw now (min n horizon) r
    ⟨opening ++ ticks ++ (if n ≤ horizon then closing elapsed else []), some (closing .zero)⟩

end RigWarden.Simulator
