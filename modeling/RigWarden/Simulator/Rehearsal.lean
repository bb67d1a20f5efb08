import RigWarden.Simulator.Behaviour

/-!
# Letting the simulator run

Runs with a given number of ticks, of which every write after some number of lines fails.
-/

namespace RigWarden.Simulator

/-- Readings that change nothing: a steady rate, and a share only if it is certain. -/
def evenDraw : Draw := ⟨1.0, 0.5, 0.5⟩

structure Plan where
  ticks : Nat
  /-- The run is stopped after its ticks; otherwise it has lasted its time. -/
  stops : Bool
  /-- How many writes succeed, if not all do. -/
  writes : Option Nat := none

def Plan.succeeds (p : Plan) (written : Nat) : Bool :=
  match p.writes with
  | some limit => written < limit
  | none => true

def Plan.ticked (p : Plan) (settings : Settings) : (n : Nat) → Run → Run
  | 0, r => r
  | n + 1, r =>
    let elapsed := if p.stops then Duration.zero else settings.duration
    ticked p settings n
      (r.step settings (.tick evenDraw ⟨0, 0⟩ elapsed (p.succeeds r.written.length)
        (p.succeeds (r.written.length + 1))))

def Plan.run (p : Plan) (settings : Settings) (config : Except SystemError String) : Run :=
  let r := p.ticked settings p.ticks (Run.start config 2000 (p.succeeds 0))
  if p.stops then r.step settings (.stop .zero (p.succeeds r.written.length)) else r

end RigWarden.Simulator
