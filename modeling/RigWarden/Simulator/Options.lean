import RigWarden.Path
import RigWarden.Time.Duration

/-!
# Options of the simulator

What a user can set, and what one run of the simulator is given.
-/

namespace RigWarden.Simulator

structure Options where
  tickMs : Nat := 1000
  durationSecs : Nat := 3600
  shareProbability : Float := 0.1
  seed : Option Nat := none
  deriving BEq, Inhabited

structure Settings where
  configPath : Path
  tick : Duration
  duration : Duration
  shareProbability : Float
  seed : Option Nat
  deriving Inhabited

def clampUnit (x : Float) : Float := if x < 0 then 0 else if 1 < x then 1 else x

def Options.settings (o : Options) (configPath : Path) : Settings :=
  { configPath := configPath
    tick := .ofMillis (max o.tickMs 1)
    duration := .ofSecs o.durationSecs
    shareProbability := clampUnit o.shareProbability
    seed := o.seed }

end RigWarden.Simulator
