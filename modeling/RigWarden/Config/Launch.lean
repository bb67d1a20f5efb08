import RigWarden.Config.Render
import RigWarden.Simulator.Options

/-!
# How a worker is started
-/

namespace RigWarden

inductive LaunchTarget where
  | executable (program : Path)
  | simulator (settings : Simulator.Settings)

structure LaunchSpec where
  target : LaunchTarget
  args : List String
  workingDir : Path

def LaunchSpec.program (s : LaunchSpec) : String :=
  match s.target with
  | .executable program => program
  | .simulator _ => "built-in simulator"

def Backend.launchSpec (b : Backend) (options : Simulator.Options) (install : Path)
    (config : RenderedConfig) : LaunchSpec :=
  match b with
  | .xmrig =>
    ⟨.executable (Path.join install "xmrig"), ["--config", config.path, "--no-color"], install⟩
  | .srbMiner =>
    ⟨.executable (Path.join install "SRBMiner-MULTI"), ["--config", config.path], install⟩
  | .simulated => ⟨.simulator (options.settings config.path), [], install⟩

end RigWarden
