import RigWarden.Backend.Basic
import RigWarden.Config.KeyValue
import RigWarden.Config.SrbMiner
import RigWarden.Config.Xmrig
import RigWarden.Profile.Check

/-!
# Rendering a profile

A backend turns a profile into the text of its configuration. Before such a text is used it is
inspected: a token that was not filled in or a value that is a stand-in as a whole is an error of
the configuration file.
-/

namespace RigWarden

open Text Number

inductive ConfigFormat where
  | json
  | keyValue
  deriving Repr, DecidableEq

structure RenderedConfig where
  path : Path
  format : ConfigFormat
  contents : String
  deriving Repr, DecidableEq

namespace RenderedConfig

def values (format : ConfigFormat) (contents : String) : List String :=
  match format with
  | .keyValue => (KeyValue.parse contents).values
  | .json => ((Json.read? contents).map Json.strings).getD []

def fault? (format : ConfigFormat) (contents : String) : Option ConfigurationFault :=
  match Template.unresolved? contents with
  | some token => some (.unresolvedToken token)
  | none => ((values format contents).find? isPlaceholder).map fun v => .renderedPlaceholder (trim v)

def inspect (configFile : String) (r : RenderedConfig) : Except Error RenderedConfig :=
  match fault? r.format r.contents with
  | some fault => .error (.configuration configFile fault)
  | none => .ok r

end RenderedConfig

namespace Simulator

def configText (processors : Nat) (p : Profile) : String :=
  KeyValue.render "# simulated worker, no real hashing is performed"
    [("pool", trim p.pool), ("wallet", trim p.wallet), ("worker", trim p.worker),
      ("algorithm", trim p.algorithm), ("threads", decimal (p.effectiveThreads processors)),
      ("max-cpu-usage", decimal p.maxCpuUsage)]

end Simulator

namespace Backend

def configFormat : Backend → ConfigFormat
  | xmrig => .json
  | _ => .keyValue

def renderContents (b : Backend) (processors : Nat) (p : Profile) (install : Path) :
    Except Error String :=
  match b with
  | xmrig => .ok (Xmrig.Config.ofProfile processors p).render
  | srbMiner => SrbMiner.render processors p install
  | simulated => .ok (Simulator.configText processors p)

def render (b : Backend) (processors : Nat) (p : Profile) (install : Path) :
    Except Error RenderedConfig :=
  (b.renderContents processors p install).map fun contents =>
    ⟨b.descriptor.configPath install, b.configFormat, contents⟩

/-- Checks the profile, renders it and inspects the result. -/
def preview (b : Backend) (processors : Nat) (p : Profile) (install : Path) :
    Except Error RenderedConfig := do
  p.check
  (← b.render processors p install).inspect b.descriptor.configFile

end Backend
end RigWarden
