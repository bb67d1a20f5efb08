import RigWarden.Config.Render
import RigWarden.Disk.Operations

/-!
# Writing a configuration

The contents go to a temporary file beside the configuration, which then takes its place in one
step. So the configuration is at any time the old one or the new one, as a whole.
-/

namespace RigWarden

open Text

namespace RenderedConfig

/-- Fills a new temporary file and moves it to the path. -/
def replace (r : RenderedConfig) (temporary : Path) (id : Nat) : TaskM Unit := do
  TaskM.doing "writing temporary config" (do Disk.append id (utf8 r.contents); Disk.sync)
  TaskM.doing ("replacing " ++ r.path) (Disk.rename temporary r.path)

def writeIn (r : RenderedConfig) (dir : Path) : TaskM Unit := do
  TaskM.doing ("creating " ++ dir) (Disk.makeDirs dir)
  let temporary ← TaskM.ask fun d => d.temporaryPath dir ".config-" ""
  let id ← TaskM.doing "creating temporary config" (Disk.createNew temporary 0o600)
  TaskM.removingOnError temporary (r.replace temporary id)

def write (r : RenderedConfig) : TaskM Unit :=
  match Path.parent? r.path with
  | none => throw (.configuration "config" .noParent)
  | some dir => r.writeIn dir

end RenderedConfig

def Backend.writeConfig (b : Backend) (processors : Nat) (p : Profile) (install : Path) :
    TaskM RenderedConfig := do
  let r ← TaskM.ofExcept (b.preview processors p install)
  r.write
  return r

end RigWarden
