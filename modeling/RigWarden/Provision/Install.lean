import RigWarden.Archive.Unpack
import RigWarden.Backend.Basic
import RigWarden.Time.Duration

/-!
# Installing a release

The release is unpacked into a staging directory inside the install root. Only when the whole
archive was unpacked and holds the executable are the staged entries moved to the install path, each
in the place of an older one of its name.
-/

namespace RigWarden.Provision

/-- What a long procedure sees when it looks up from its work. -/
structure Look where
  now : Clock
  cancelled : Bool
  deriving Repr, DecidableEq, Inhabited

/-- A look that finds the procedure cancelled or out of time ends it. -/
def Look.check (l : Look) (deadline : Clock) (what : String) : Except Error Unit :=
  if l.cancelled then .error .cancelled
  else if l.now.reached deadline then .error (.timeout what)
  else .ok ()

def moveEntry (staging install : Path) (name : String) : TaskM Unit := do
  let target := Path.join install name
  if ← TaskM.ask (Disk.isDir · target) then
    TaskM.doing ("removing " ++ target) (Disk.removeDirs target)
  else if ← TaskM.ask (Disk.exists? · target) then
    TaskM.doing ("removing " ++ target) (Disk.removeFile target)
  TaskM.doing ("installing " ++ target) (Disk.rename (Path.join staging name) target)

def moveEntries (staging install : Path) : List String → TaskM Unit
  | [] => return ()
  | name :: names => do
    moveEntry staging install name
    moveEntries staging install names

/-- Moves all staged entries, in the order in which the directory lists them. -/
def moveIntoPlace (order : List String → List String) (staging install : Path) : TaskM Unit := do
  TaskM.doing ("creating " ++ install) (Disk.makeDirs install)
  let names ← TaskM.doing ("reading " ++ staging) (Disk.list staging)
  moveEntries staging install (order names)

def makeExecutable (p : Path) : TaskM Unit := do
  if ← TaskM.ask (Disk.exists? · p) then
    TaskM.doing ("chmod " ++ p) (Disk.addMode p 0o755)
  else
    TaskM.doing ("reading " ++ p) (Disk.addMode p 0o755)

/-- Installs a fetched archive: unpack, look for the executable, move, make executable. -/
def installStaged (goOn : Nat → Except Error Unit) (order : List String → List String)
    (desc : Descriptor) (strip : Nat) (install staging : Path) (items : List Archive.Item) :
    TaskM Unit := do
  Archive.unpack goOn staging strip items
  match desc.executable with
  | none => moveIntoPlace order staging install
  | some name =>
    if !(← TaskM.ask (Disk.isFile · (Path.join staging name))) then
      throw (.archive (.lacks name))
    moveIntoPlace order staging install
    makeExecutable (Path.join install name)

def install (goOn : Nat → Except Error Unit) (order : List String → List String)
    (desc : Descriptor) (strip : Nat) (root : Path) (items : List Archive.Item) :
    TaskM Unit := do
  let staging ← TaskM.ask fun d => d.temporaryPath root ".staging-" ""
  TaskM.doing "creating staging directory" (Disk.makeDir staging)
  TaskM.removing staging
    (installStaged goOn order desc strip (desc.installPath root) staging items)

end RigWarden.Provision
