import RigWarden.CommandLine.Run
import RigWarden.Simulator.Rehearsal

/-!
# The program

The files that a command is about are read, the command runs, and the files that it changed are
written. Workers are played by the simulator alone: this program starts no other program and opens
no connection.
-/

namespace RigWarden.Program

open Text CommandLine

def variableNames : List String := [
  "HOME", "XDG_CONFIG_HOME", "XDG_DATA_HOME", "MINING_WALLET_ADDRESS", "MINING_POOL_URL",
  "MINING_WORKER_NAME", "MINING_INSTALL_ROOT"]

def environment : IO (String → Option String) := do
  let values ← variableNames.mapM fun name => do return (name, ← IO.getEnv name)
  return fun name => (values.find? (·.1 == name)).bind Prod.snd

def countProcessors : IO Nat := do
  let text ← IO.FS.readFile "/proc/cpuinfo" <|> pure ""
  let named := (lines text.toList).filter fun l => (dropStart? "processor".toList l).isSome
  return max 1 named.length

def world (processors : Nat) (lookup : String → Option String) : World :=
  { machine :=
      { processors := processors
        execute := fun _ _ _ => .error .permissionDenied
        simulate := Simulator.behaviour (fun _ => Simulator.evenDraw) ⟨0, 0⟩ }
    now := ⟨0, 0⟩
    lookup := lookup
    fetch := fun _ _ => ⟨.error (.network (.broken "no connection")), false⟩
    listen := fun _ => .error .permissionDenied }

/-- A disk with nothing on it but the directory that relative paths start from. -/
def blankDisk : Disk := { nodes := [([":"], .dir)], workingDir := [":"] }

def readFiles (d : Disk) : List Path → IO Disk
  | [] => return d
  | p :: ps => do
    let found ← (some <$> IO.FS.readBinFile p) <|> pure none
    match found with
    | some bytes => readFiles (Disk.putFile p bytes.toList none d).2 ps
    | none => readFiles d ps

def writeFiles (before after : Disk) : List Path → IO Unit
  | [] => return
  | p :: ps => do
    match before.bytesAt p, after.bytesAt p with
    | old, .ok bytes =>
      if old.toOption ≠ some bytes then
        match Path.parent? p with
        | some dir => if dir ≠ "" then IO.FS.createDirAll dir
        | none => pure ()
        IO.FS.writeBinFile p ⟨bytes.toArray⟩
    | _, .error _ => pure ()
    writeFiles before after ps

end RigWarden.Program

open RigWarden RigWarden.Program in
def main (words : List String) : IO UInt32 := do
  let lookup ← environment
  let w := world (← countProcessors) lookup
  let settings := CommandLine.settingsFiles lookup words
  let disk ← readFiles blankDisk settings
  let files := settings ++ CommandLine.sessionFiles w words disk
  let disk ← readFiles blankDisk files
  let report := CommandLine.run w words disk
  writeFiles disk report.disk files
  IO.print report.out
  IO.eprint (CommandLine.failureText report.causes)
  return report.code.toUInt32
