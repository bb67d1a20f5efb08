import RigWarden.Disk.Basic
import RigWarden.Error
import RigWarden.Number.Unsigned

/-!
# Operations on files

An operation answers with a result or the cause of its failure, and leaves a disk behind in both
cases. Before it does anything it takes the next fault of the disk, so that any operation of a
longer procedure can be made to fail.
-/

namespace RigWarden

open Text

abbrev DiskM := ExceptT SystemError (StateM Disk)

namespace Disk

/-- One operation: it fails without effect, or succeeds with one. -/
def attempt {α : Type} (op : Disk → Except SystemError (α × Disk)) : DiskM α := fun d =>
  match d.faults with
  | some e :: faults => (.error e, { d with faults := faults })
  | faults =>
    let d := { d with faults := faults.drop 1 }
    match op d with
    | .ok (a, after) => (.ok a, after)
    | .error e => (.error e, d)

def ask {α : Type} (f : Disk → α) : DiskM α := fun d => (.ok (f d), d)

def makeDir (p : Path) : DiskM Unit := attempt fun d => do
  match ← d.find .entry p with
  | .node _ _ => throw .alreadyExists
  | .vacant place => return ((), d.set place .dir)

def ensureDir (p : Path) : DiskM Unit := fun d =>
  match makeDir p d with
  | (.error e, after) => if d.isDir p then (.ok (), after) else (.error e, after)
  | done => done

/-- Makes the first path of a list, and those after it before that when they are missing. -/
def makeDirsFrom : List Path → DiskM Unit
  | [] => throw (.other "failed to create whole tree")
  | p :: above => fun d =>
    match makeDir p d with
    | (.error .notFound, after) => (do makeDirsFrom above; ensureDir p : DiskM Unit) after
    | (.error e, after) => if d.isDir p then (.ok (), after) else (.error e, after)
    | done => done

def ancestors : (bound : Nat) → Path → List Path
  | 0, p => [p]
  | n + 1, p => p :: ((Path.parent? p).map (ancestors n)).getD []

def makeDirs (p : Path) : DiskM Unit :=
  if p = "" then pure () else makeDirsFrom ((ancestors p.length p).filter (· ≠ ""))

/-- Makes a new file where nothing may stand yet, and gives its identity. -/
def createNew (p : Path) (mode : Nat) : DiskM Nat := attempt fun d => do
  match ← d.find .entry p with
  | .node _ _ => throw .alreadyExists
  | .vacant place =>
    return (d.nextId, { d.set place (.file ⟨d.nextId, [], mode⟩) with nextId := d.nextId + 1 })

def defaultMode : Nat := 0o644

def openFile (p : Path) : DiskM Nat := attempt fun d => do
  match ← d.find .make p with
  | .node _ (.file f) => return (f.id, d)
  | .node _ _ => throw .isDirectory
  | .vacant place =>
    return (d.nextId,
      { d.set place (.file ⟨d.nextId, [], defaultMode⟩) with nextId := d.nextId + 1 })

def append (id : Nat) (bs : Bytes) : DiskM Unit := attempt fun d =>
  .ok ((), d.updateFile id fun f => { f with data := f.data ++ bs })

def truncate (id : Nat) : DiskM Unit := attempt fun d =>
  .ok ((), d.updateFile id fun f => { f with data := [] })

def emptyFile (p : Path) : DiskM Nat := attempt fun d => do
  match ← d.find .make p with
  | .node _ (.file f) => return (f.id, d.updateFile f.id fun f => { f with data := [] })
  | .node _ _ => throw .isDirectory
  | .vacant place =>
    return (d.nextId,
      { d.set place (.file ⟨d.nextId, [], defaultMode⟩) with nextId := d.nextId + 1 })

def writeFile (p : Path) (bs : Bytes) : DiskM Unit := do
  let id ← emptyFile p
  append id bs

def readText (p : Path) : DiskM String := attempt fun d => do return (← d.textAt p, d)

def removeFile (p : Path) : DiskM Unit := attempt fun d => do
  match ← d.find .entry p with
  | .node _ .dir => throw .isDirectory
  | .node place _ => return ((), d.erase place)
  | .vacant _ => throw .notFound

/-- Removes a directory with all it holds, or just the link when the path is one. -/
def removeDirs (p : Path) : DiskM Unit := attempt fun d => do
  match ← d.find .entry p with
  | .node _ (.file _) => throw .notDirectory
  | .node place _ => return ((), d.erase place)
  | .vacant _ => throw .notFound

def rename (source target : Path) : DiskM Unit := attempt fun d => do
  match ← d.find .entry source with
  | .vacant _ => throw .notFound
  | .node from_ n =>
    match ← d.find .entry target with
    | .vacant to_ =>
      if n = .dir ∧ isWithin from_ to_ then throw .invalidArgument
      else return ((), d.move from_ to_)
    | .node to_ old =>
      if from_ = to_ then return ((), d)
      else if n = .dir ∧ isWithin from_ to_ then throw .invalidArgument
      else if n = .dir ∧ old ≠ .dir then throw .notDirectory
      else if n ≠ .dir ∧ old = .dir then throw .isDirectory
      else if d.children to_ ≠ [] then throw .notEmpty
      else return ((), (d.erase to_).move from_ to_)

def makeLink (target p : Path) : DiskM Unit := attempt fun d => do
  if target = "" then throw .notFound
  match ← d.find .entry p with
  | .node _ _ => throw .alreadyExists
  | .vacant place => return ((), d.set place (.link target))

def addMode (p : Path) (mode : Nat) : DiskM Unit := attempt fun d => do
  match ← d.find .through p with
  | .node _ (.file f) => return ((), d.updateFile f.id fun f => { f with mode := f.mode ||| mode })
  | .node _ _ => return ((), d)
  | .vacant _ => throw .notFound

def setMode (id mode : Nat) : DiskM Unit := attempt fun d =>
  .ok ((), d.updateFile id fun f => { f with mode := mode })

/-- Puts a file in place with the directories above it; it keeps its permissions if none are
given. -/
def putFile (p : Path) (bs : Bytes) (mode : Option Nat) : DiskM Unit := do
  makeDirs ((Path.parent? p).getD "")
  let id ← emptyFile p
  append id bs
  match mode with
  | some mode => setMode id mode
  | none => pure ()

def list (p : Path) : DiskM (List String) := attempt fun d => do
  match ← d.find .through p with
  | .node place .dir => return (d.children place, d)
  | .node _ _ => throw .notDirectory
  | .vacant _ => throw .notFound

def freshPath (d : Disk) (dir : Path) (start final : String) : (tries n : Nat) → Path
  | 0, n => Path.join dir (start ++ Number.decimal n ++ final)
  | tries + 1, n =>
    let p := Path.join dir (start ++ Number.decimal n ++ final)
    match d.find .entry p with
    | .ok (.node _ _) => freshPath d dir start final tries (n + 1)
    | _ => p

def temporaryPath (d : Disk) (dir : Path) (start final : String) : Path :=
  freshPath d dir start final d.nodes.length 0

/-- Puts what was written to a file on the medium. -/
def sync : DiskM Unit := attempt fun d => .ok ((), d)

def without (d : Disk) (p : Path) : Disk :=
  match d.find .entry p with
  | .ok (.node place _) => d.erase place
  | _ => d

end Disk

/-- A procedure on files that can fail in ways of its own. -/
abbrev TaskM := ExceptT Error (StateM Disk)

namespace TaskM

/-- An operation whose failure is reported with what was being done. -/
def doing {α : Type} (what : String) (op : DiskM α) : TaskM α := fun d =>
  match op d with
  | (.ok a, d) => (.ok a, d)
  | (.error cause, d) => (.error (.io what cause), d)

def removing {α : Type} (p : Path) (task : TaskM α) : TaskM α := fun d =>
  let (r, d) := task d
  (r, d.without p)

def removingOnError {α : Type} (p : Path) (task : TaskM α) : TaskM α := fun d =>
  match task d with
  | (.ok a, d) => (.ok a, d)
  | (.error e, d) => (.error e, d.without p)

def ask {α : Type} (f : Disk → α) : TaskM α := fun d => (.ok (f d), d)

def ofExcept {α : Type} (r : Except Error α) : TaskM α := fun d => (r, d)

end TaskM
end RigWarden
