import RigWarden.Disk.Operations

/-!
# Unpacking an archive

Entries are unpacked one by one under a directory, without their first components. A name that is
not made of plain names is refused, and so are hard links and links that do not lead further down
from where they sit. What stands at the place of a file or a link is replaced.
-/

namespace RigWarden.Archive

open Text

inductive EntryKind where
  | file
  | dir
  | symlink
  | hardLink
  deriving Repr, DecidableEq

structure Entry where
  name : Path
  kind : EntryKind
  mode : Nat
  data : Bytes
  link : Path
  deriving Repr, DecidableEq

/-- What reading an archive gives: one entry after the other, until it cannot be read on. -/
inductive Item where
  | entry (e : Entry)
  | broken (text : String)
  deriving Repr, DecidableEq

def plainName? : Path.Component → Option String
  | .name s => some s
  | _ => none

/-- The components of a name that count, without the first ones. -/
def stripped (strip : Nat) (name : Path) : List Path.Component :=
  ((Path.components name).filter (· != .here)).drop strip

/-- A link may only lead further down from where it sits. -/
def isContained (link : Path) : Bool :=
  link ≠ "" && (Path.components link).all fun
    | .name _ => true
    | .here => true
    | _ => false

/-- A file whose name ends in a slash is a directory. -/
def Entry.isDir (e : Entry) : Bool :=
  match e.kind with
  | .dir => true
  | .file => e.name.toList.getLast? = some '/'
  | _ => false

/-- Why an entry with these components must not be unpacked. -/
def Entry.fault? (e : Entry) (parts : List Path.Component) : Option ArchiveFault :=
  if parts.any (plainName? · |>.isNone) then some (.unsafePath e.name)
  else match e.kind with
    | .hardLink => some (.hardLink e.name)
    | .symlink => if isContained e.link then none else some (.unsafeLink e.name e.link)
    | _ => none

/-- Runs a step, and once more without what stood in its way. -/
def replacing {α : Type} (p : Path) (make : DiskM α) : DiskM α := fun d =>
  match make d with
  | (.error .alreadyExists, d) => (do Disk.removeFile p; make : DiskM α) d
  | done => done

def permissions (mode : Nat) : Nat := mode % 512

def Entry.place (e : Entry) (p : Path) : DiskM Unit :=
  if e.isDir then Disk.ensureDir p
  else if e.kind = .symlink then replacing p (Disk.makeLink e.link p)
  else do
    let id ← replacing p (Disk.createNew p Disk.defaultMode)
    Disk.append id e.data
    Disk.setMode id (permissions e.mode)

/-- An operation whose failure is a fault of the archive. -/
def unpacking {α : Type} (op : DiskM α) : TaskM α := fun d =>
  match op d with
  | (.ok a, d) => (.ok a, d)
  | (.error cause, d) => (.error (.archive (.unreadable cause.text)), d)

/-- Unpacks an entry, and says whether anything was left of its name. -/
def Entry.unpack (e : Entry) (dest : Path) (strip : Nat) : TaskM Bool := do
  let parts := stripped strip e.name
  if parts = [] then return false
  match e.fault? parts with
  | some fault => throw (.archive fault)
  | none =>
    let p := Path.join dest ("/".intercalate (parts.filterMap plainName?))
    unpacking (do
      Disk.makeDirs ((Path.parent? p).getD "")
      e.place p)
    return true

/-- Unpacks all items and counts the entries. Before each item the caller is asked whether to go
on; `index` numbers these questions. -/
def unpackFrom (goOn : Nat → Except Error Unit) (dest : Path) (strip : Nat) :
    (index : Nat) → List Item → TaskM Nat
  | _, [] => return 0
  | index, item :: items => do
    TaskM.ofExcept (goOn index)
    match item with
    | .broken text => throw (.archive (.unreadable text))
    | .entry e =>
      let done ← e.unpack dest strip
      let n ← unpackFrom goOn dest strip (index + 1) items
      return if done then n + 1 else n

def unpack (goOn : Nat → Except Error Unit) (dest : Path) (strip : Nat) (items : List Item) :
    TaskM Unit := do
  let n ← unpackFrom goOn dest strip 0 items
  if n = 0 then throw (.archive .empty)

end RigWarden.Archive
