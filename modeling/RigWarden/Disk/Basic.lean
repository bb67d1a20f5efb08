import RigWarden.Path
import RigWarden.SystemError
import RigWarden.Text.Utf8

/-!
# A tree of files

The tree is a list of places with what stands there; the root is always a directory. A file has an
identity of its own, so that an open file stays the same when its place changes. Finding a place
follows symbolic links, at most forty of them.
-/

namespace RigWarden

open Text

/-- The names on the way from the root. -/
abbrev Place := List String

structure FileData where
  id : Nat
  data : Bytes
  mode : Nat
  deriving Repr, DecidableEq, Inhabited

inductive Node where
  | dir
  | file (f : FileData)
  | link (target : Path)
  deriving Repr, DecidableEq, Inhabited

structure Disk where
  nodes : List (Place × Node) := []
  /-- Where relative paths start. -/
  workingDir : Place := []
  nextId : Nat := 0
  /-- What the next operations meet: a failure, or nothing. -/
  faults : List (Option SystemError) := []
  deriving Inhabited

namespace Disk

def get? (d : Disk) (p : Place) : Option Node :=
  if p = [] then some .dir else (d.nodes.find? (·.1 == p)).map Prod.snd

def set (d : Disk) (p : Place) (n : Node) : Disk :=
  if d.nodes.any (·.1 == p) then
    { d with nodes := d.nodes.map fun e => if e.1 == p then (p, n) else e }
  else { d with nodes := d.nodes ++ [(p, n)] }

/-- `inner` is `outer` or lies below it. -/
def isWithin (outer inner : Place) : Bool := outer.isPrefixOf inner

def erase (d : Disk) (p : Place) : Disk :=
  { d with nodes := d.nodes.filter fun e => !isWithin p e.1 }

def move (d : Disk) (source target : Place) : Disk :=
  { d with
    nodes := d.nodes.map fun e =>
      if isWithin source e.1 then (target ++ e.1.drop source.length, e.2) else e }

def children (d : Disk) (p : Place) : List String :=
  d.nodes.filterMap fun e =>
    if e.1.length = p.length + 1 ∧ isWithin p e.1 then e.1.getLast? else none

def updateFile (d : Disk) (id : Nat) (f : FileData → FileData) : Disk :=
  { d with
    nodes := d.nodes.map fun e =>
      match e.2 with
      | .file data => if data.id = id then (e.1, .file (f data)) else e
      | _ => e }

/-- Where a path leads: to something, or to a free name in a directory. -/
inductive Found where
  | node (place : Place) (n : Node)
  | vacant (place : Place)
  deriving Repr, DecidableEq

/-- How the end of a path is looked up. -/
inductive Lookup where
  /-- To what stands there: links are followed, and a slash at the end asks for a directory. -/
  | through
  /-- To the entry of the last name, even if it is a link. -/
  | entry
  /-- To a file that is made if it is missing: links are followed, and a slash at the end never
  names a file. -/
  | make
  deriving Repr, DecidableEq

/-- A way from a place, with a slash at its end or not. -/
abbrev Walk := (slash : Bool) → Place → List Path.Component → Except SystemError Found

def maxName : Nat := 255

/-- Looks up the last name of a way. `jump` is used where a link has to be followed. -/
def finish (d : Disk) (l : Lookup) (slash : Bool) (jump : Walk) (dir : Place) (name : String) :
    Except SystemError Found :=
  let place := dir ++ [name]
  if l = .make && slash then .error .isDirectory
  else if maxName < (utf8 name).length then .error .nameTooLong
  else match d.get? place with
    | none => .ok (.vacant place)
    | some .dir => .ok (.node place .dir)
    | some (.file f) =>
      if l = .through && slash then .error .notDirectory else .ok (.node place (.file f))
    | some (.link target) =>
      if l = .entry then .ok (.node place (.link target))
      else jump (slash || Path.endsInSlash target) dir (Path.steps target)

/-- Walks on from a directory. All but the last step have to lead to directories. -/
def walkFrom (d : Disk) (l : Lookup) (jump : Walk) : Walk
  | _, here, [] => .ok (.node here .dir)
  | slash, _, .root :: rest => walkFrom d l jump slash [] rest
  | slash, here, .here :: rest => walkFrom d l jump slash here rest
  | slash, here, .up :: rest => walkFrom d l jump slash here.dropLast rest
  | slash, here, [.name s] => finish d l slash jump here s
  | slash, here, .name s :: rest =>
    if maxName < (utf8 s).length then .error .nameTooLong
    else match d.get? (here ++ [s]) with
      | none => .error .notFound
      | some .dir => walkFrom d l jump slash (here ++ [s]) rest
      | some (.file _) => .error .notDirectory
      | some (.link target) => jump slash here (Path.steps target ++ rest)

def walk (d : Disk) (l : Lookup) : (links : Nat) → Walk
  | 0 => walkFrom d l fun _ _ _ => .error .tooManyLinks
  | links + 1 => walkFrom d l (walk d l links)

def maxLinks : Nat := 40

def maxPath : Nat := 4096

def findFrom (d : Disk) (dir : Place) (l : Lookup) (p : Path) : Except SystemError Found :=
  if p = "" then .error .notFound
  else if p.toList.contains (Char.ofNat 0) then .error .nulInPath
  else if maxPath ≤ (utf8 p).length then .error .nameTooLong
  else walk d l maxLinks (Path.endsInSlash p) dir (Path.steps p)

def find (d : Disk) (l : Lookup) (p : Path) : Except SystemError Found :=
  d.findFrom d.workingDir l p

def node? (d : Disk) (p : Path) : Option Node :=
  match d.find .through p with
  | .ok (.node _ n) => some n
  | _ => none

def exists? (d : Disk) (p : Path) : Bool := (d.node? p).isSome

def isDir (d : Disk) (p : Path) : Bool := d.node? p = some .dir

def isFile (d : Disk) (p : Path) : Bool :=
  match d.node? p with
  | some (.file _) => true
  | _ => false

def fileAt (d : Disk) (p : Path) : Except SystemError FileData :=
  match d.find .through p with
  | .error e => .error e
  | .ok (.vacant _) => .error .notFound
  | .ok (.node _ (.file f)) => .ok f
  | .ok (.node _ _) => .error .isDirectory

def bytesAt (d : Disk) (p : Path) : Except SystemError Bytes := (d.fileAt p).map FileData.data

def textAt (d : Disk) (p : Path) : Except SystemError String :=
  match d.bytesAt p with
  | .error e => .error e
  | .ok bs =>
    match decodeStrict? bs with
    | some cs => .ok (.ofList cs)
    | none => .error .notText

end Disk
end RigWarden
