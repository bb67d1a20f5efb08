import RigWarden.Config.Launch
import RigWarden.Disk.Operations

/-!
# Workers and the disk they write to

A worker is a process or the thread of the simulator. What it is going to do is a list of acts, and
a request to end replaces the list, unless the worker takes no notice of requests. Every worker
writes to the file that was open as its log when it was started.
-/

namespace RigWarden

open Text

inductive Act where
  | write (bytes : Bytes)
  | remove (p : Path)
  | pause (d : Duration)
  | exit (e : WorkerExit)
  deriving Repr, DecidableEq

structure Behaviour where
  acts : List Act
  /-- The acts that a request to end leads to, for a worker that takes notice. -/
  onRequest : Option (List Act)
  deriving Repr, DecidableEq, Inhabited

structure Worker where
  program : String
  isSimulator : Bool
  log : Nat
  behaviour : Behaviour
  exit : Option WorkerExit
  deriving Repr, DecidableEq, Inhabited

structure Machine where
  processors : Nat
  /-- What an executable file does on its n-th start, or why it cannot be executed. -/
  execute : (program : Path) → Bytes → (n : Nat) → Except SystemError Behaviour
  /-- What the simulator does with its configuration. -/
  simulate : Simulator.Settings → Except SystemError String → Behaviour

structure Site where
  disk : Disk := {}
  workers : List Worker := []
  deriving Inhabited

namespace Site

def executeBits : Nat := 0o111

/-- How a program starts, sought from the directory that it is started in. -/
def loadFrom (m : Machine) (s : Site) (program : Path) (dir : Place) :
    Except SystemError Behaviour :=
  match { s.disk with workingDir := dir }.fileAt program with
  | .error .isDirectory => .error .permissionDenied
  | .error cause => .error cause
  | .ok f =>
    if f.mode &&& executeBits = 0 then .error .permissionDenied
    else m.execute program f.data (s.workers.filter (·.program == program)).length

/-- How an executable starts in a directory. It has to be found from outside the directory, too. -/
def load (m : Machine) (s : Site) (program workingDir : Path) : Except SystemError Behaviour :=
  if !s.disk.isFile program then .error .noExecutable
  else match s.disk.find .through workingDir with
    | .error .nulInPath => .error .nulInData
    | .error cause => .error cause
    | .ok (.vacant _) => .error .notFound
    | .ok (.node dir .dir) => s.loadFrom m program dir
    | .ok (.node _ _) => .error .notDirectory

def behaviour (m : Machine) (s : Site) (spec : LaunchSpec) : Except SystemError Behaviour :=
  match spec.target with
  | .executable program => s.load m program spec.workingDir
  | .simulator settings => .ok (m.simulate settings (s.disk.textAt settings.configPath))

def isSimulation (spec : LaunchSpec) : Bool :=
  match spec.target with
  | .executable _ => false
  | .simulator _ => true

/-- Opens the log and starts a worker, which is known by its number. -/
def spawn (m : Machine) (s : Site) (spec : LaunchSpec) (logPath : Path) :
    Except Error Nat × Site :=
  match Disk.openFile logPath s.disk with
  | (.error cause, disk) => (.error (.io ("opening " ++ logPath) cause), { s with disk := disk })
  | (.ok log, disk) =>
    let s := { s with disk := disk }
    match s.behaviour m spec with
    | .error cause => (.error (.launch spec.program cause), s)
    | .ok behaviour =>
      (.ok s.workers.length,
        { s with workers := s.workers ++ [⟨spec.program, isSimulation spec, log, behaviour, none⟩] })

def exit? (s : Site) (w : Nat) : Option WorkerExit := s.workers[w]?.bind Worker.exit

def isAlive (s : Site) (w : Nat) : Bool := (s.workers[w]?.map (·.exit.isNone)).getD false

def setWorker (s : Site) (w : Nat) (worker : Worker) : Site :=
  { s with workers := s.workers.set w worker }

def step (s : Site) (w : Nat) : Site :=
  match s.workers[w]? with
  | none => s
  | some worker =>
    match worker.behaviour.acts with
    | [] => s
    | act :: acts =>
      let s := s.setWorker w { worker with behaviour := { worker.behaviour with acts := acts } }
      match act with
      | .write bytes =>
        { s with disk := s.disk.updateFile worker.log fun f => { f with data := f.data ++ bytes } }
      | .remove p => { s with disk := (Disk.removeFile p s.disk).2 }
      | .pause _ => s
      | .exit e =>
        s.setWorker w { worker with behaviour := ⟨[], none⟩, exit := some (worker.exit.getD e) }

def request (s : Site) (w : Nat) : Site :=
  match s.workers[w]? with
  | none => s
  | some worker =>
    match worker.exit, worker.behaviour.onRequest with
    | none, some acts => s.setWorker w { worker with behaviour := ⟨acts, none⟩ }
    | _, _ => s

/-- Kills a worker, and gives the exit that is known then. A thread cannot be killed and goes on
until it notices. -/
def kill (s : Site) (w : Nat) : WorkerExit × Site :=
  match s.workers[w]? with
  | none => (.unknown, s)
  | some worker =>
    if worker.isSimulator then (.unknown, s)
    else
      let exit := worker.exit.getD (.bySignal 9)
      (exit, s.setWorker w { worker with behaviour := ⟨[], none⟩, exit := some exit })

end Site
end RigWarden
