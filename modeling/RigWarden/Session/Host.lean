import RigWarden.Config.Write
import RigWarden.Event.Channel
import RigWarden.Provision.Provisioner
import RigWarden.Session.Pump
import RigWarden.Worker.Site

/-!
# Sessions on a host

Starting a session checks the profile, provisions the backend, takes the lock of the install path,
writes the configuration and, if asked to, empties the log. The first of these that fails ends the
start, and no worker exists by then. From there on the session's pump does the work, one step at a
time; the lock is free again when the pump is over.
-/

namespace RigWarden

structure SessionOptions where
  installRoot : Path
  provisionTimeout : Duration := .ofSecs 300
  gracePeriod : Duration := .ofSecs 10
  restart : RestartPolicy := {}
  pollInterval : Duration := .ofMillis 250
  channelCapacity : Nat := 256
  /-- Where the session log is, if not in the install path. -/
  logFile : Option Path := none
  truncateLog : Bool := false
  simulator : Simulator.Options := {}
  deriving Inhabited

structure Session where
  backend : Backend
  installPath : Path
  logPath : Path
  lock : Nat
  launch : LaunchSpec
  pump : Pump
  channel : Channel
  stopAsked : Bool := false
  subscribed : Bool := false

structure Host where
  options : SessionOptions
  provisioner : Provisioner
  site : Site
  sessions : List Session := []

namespace Session

def lockFile : String := ".session.lock"

def logFile : String := "session.log"

def holdsLock (s : Session) : Bool := !s.pump.isOver

end Session

namespace Host

def new (options : SessionOptions) (disk : Disk) : Host :=
  { options := options
    provisioner := { root := options.installRoot }
    site := { disk := disk } }

def disk (h : Host) : Disk := h.site.disk

def withDisk (h : Host) (d : Disk) : Host := { h with site := { h.site with disk := d } }

def perform {α : Type} (h : Host) (task : TaskM α) : Except Error α × Host :=
  let (r, d) := task h.disk
  (r, h.withDisk d)

def isLocked (h : Host) (lock : Nat) : Bool :=
  h.sessions.any fun s => s.lock = lock && s.holdsLock

def provisionStatus (h : Host) (b : Backend) : ProvisionState :=
  h.provisioner.status h.disk b.descriptor

def ensure (h : Host) (env : ProvisionEnv) (b : Backend) : Except Halt ProvisionState × Host :=
  let (r, p, d) := h.provisioner.ensure env b.descriptor h.disk
  (r, { h with provisioner := p }.withDisk d)

/-- Opens the lock file of an install path; somebody else may hold the lock. -/
def acquireLock (h : Host) (install : Path) : Except Error Nat × Host :=
  let p := Path.join install Session.lockFile
  match h.perform (TaskM.doing ("opening " ++ p) (Disk.openFile p)) with
  | (.error e, h) => (.error e, h)
  | (.ok lock, h) =>
    if h.isLocked lock then (.error (.sessionBusy install), h) else (.ok lock, h)

def logPath (h : Host) (install : Path) : Path :=
  h.options.logFile.getD (Path.join install Session.logFile)

def emptyLog (options : SessionOptions) (log : Path) : TaskM Unit := do
  if options.truncateLog && (← TaskM.ask (Disk.exists? · log)) then
    let _ ← TaskM.doing ("truncating " ++ log) (Disk.emptyFile log)
    return ()

def viewLog (d : Disk) (log : Path) : Log.View :=
  match d.find .through log with
  | .error .notFound => .absent
  | .error cause => .hidden cause
  | .ok (.vacant _) => .absent
  | .ok (.node _ (.file f)) => .content f.data
  | .ok (.node _ _) => .unreadable 4096 .isDirectory

def newSession (h : Host) (b : Backend) (install log : Path) (lock : Nat)
    (config : RenderedConfig) : Session :=
  let launch := b.launchSpec h.options.simulator install config
  { backend := b
    installPath := install
    logPath := log
    lock := lock
    launch := launch
    pump := .new b launch.program h.options.restart h.options.gracePeriod
      (.fromEnd (viewLog h.disk log))
    channel := .new h.options.channelCapacity }

def configure (m : Machine) (h : Host) (profile : Profile) (b : Backend) (install : Path) :
    Except Error Session × Host :=
  match h.acquireLock install with
  | (.error e, h) => (.error e, h)
  | (.ok lock, h) =>
    match h.perform (b.writeConfig m.processors profile install) with
    | (.error e, h) => (.error e, h)
    | (.ok config, h) =>
      let log := h.logPath install
      match h.perform (emptyLog h.options log) with
      | (.error e, h) => (.error e, h)
      | (.ok _, h) => (.ok (h.newSession b install log lock config), h)

def prepare (m : Machine) (h : Host) (env : ProvisionEnv) (profile : Profile) (b : Backend) :
    Except Halt Session × Host :=
  match profile.check with
  | .error e => (.error (.error e), h)
  | .ok _ =>
    let (r, p, d) := h.provisioner.provision env b.descriptor h.disk
    let h := { h with provisioner := p }.withDisk d
    match r with
    | .error halt => (.error halt, h)
    | .ok install =>
      if env.cancelledAfter then (.error (.error .cancelled), h)
      else match h.configure m profile b install with
        | (.error e, h) => (.error (.error e), h)
        | (.ok s, h) => (.ok s, h)

def start (m : Machine) (h : Host) (env : ProvisionEnv) (profile : Profile) (b : Backend) :
    Except Halt Nat × Host :=
  match h.prepare m env profile b with
  | (.error halt, h) => (.error halt, h)
  | (.ok s, h) => (.ok h.sessions.length, { h with sessions := h.sessions ++ [s] })

def watched? (p : Pump) : Option Nat :=
  match p.phase with
  | .terminating w _ => some w
  | _ => p.supervisor.worker

def observe (h : Host) (s : Session) (now : Instant) (clock : Clock)
    (spawned : Except Error Nat) : Observation :=
  let w := watched? s.pump
  { now := now
    clock := clock
    log := viewLog h.disk s.logPath
    spawned := spawned
    ended := w.bind h.site.exit?
    stopAsked := s.stopAsked
    killed := (w.map fun w => (h.site.kill w).1).getD .unknown }

/-- What a step of the pump does to the outside: the start of a worker, the request to end it, and
its being killed. -/
def effect (m : Machine) (h : Host) (s : Session) : Except Error Nat × Site :=
  match s.pump.phase with
  | .launching _ =>
    if s.pump.supervisor.worker.isSome then (.error .cancelled, h.site)
    else h.site.spawn m s.launch s.logPath
  | .stopping =>
    (.error .cancelled, (s.pump.supervisor.worker.map h.site.request).getD h.site)
  | _ => (.error .cancelled, h.site)

/-- The site after a step that ended a stop by force. -/
def killIfForced (site : Site) (before after : Pump) (o : Observation) : Site :=
  match before.phase, after.phase, o.ended with
  | .terminating w _, .finishing, none => (site.kill w).2
  | _, _, _ => site

def setSession (h : Host) (i : Nat) (s : Session) : Host :=
  { h with sessions := h.sessions.set i s }

/-- The channel after a pump's step: its events are sent, and the sink goes with the pump. -/
def deliver (c : Channel) (p : Pump) (es : List Event) : Channel :=
  let c := c.sendAll es
  if p.isOver then c.closeSink else c

def pumpStep (m : Machine) (h : Host) (now : Instant) (clock : Clock) (i : Nat) : Host :=
  match h.sessions[i]? with
  | none => h
  | some s =>
    if s.pump.isOver then h
    else
      let (spawned, site) := h.effect m s
      let o := h.observe s now clock spawned
      let (p, es) := s.pump.step o
      let site := killIfForced site s.pump p o
      { h with site := site }.setSession i { s with pump := p, channel := deliver s.channel p es }

def workerStep (h : Host) (w : Nat) : Host := { h with site := h.site.step w }

def modify (h : Host) (i : Nat) (f : Session → Session) : Host :=
  match h.sessions[i]? with
  | some s => h.setSession i (f s)
  | none => h

def askStop (h : Host) (i : Nat) : Host := h.modify i fun s => { s with stopAsked := true }

/-- Hands out the stream of a session; only the first caller gets it. -/
def subscribe (h : Host) (i : Nat) : Bool × Host :=
  match h.sessions[i]? with
  | some s => (!s.subscribed, h.setSession i { s with subscribed := true })
  | none => (false, h)

def stateOf (h : Host) (i : Nat) : WorkerState :=
  ((h.sessions[i]?).map (·.pump.published)).getD .idle

def isFinished (h : Host) (i : Nat) : Bool := ((h.sessions[i]?).map (·.pump.isOver)).getD true

end Host
end RigWarden
