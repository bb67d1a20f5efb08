import RigWarden.Peer.Message
import RigWarden.Peer.Slot
import RigWarden.Session.Host

/-!
# A connection

One reader takes the messages of a peer in order. All that takes time is done by tasks: starting a
session, passing its events on, and stopping it. Replies go through a queue of limited length to the
peer. Every step of the reader, of a task, of the queue, of a pump and of a worker is a step of its
own, so a list of steps is one interleaving of all of them.
-/

namespace RigWarden.Peer

inductive Task where
  | starting (profile : Profile) (backend : Backend)
  /-- The start failed; the slot does not know yet. -/
  | failed (e : Error)
  | reporting (e : Error)
  /-- The start succeeded; the slot does not know yet. -/
  | obtained (session : Nat) (backend : Backend)
  /-- The start was cancelled, and its session is being stopped. -/
  | abandoning (session : Nat)
  | awaitingAbandoned (session : Nat)
  | confirming (session : Nat)
  | announcing (session : Nat) (backend : Backend)
  | forwarding (session : Nat)
  | relaying (session : Nat) (e : Event)
  | releasing (session : Nat)
  /-- Nothing is left but to let go of the session. -/
  | dropping (session : Nat)
  | stopping (session : Nat)
  | awaiting (session : Nat)
  | ended
  deriving Inhabited

def Task.session? : Task → Option Nat
  | obtained s _ => some s
  | abandoning s => some s
  | awaitingAbandoned s => some s
  | confirming s => some s
  | announcing s _ => some s
  | forwarding s => some s
  | relaying s _ => some s
  | releasing s => some s
  | dropping s => some s
  | stopping s => some s
  | awaiting s => some s
  | _ => none

/-- The task is a start whose outcome the slot does not know yet. -/
def Task.isStarter : Task → Bool
  | starting _ _ => true
  | failed _ => true
  | obtained _ _ => true
  | _ => false

def Task.isEnded : Task → Bool
  | ended => true
  | _ => false

inductive Reader where
  | reading
  /-- A reply waits for room in the queue. -/
  | replying (r : Reply)
  | leaving
  /-- The reader waits for the task that stops the last session. -/
  | awaiting (task : Nat)
  | closed
  deriving Inhabited

structure Connection where
  host : Host
  slot : Slot := .empty
  reader : Reader := .reading
  /-- Somebody still takes replies from the queue. -/
  sends : Bool := true
  queue : List Reply := []
  received : List Reply := []
  tasks : List Task := []

/-- What a peer does not ask for comes from here. -/
structure Defaults where
  backend : Backend
  profile : Profile

namespace Connection

def queueLimit : Nat := 100

def busy : Reply :=
  .error (some .sessionBusy) "a session is already running or starting on this connection"

def accept (host : Host) (version : String) : Connection :=
  { host := host, received := [.connected version] }

def spawn (c : Connection) (t : Task) : Connection := { c with tasks := c.tasks ++ [t] }

def setTask (c : Connection) (k : Nat) (t : Task) : Connection :=
  { c with tasks := c.tasks.set k t }

/-- Puts a reply into the queue and goes on as `sent`, or as `lost` when nobody takes replies any
more. A full queue leaves everything as it is. -/
def send (c : Connection) (r : Reply) (sent lost : Connection → Connection) : Connection :=
  if !c.sends then lost c
  else if c.queue.length < queueLimit then sent { c with queue := c.queue ++ [r] }
  else c

/-! The reader -/

def takeRequest (c : Connection) (defaults : Defaults) : Option Request → Connection
  | some (.start o) =>
    match c.slot.reserve? with
    | none => { c with reader := .replying busy }
    | some slot =>
      { c with slot := slot }.spawn
        (.starting (o.profile defaults.profile) (o.backend.getD defaults.backend))
  | some .stop =>
    match c.slot.release with
    | (some s, slot) => { c with slot := slot }.spawn (.stopping s)
    | (none, slot) => { c with slot := slot }
  | some (.provisionStatus b) =>
    let b := b.getD defaults.backend
    { c with reader := .replying (.provisionStatus b (c.host.provisionStatus b)) }
  | none => { c with reader := .replying (.error none "Invalid message") }

def takeMessage (c : Connection) (defaults : Defaults) (text : String) : Connection :=
  match c.reader with
  | .reading => c.takeRequest defaults (Request.read? text)
  | _ => c

def disconnect (c : Connection) : Connection :=
  match c.reader with
  | .reading => { c with reader := .leaving }
  | _ => c

def close (c : Connection) : Connection := { c with reader := .closed, sends := false, queue := [] }

def readerStep (c : Connection) : Connection :=
  match c.reader with
  | .replying r =>
    c.send r (fun c => { c with reader := .reading }) (fun c => { c with reader := .reading })
  | .leaving =>
    match c.slot.release with
    | (some s, slot) =>
      { c with slot := slot, reader := .awaiting c.tasks.length }.spawn (.stopping s)
    | (none, slot) => { c with slot := slot }.close
  | .awaiting k =>
    match c.tasks[k]? with
    | some .ended => c.close
    | _ => c
  | _ => c

/-! Tasks -/

/-- Somebody other than task `k` holds the handle of a session. -/
def isHeldElsewhere (c : Connection) (k s : Nat) : Bool :=
  c.slot = .active s || (c.tasks.eraseIdx k).any fun t => t.session? = some s

def takeEvent (c : Connection) (k s : Nat) : Connection :=
  match c.host.sessions[s]? with
  | none => c.setTask k (.releasing s)
  | some session =>
    let (r, channel) := session.channel.receive
    let c := { c with host := c.host.setSession s { session with channel := channel } }
    match r with
    | .event e => c.setTask k (.relaying s e)
    | .empty => c
    | .disconnected => c.setTask k (.releasing s)

/-- A start, with all that it depends on outside. If it is lost its slot is never given back. -/
def start (c : Connection) (m : Machine) (env : ProvisionEnv) (k : Nat) (profile : Profile)
    (b : Backend) : Connection :=
  match c.host.start m env profile b with
  | (.ok s, host) => { c with host := host }.setTask k (.obtained s b)
  | (.error (.error e), host) => { c with host := host }.setTask k (.failed e)
  | (.error .overflow, host) => { c with host := host }.setTask k .ended

def taskStep (c : Connection) (m : Machine) (env : ProvisionEnv) (k : Nat) : Connection :=
  match c.tasks[k]? with
  | none => c
  | some t =>
    let become (t : Task) (c : Connection) : Connection := c.setTask k t
    match t with
    | .starting profile b => c.start m env k profile b
    | .failed e => { c with slot := (c.slot.started none).2 }.setTask k (.reporting e)
    | .reporting e => c.send (.ofError e) (become .ended) (become .ended)
    | .obtained s b =>
      match c.slot.started (some s) with
      | (none, slot) => { c with slot := slot }.setTask k (.announcing s b)
      | (some s, slot) => { c with slot := slot }.setTask k (.abandoning s)
    | .abandoning s => { c with host := c.host.askStop s }.setTask k (.awaitingAbandoned s)
    | .awaitingAbandoned s => if c.host.isFinished s then c.setTask k (.confirming s) else c
    | .confirming _ => c.send (.event (.control .stopped)) (become .ended) (become .ended)
    | .announcing s b =>
      c.send (.sessionStarted ("session-" ++ Number.decimal s) b) (become (.forwarding s))
        (become (.forwarding s))
    | .forwarding s => c.takeEvent k s
    | .relaying s e =>
      c.send (.event e) (become (if e.isTerminal then .releasing s else .forwarding s))
        (become (.releasing s))
    | .releasing s => { c with slot := c.slot.finished s }.setTask k (.dropping s)
    | .dropping s => c.setTask k (if c.isHeldElsewhere k s then .ended else .stopping s)
    | .stopping s => { c with host := c.host.askStop s }.setTask k (.awaiting s)
    | .awaiting s => if c.host.isFinished s then c.setTask k .ended else c
    | .ended => c

/-! Interleavings -/

inductive Step where
  | message (text : String)
  | disconnect
  | reader
  | task (k : Nat) (env : ProvisionEnv)
  | deliver
  | unreachable
  | pump (session : Nat) (now : Instant) (clock : Clock)
  | worker (w : Nat)

def step (m : Machine) (defaults : Defaults) (c : Connection) : Step → Connection
  | .message text => c.takeMessage defaults text
  | .disconnect => c.disconnect
  | .reader => c.readerStep
  | .task k env => c.taskStep m env k
  | .deliver =>
    match c.queue with
    | [] => c
    | r :: rest => { c with queue := rest, received := c.received ++ [r] }
  | .unreachable => { c with sends := false, queue := [] }
  | .pump s now clock => { c with host := c.host.pumpStep m now clock s }
  | .worker w => { c with host := c.host.workerStep w }

def run (m : Machine) (defaults : Defaults) (c : Connection) (steps : List Step) : Connection :=
  steps.foldl (step m defaults) c

@[simp] theorem run_nil (m : Machine) (defaults : Defaults) (c : Connection) :
    run m defaults c [] = c := rfl

theorem run_cons (m : Machine) (defaults : Defaults) (c : Connection) (a : Step)
    (steps : List Step) :
    run m defaults c (a :: steps) = run m defaults (step m defaults c a) steps := rfl

/-- The connection is closed and nothing is left to be done for it. -/
def isOver (c : Connection) : Bool :=
  (match c.reader with
    | .closed => true
    | _ => false) && c.tasks.all Task.isEnded

end Connection
end RigWarden.Peer
