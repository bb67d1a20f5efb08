import RigWarden.Event.Basic

/-!
# A bounded channel of events

One sink offers events and one stream takes them. When the queue is full the sink pulls everything
out, gives up the oldest reading and puts the rest back with the new event at the end; a control
event that finds only control events waits until there is room or its time is over.

The sink works in small steps, so that the stream may take events between any two of them. The sink
also owns a receiving end of its own, which it needs to pull events out.
-/

namespace RigWarden

inductive Sending where
  | idle
  | offering (e : Event)
  | pulling (e : Event) (pulled : List Event)
  | refilling (rest : List Event)
  | waiting (e : Event) (rest : List Event)
  deriving Inhabited

structure Channel where
  capacity : Nat
  capacity_pos : 0 < capacity
  queue : List Event
  dropped : Nat
  sending : Sending
  sinkOpen : Bool
  streamOpen : Bool

inductive Received where
  | event (e : Event)
  | empty
  | disconnected

namespace Channel

def new (capacity : Nat) : Channel :=
  { capacity := max capacity 1
    capacity_pos := Nat.lt_of_lt_of_le Nat.zero_lt_one (Nat.le_max_right capacity 1)
    queue := []
    dropped := 0
    sending := .idle
    sinkOpen := true
    streamOpen := true }

instance : Inhabited Channel := ⟨new 1⟩

/-- The sink's own end counts as long as the sink is open. -/
def receivingEnds (c : Channel) : Nat :=
  (if c.sinkOpen then 1 else 0) + (if c.streamOpen then 1 else 0)

def hasRoom (c : Channel) : Bool := c.queue.length < c.capacity

def push (c : Channel) (e : Event) : Channel := { c with queue := c.queue ++ [e] }

def dropOldest (es : List Event) : List Event := es.eraseP Event.isMetrics

/-- What is put back for a new event, and how many readings are given up. -/
def makeRoom (pulled : List Event) (e : Event) : List Event × Nat :=
  if pulled.any Event.isMetrics then (dropOldest pulled ++ [e], 1)
  else if e.isMetrics then (pulled, 1)
  else (pulled ++ [e], 0)

/-- One step of the sink. Waiting ends only when there is room. -/
def step (c : Channel) : Channel :=
  match c.sending with
  | .idle => c
  | .offering e =>
    if c.receivingEnds = 0 then { c with sending := .idle }
    else if c.hasRoom then { c.push e with sending := .idle }
    else { c with sending := .pulling e [] }
  | .pulling e pulled =>
    match c.queue with
    | first :: queue => { c with queue := queue, sending := .pulling e (pulled ++ [first]) }
    | [] =>
      let (rest, lost) := makeRoom pulled e
      { c with dropped := c.dropped + lost, sending := .refilling rest }
  | .refilling [] => { c with sending := .idle }
  | .refilling (e :: rest) =>
    if c.hasRoom then { c.push e with sending := .refilling rest }
    else { c with sending := .waiting e rest }
  | .waiting e rest =>
    if c.hasRoom then { c.push e with sending := .refilling rest } else c

def offer (c : Channel) (e : Event) : Channel := { c with sending := .offering e }

/-- The time of a waiting event is over and it is lost. -/
def expire (c : Channel) : Channel :=
  match c.sending with
  | .waiting _ rest => { c with sending := .refilling rest }
  | _ => c

def steps : Nat → Channel → Channel
  | 0, c => c
  | n + 1, c => steps n c.step

/-- Enough steps to pull out and put back all of the queue and one more event. -/
def settle (c : Channel) : Channel := c.steps (2 * c.queue.length + 6)

def send (c : Channel) (e : Event) : Channel := (c.offer e).settle.expire.settle

def sendAll (c : Channel) (es : List Event) : Channel := es.foldl send c

def receive (c : Channel) : Received × Channel :=
  match c.queue with
  | e :: queue => (.event e, { c with queue := queue })
  | [] => (if c.sinkOpen then .empty else .disconnected, c)

def takeAll (c : Channel) : List Event × Channel := (c.queue, { c with queue := [] })

def closeSink (c : Channel) : Channel := { c with sinkOpen := false, sending := .idle }

def closeStream (c : Channel) : Channel := { c with streamOpen := false }

@[simp] theorem steps_zero (c : Channel) : c.steps 0 = c := rfl

theorem steps_succ (n : Nat) (c : Channel) : c.steps (n + 1) = c.step.steps n := rfl

theorem steps_idle (n : Nat) {c : Channel} (h : c.sending = .idle) : c.steps n = c := by
  induction n with
  | zero => rfl
  | succ n ih => rw [steps_succ, step, h]; exact ih

end Channel
end RigWarden
