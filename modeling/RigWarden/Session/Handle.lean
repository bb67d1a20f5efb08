import RigWarden.Session.Pump

/-!
# Handles

The handle of a session is shared by any number of threads. To stop a session is to drop the sender
of its stop channel, to take the pump's thread and to wait for its end; each is a step of its own,
with the steps of others in between. Whoever finds the thread taken goes on at once.
-/

namespace RigWarden

structure Handle where
  /-- The loss of the sender asks the pump to stop. -/
  hasSender : Bool := true
  hasThread : Bool := true
  deriving Repr, DecidableEq, Inhabited

inductive HandleCall where
  | stopping
  | taking
  | joining
  | stopped
  | asking
  | answered (finished : Bool)
  deriving Repr, DecidableEq, Inhabited

def HandleCall.step (c : HandleCall) (h : Handle) (isOver : Bool) : HandleCall × Handle :=
  match c with
  | .stopping => (.taking, { h with hasSender := false })
  | .taking => if h.hasThread then (.joining, { h with hasThread := false }) else (.stopped, h)
  | .joining => (if isOver then .stopped else .joining, h)
  | .stopped => (.stopped, h)
  | .asking => (.answered (!h.hasThread || isOver), h)
  | .answered finished => (.answered finished, h)

/-- The call has told its thread that the session is over. -/
def HandleCall.saysOver : HandleCall → Bool
  | .stopped => true
  | .answered finished => finished
  | _ => false

/-- A pump with its handle and the threads that call on it. -/
structure SharedSession where
  pump : Pump
  handle : Handle := {}
  sent : List Event := []
  calls : List HandleCall := []

namespace SharedSession

inductive Step where
  /-- The pump makes a step; a wait of it ends early exactly when the sender is gone. -/
  | pump (o : Observation)
  | callStop
  | callIsFinished
  | goOn (call : Nat)

def step (s : SharedSession) : Step → SharedSession
  | .pump o =>
    let (p, es) := s.pump.step { o with stopAsked := !s.handle.hasSender }
    { s with pump := p, sent := s.sent ++ es }
  | .callStop => { s with calls := s.calls ++ [.stopping] }
  | .callIsFinished => { s with calls := s.calls ++ [.asking] }
  | .goOn k =>
    match s.calls[k]? with
    | none => s
    | some c =>
      let (c, h) := c.step s.handle s.pump.isOver
      { s with handle := h, calls := s.calls.set k c }

def run (s : SharedSession) (steps : List Step) : SharedSession := steps.foldl step s

@[simp] theorem run_nil (s : SharedSession) : s.run [] = s := rfl

theorem run_cons (s : SharedSession) (a : Step) (steps : List Step) :
    s.run (a :: steps) = (s.step a).run steps := rfl

end SharedSession
end RigWarden
