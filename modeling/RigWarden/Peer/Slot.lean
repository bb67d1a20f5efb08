/-!
# The slot of a connection

A connection drives one session at a time. Its slot is taken from the moment a start is asked for; a
stop that comes while the start is under way is kept in the slot, and the starter finds it there.
-/

namespace RigWarden.Peer

inductive Slot where
  | empty
  | starting
  /-- A start is under way, and what it starts has to be stopped. -/
  | cancelled
  | active (session : Nat)
  deriving Repr, DecidableEq, Inhabited

namespace Slot

def reserve? : Slot → Option Slot
  | empty => some starting
  | _ => none

/-- Gives the slot up, with the session that has to be stopped. -/
def release : Slot → Option Nat × Slot
  | empty => (none, empty)
  | starting => (none, cancelled)
  | cancelled => (none, cancelled)
  | active s => (some s, empty)

/-- Takes in the outcome of a start, and gives the session back that must not go on. -/
def started (outcome : Option Nat) : Slot → Option Nat × Slot
  | starting =>
    match outcome with
    | some s => (none, active s)
    | none => (none, empty)
  | _ => (outcome, empty)

/-- The slot after the end of a session: only its own session empties it. -/
def finished (session : Nat) (slot : Slot) : Slot := if slot = active session then empty else slot

def isPending : Slot → Bool
  | starting => true
  | cancelled => true
  | _ => false

@[simp] theorem reserve?_eq_some_iff {slot next : Slot} :
    slot.reserve? = some next ↔ slot = empty ∧ next = starting := by
  cases slot <;> simp [reserve?, eq_comm]

@[simp] theorem finished_active (s : Nat) : (active s).finished s = empty := by simp [finished]

theorem finished_of_ne {slot : Slot} {s : Nat} (h : slot ≠ active s) : slot.finished s = slot := by
  simp [finished, h]

end Slot
end RigWarden.Peer
