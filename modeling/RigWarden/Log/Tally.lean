import RigWarden.Event.Basic
import RigWarden.Log.Line

/-!
# Cumulative readings

Each worker counts its shares from zero. The tally adds the largest counters of every worker to the
totals of those before it, so what it reports never goes down.
-/

namespace RigWarden.Log

open Text

structure Tally where
  hashrate : Float := 0
  accepted : Nat := 0
  rejected : Nat := 0
  baseAccepted : Nat := 0
  baseRejected : Nat := 0
  deriving Inhabited

namespace Tally

/-- A rate that is not above zero counts as zero. -/
def atLeastZero (x : Float) : Float := if 0 < x then x else 0

/-- Raises a total to what a worker reports on top of the base. -/
def raise (total base : Nat) : Option Nat → Nat
  | none => total
  | some n => max total (base + n)

def add (t : Tally) (s : Sample) : Tally :=
  { t with
    hashrate := (s.hashrate.map atLeastZero).getD t.hashrate
    accepted := raise t.accepted t.baseAccepted s.accepted
    rejected := raise t.rejected t.baseRejected s.rejected }

def reading (t : Tally) (now : Instant) (status : Option String) : Reading :=
  ⟨now, t.hashrate, t.accepted, t.rejected, status⟩

/-- Adds a line. Only a line that says something gives a reading. -/
def ingest (b : Backend) (now : Instant) (t : Tally) (line : Chars) : Option Reading × Tally :=
  match b.readLine line with
  | none => (none, t)
  | some s => (some ((t.add s).reading now s.status), t.add s)

def ingestAll (b : Backend) (now : Instant) (t : Tally) : List Chars → List Reading × Tally
  | [] => ([], t)
  | line :: lines =>
    let (r, t) := t.ingest b now line
    let (rs, t) := t.ingestAll b now lines
    (r.toList ++ rs, t)

def restarted (t : Tally) : Tally :=
  { t with baseAccepted := t.accepted, baseRejected := t.rejected, hashrate := 0 }

def totals (t : Tally) : Nat × Nat := (t.accepted, t.rejected)

@[simp] theorem totals_restarted (t : Tally) : t.restarted.totals = t.totals := rfl

@[simp] theorem ingestAll_nil (b : Backend) (now : Instant) (t : Tally) :
    t.ingestAll b now [] = ([], t) := rfl

end Tally
end RigWarden.Log
