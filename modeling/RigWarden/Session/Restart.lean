import RigWarden.Time.Duration

/-!
# Restarting a crashed worker

A policy bounds the number of restarts. The wait before a restart doubles with each attempt and
never exceeds five minutes.
-/

namespace RigWarden

structure RestartPolicy where
  maxRestarts : Nat := 0
  initialBackoff : Duration := ⟨2, 0⟩
  deriving Repr, DecidableEq, Inhabited

namespace RestartPolicy

def maxBackoff : Duration := .ofSecs 300

/-- Doubled once per attempt after the first, within 32 bits. -/
def factor (attempt : Nat) : Nat :=
  if attempt ≤ 32 then Nat.pow 2 (attempt - 1) else Number.limit32 - 1

def backoff (p : RestartPolicy) (attempt : Nat) : Duration :=
  ((p.initialBackoff.mul? (factor attempt)).getD maxBackoff).min maxBackoff

end RestartPolicy
end RigWarden
