import RigWarden.Number.Width

/-!
# Durations and deadlines

A duration is a number of whole seconds and the nanoseconds on top. A clock reading holds a signed
64-bit number of seconds, so a deadline far enough away does not exist.
-/

namespace RigWarden

structure Duration where
  secs : Nat
  nanos : Nat
  deriving Repr, DecidableEq, Inhabited

namespace Duration

def perSecond : Nat := 1000000000

def ofSecs (n : Nat) : Duration := ⟨n, 0⟩

def ofMillis (n : Nat) : Duration := ⟨n / 1000, n % 1000 * 1000000⟩

def total (d : Duration) : Nat := d.secs * perSecond + d.nanos

def ofTotal (n : Nat) : Duration := ⟨n / perSecond, n % perSecond⟩

def zero : Duration := ⟨0, 0⟩

/-- The product, as long as its seconds fit 64 bits. -/
def mul? (d : Duration) (n : Nat) : Option Duration :=
  let product := ofTotal (d.total * n)
  if product.secs < Number.limit64 then some product else none

def min (a b : Duration) : Duration := if a.total ≤ b.total then a else b

@[simp] theorem total_ofSecs (n : Nat) : (ofSecs n).total = n * perSecond := by
  simp [ofSecs, total]

theorem total_ofTotal (n : Nat) : (ofTotal n).total = n := by
  simp only [ofTotal, total]
  exact Nat.div_add_mod' n perSecond

end Duration

/-- A reading of a clock that never goes back. -/
structure Clock where
  secs : Nat
  nanos : Nat
  deriving Repr, DecidableEq, Inhabited

namespace Clock

def total (c : Clock) : Nat := c.secs * Duration.perSecond + c.nanos

/-- The reading after a duration, if the clock can show it. -/
def add? (c : Clock) (d : Duration) : Option Clock :=
  let sum := Duration.ofTotal (c.total + d.total)
  if sum.secs < Number.limit63 then some ⟨sum.secs, sum.nanos⟩ else none

def reached (now deadline : Clock) : Bool := deadline.total ≤ now.total

theorem add?_eq_none_iff (c : Clock) (d : Duration) :
    c.add? d = none ↔ Number.limit63 ≤ (c.total + d.total) / Duration.perSecond := by
  show (if (c.total + d.total) / Duration.perSecond < Number.limit63 then _ else none) = none ↔ _
  split
  next h => exact ⟨nofun, fun le => absurd h (Nat.not_lt.2 le)⟩
  next h => exact ⟨fun _ => Nat.le_of_not_lt h, fun _ => rfl⟩

end Clock
end RigWarden
