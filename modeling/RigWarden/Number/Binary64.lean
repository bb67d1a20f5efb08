import RigWarden.Number.Unsigned

/-!
# Binary floating point numbers, taken apart

A finite number is a sign and `significand * 2 ^ exponent`. Exact decimal texts are computed from
these in integers.
-/

namespace RigWarden.Number

open Text

structure Parts where
  negative : Bool
  significand : Nat
  exponent : Int
  deriving Repr, DecidableEq

def bitsOf (x : Float) : Nat := x.toBits.toNat

/-- The bit above those of the fraction, which every normal number has without writing it. -/
def hidden : Nat := 0x10000000000000

def isNegative (x : Float) : Bool := limit63 ≤ bitsOf x

/-- The parts of a finite number; those of infinities and NaN mean nothing. -/
def parts (x : Float) : Parts :=
  let bits := bitsOf x
  let biased : Nat := bits / hidden % 2048
  let fraction : Nat := bits % hidden
  if biased = 0 then ⟨isNegative x, fraction, -1074⟩
  else ⟨isNegative x, fraction + hidden, (biased : Int) - 1075⟩

/-- `n / d` rounded to the nearest integer, a tie to the even one. -/
def divNearest (n d : Nat) : Nat :=
  let q := n / d
  let r := n % d
  if 2 * r < d then q
  else if d < 2 * r then q + 1
  else if q % 2 = 0 then q else q + 1

/-- A natural number times a power of two, as a fraction. -/
def scaleTwo (n : Nat) (e : Int) : Nat × Nat :=
  if 0 ≤ e then (n * Nat.pow 2 e.toNat, 1) else (n, Nat.pow 2 (-e).toNat)

/-- The number that decimal digits denote with `places` of them after the point. -/
def ofDecimal (digits places : Nat) : Float := Float.ofScientific digits true places

/-- Reads digits with at most one point among them and at least one digit. -/
def decimal? (cs : Chars) : Option Float :=
  let whole := cs.takeWhile (· != '.')
  let tail := cs.drop (whole.length + 1)
  if (whole ++ tail) ≠ [] ∧ (whole ++ tail).all isAsciiDigit then
    some (ofDecimal (ofDigits (whole ++ tail)) tail.length)
  else none

end RigWarden.Number
