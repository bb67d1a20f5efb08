import RigWarden.Number.Binary64

/-!
# Shortest decimals that read back

Of all decimals that round to a given number, the one with the fewest digits, and of those the
nearest. For one digit, two digits and so on the two neighbours of the number on that decimal grid
are tested; if a point of a grid lies in the rounding interval, one of these does.
-/

namespace RigWarden.Number

open Text

/-- `digits * 10 ^ exponent`. -/
structure Decimal where
  digits : Nat
  exponent : Int
  deriving Repr, DecidableEq

/-- The interval that rounds to a number, with the number itself, in units of `2 ^ exponent`. -/
structure Rounding where
  low : Nat
  value : Nat
  high : Nat
  exponent : Int
  closed : Bool

/-- Neighbours lie a unit of the significand away; below a power of two, half of that. -/
def Rounding.of (p : Parts) : Rounding :=
  let v := 4 * p.significand
  let down := if p.significand = hidden ∧ -1074 < p.exponent then 1 else 2
  ⟨v - down, v, v + 2, p.exponent - 2, p.significand % 2 = 0⟩

/-- Compares `c * 10 ^ k` with `n * 2 ^ e`. -/
def compareGrid (c : Nat) (k : Int) (n : Nat) (e : Int) : Ordering :=
  let left := c * Nat.pow 10 k.toNat * Nat.pow 2 (-e).toNat
  let right := n * Nat.pow 2 e.toNat * Nat.pow 10 (-k).toNat
  compare left right

def Rounding.holds (r : Rounding) (c : Nat) (k : Int) : Bool :=
  let low := compareGrid c k r.low r.exponent
  let high := compareGrid c k r.high r.exponent
  if r.closed then low != .lt && high != .gt else low == .gt && high == .lt

/-- The greatest `c` with `c * 10 ^ k` not above the value. -/
def Rounding.floor (r : Rounding) (k : Int) : Nat :=
  (r.value * Nat.pow 2 r.exponent.toNat * Nat.pow 10 (-k).toNat)
    / (Nat.pow 2 (-r.exponent).toNat * Nat.pow 10 k.toNat)

/-- The power of ten of the first digit of the value. -/
def Rounding.magnitude (r : Rounding) : Int :=
  ((digits (r.floor (-400))).length : Int) - 401

/-- Twice the value lies nearer to `c` than to `c + 1`, or as near. -/
def Rounding.prefersLower (r : Rounding) (c : Nat) (k : Int) : Bool :=
  match compareGrid (2 * c + 1) k (2 * r.value) r.exponent with
  | .gt => true
  | .lt => false
  | .eq => c % 2 = 0

def Rounding.onGrid (r : Rounding) (k : Int) : Option Nat :=
  let c := r.floor k
  match r.holds c k && c != 0, r.holds (c + 1) k with
  | true, true => some (if r.prefersLower c k then c else c + 1)
  | true, false => some c
  | false, true => some (c + 1)
  | false, false => none

/-- Tries the grids from `k` downwards. -/
def Rounding.search (r : Rounding) : (tries : Nat) → (k : Int) → Decimal
  | 0, k => ⟨r.floor k, k⟩
  | tries + 1, k =>
    match r.onGrid k with
    | some c => ⟨c, k⟩
    | none => r.search tries (k - 1)

def Decimal.strip : (tries : Nat) → Decimal → Decimal
  | 0, d => d
  | tries + 1, d =>
    if d.digits ≠ 0 ∧ d.digits % 10 = 0 then strip tries ⟨d.digits / 10, d.exponent + 1⟩ else d

def shortest (x : Float) : Decimal :=
  let p := parts x
  if p.significand = 0 then ⟨0, 0⟩
  else
    let r := Rounding.of p
    Decimal.strip 20 (r.search 17 r.magnitude)

/-- The digits with a point, and zeros where they are needed; a whole number gets `.0`. -/
def Decimal.positional (d : Decimal) : Chars :=
  let ds := Number.digits d.digits
  if 0 ≤ d.exponent then ds ++ List.replicate d.exponent.toNat '0' ++ ['.', '0']
  else
    let places := (-d.exponent).toNat
    placePointIn places ds
where
  placePointIn (places : Nat) (ds : Chars) : Chars :=
    let ds := List.replicate (places + 1 - ds.length) '0' ++ ds
    ds.take (ds.length - places) ++ '.' :: ds.drop (ds.length - places)

def Decimal.scientific (d : Decimal) : Chars :=
  let ds := Number.digits d.digits
  let e := d.exponent + (ds.length : Int) - 1
  let mantissa := match ds with
    | [] => []
    | [c] => [c]
    | c :: rest => c :: '.' :: rest
  mantissa ++ 'e' :: (if 0 ≤ e then '+' else '-') :: Number.digits e.natAbs

/-- Places of the point, counted from the first digit, at which a number is written positionally. -/
structure PointRange where
  above : Int
  upTo : Int

def Decimal.layout (range : Option PointRange) (d : Decimal) : Chars :=
  match range with
  | none => d.positional
  | some range =>
    let point := d.exponent + ((Number.digits d.digits).length : Int)
    if d.digits = 0 ∨ (range.above < point ∧ point ≤ range.upTo) then d.positional
    else d.scientific

def shortestText (range : Option PointRange) (x : Float) : String :=
  let body := String.ofList ((shortest x).layout range)
  if isNegative x then "-" ++ body else body

end RigWarden.Number
