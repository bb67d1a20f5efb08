import RigWarden.Number.Binary64

/-!
# Decimals with a fixed number of places

The exact value is rounded, a tie to the even neighbour. A negative number keeps its sign, also
when it rounds to zero.
-/

namespace RigWarden.Number

open Text

/-- A whole number of units of the last place, written with a point before the last `places`. -/
def placePoint (places units : Nat) : Chars :=
  let ds := padded (places + 1) units
  if places = 0 then ds
  else ds.take (ds.length - places) ++ '.' :: ds.drop (ds.length - places)

def fixedUnits (places : Nat) (x : Float) : Nat :=
  let p := parts x
  let (n, d) := scaleTwo p.significand p.exponent
  divNearest (n * Nat.pow 10 places) d

def fixed (places : Nat) (x : Float) : String :=
  if x.isNaN then "NaN"
  else
    let body := if x.isInf then "inf" else .ofList (placePoint places (fixedUnits places x))
    if isNegative x then "-" ++ body else body

end RigWarden.Number
