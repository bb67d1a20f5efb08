import RigWarden.Json.Reader
import RigWarden.Number.Binary64
import RigWarden.Toml.Basic

/-!
# TOML scalars

Numbers, booleans and dates are words; the word alone decides what it is. Digits may be parted by
single underscores. Integers fit 64 bits with sign.
-/

namespace RigWarden.Toml

open Text Number

/-- Removes underscores that stand between two digits of a class; none may stand elsewhere. -/
def joinDigits (isDigit : Char → Bool) : Chars → Option Chars
  | [] => none
  | [c] => if isDigit c then some [c] else none
  | c :: '_' :: rest => if isDigit c then (joinDigits isDigit rest).map (c :: ·) else none
  | c :: rest => if isDigit c then (joinDigits isDigit rest).map (c :: ·) else none

/-- A sign in front: whether it is a minus, and the rest. -/
def splitSign : Chars → Bool × Chars
  | '-' :: cs => (true, cs)
  | '+' :: cs => (false, cs)
  | cs => (false, cs)

def whole? (cs : Chars) : Option Chars :=
  match joinDigits isAsciiDigit cs with
  | some ['0'] => some ['0']
  | some ('0' :: _) => none
  | ds => ds

def inRange (i : Int) : Option Int := if -limit63 ≤ i ∧ i < limit63 then some i else none

def hexDigits (cs : Chars) : Option Chars :=
  joinDigits (fun c => (Json.hexValue? c).isSome) cs

def below (base : Nat) (c : Char) : Bool := isAsciiDigit c && digitValue c < base

def inBase (base : Nat) (cs : Chars) : Nat :=
  cs.foldl (fun n c => n * base + (Json.hexValue? c).getD 0) 0

def integer? (cs : Chars) : Option Int :=
  match cs with
  | '0' :: 'x' :: rest => (hexDigits rest).bind fun ds => inRange (inBase 16 ds)
  | '0' :: 'o' :: rest => (joinDigits (below 8) rest).bind fun ds => inRange (inBase 8 ds)
  | '0' :: 'b' :: rest => (joinDigits (below 2) rest).bind fun ds => inRange (inBase 2 ds)
  | cs =>
    let (negative, ds) := splitSign cs
    (whole? ds).bind fun ds =>
      inRange (if negative then -(ofDigits ds : Int) else (ofDigits ds : Int))

def infinity : Float := 1.0 / 0.0

def floatOf? (negative : Bool) (whole fraction : Chars) (power : Int) : Option Float :=
  let digits := ofDigits (whole ++ fraction)
  let shift := power - fraction.length
  let x :=
    if digits = 0 then 0.0
    else if 100000 < shift then infinity
    else if shift < -100000 then 0.0
    else Float.ofScientific digits (shift < 0) shift.natAbs
  if negative then some (-x) else if x == infinity then none else some x

def power? (cs : Chars) : Option Int :=
  let (negative, ds) := splitSign cs
  (joinDigits isAsciiDigit ds).map fun ds =>
    if negative then -(ofDigits ds : Int) else (ofDigits ds : Int)

def isPowerMark (c : Char) : Bool := c == 'e' || c == 'E'

def float? (cs : Chars) : Option Float :=
  let (negative, body) := splitSign cs
  if body = "inf".toList then some (if negative then -infinity else infinity)
  else
    let mantissa := body.takeWhile fun c => !isPowerMark c
    let power := body.drop mantissa.length
    let whole := mantissa.takeWhile (· != '.')
    let fraction := mantissa.drop whole.length
    if power = [] ∧ fraction = [] then none
    else do
      let whole ← whole? whole
      let fraction ← match fraction with
        | [] => some []
        | _ :: ds => joinDigits isAsciiDigit ds
      let power ← match power with
        | [] => some 0
        | _ :: cs => power? cs
      floatOf? negative whole fraction power

/-- A number with exactly `n` digits up to a limit, and the rest. -/
def field? (n low high : Nat) (cs : Chars) : Option (Nat × Chars) :=
  let ds := cs.take n
  if ds.length = n ∧ ds.all isAsciiDigit ∧ low ≤ ofDigits ds ∧ ofDigits ds ≤ high then
    some (ofDigits ds, cs.drop n)
  else none

def expect (c : Char) (cs : Chars) : Option Chars := dropStart? [c] cs

def daysIn (year month : Nat) : Nat :=
  if month = 2 then
    if year % 4 = 0 ∧ (year % 100 ≠ 0 ∨ year % 400 = 0) then 29 else 28
  else if month = 4 ∨ month = 6 ∨ month = 9 ∨ month = 11 then 30 else 31

def date? (cs : Chars) : Option Chars := do
  let (year, cs) ← field? 4 0 9999 cs
  let cs ← expect '-' cs
  let (month, cs) ← field? 2 1 12 cs
  let cs ← expect '-' cs
  let (_, cs) ← field? 2 1 (daysIn year month) cs
  return cs

def time? (cs : Chars) : Option Chars := do
  let (_, cs) ← field? 2 0 23 cs
  let cs ← expect ':' cs
  let (_, cs) ← field? 2 0 59 cs
  let cs ← expect ':' cs
  let (_, cs) ← field? 2 0 60 cs
  match cs with
  | '.' :: rest =>
    match rest.takeWhile isAsciiDigit with
    | [] => none
    | ds => some (rest.drop ds.length)
  | cs => some cs

/-- Reads an offset from universal time, which may be missing. -/
def offset? : Chars → Option Chars
  | 'Z' :: cs => some cs
  | 'z' :: cs => some cs
  | [] => some []
  | sign :: cs =>
    if sign = '+' ∨ sign = '-' then do
      let (_, cs) ← field? 2 0 23 cs
      let cs ← expect ':' cs
      let (_, cs) ← field? 2 0 59 cs
      return cs
    else none

def isDatetime (cs : Chars) : Bool :=
  match date? cs with
  | some [] => true
  | some (separator :: rest) =>
    (separator = 'T' || separator = 't' || separator = ' ') &&
      ((time? rest).bind offset?) == some []
  | none => time? cs == some []

/-- The sign of what is not a number. -/
def nan? (cs : Chars) : Option Bool :=
  let (negative, body) := splitSign cs
  if body = "nan".toList then some negative else none

def word? (cs : Chars) : Option Value :=
  if cs = "true".toList then some (.boolean true)
  else if cs = "false".toList then some (.boolean false)
  else match integer? cs, float? cs, nan? cs with
    | some i, _, _ => some (.integer i)
    | none, some x, _ => some (.float x)
    | none, none, some negative => some (.nan negative)
    | none, none, none => if isDatetime cs then some (.datetime (.ofList cs)) else none

end RigWarden.Toml
