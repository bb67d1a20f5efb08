import RigWarden.Number.Binary64

/-!
# The size of decimal numerals

A numeral is read digit by digit into a word of 64 bits. When a digit of the whole part does not fit
any more, it and those after it only count towards the power of ten; such digits of the fraction are
passed over. The number is the word times the power, both rounded to binary floating point first,
and it has to be finite. A whole number that fits the word needs no rounding.
-/

namespace RigWarden.Number

open Text

/-- The nearest number with 53 binary digits, a tie to the even one. -/
def nearest (n : Nat) : Nat :=
  let unit := Nat.pow 2 (n.log2 - 52)
  divNearest n unit * unit

/-- Numbers from here on round to infinity. -/
def overflowBound : Nat := Nat.pow 2 1024 - Nat.pow 2 970

namespace Numeral

/-- The digits read so far, and the power of ten that they count. -/
structure Scaled where
  significand : Nat
  exponent : Int
  deriving Repr, DecidableEq

def Scaled.whole (s : Scaled) : Chars → Scaled
  | [] => s
  | c :: cs =>
    let next := s.significand * 10 + digitValue c
    if next < limit64 then Scaled.whole { s with significand := next } cs
    else { s with exponent := s.exponent + (cs.length + 1) }

def Scaled.fraction (s : Scaled) : Chars → Scaled
  | [] => s
  | c :: cs =>
    let next := s.significand * 10 + digitValue c
    if next < limit64 then Scaled.fraction ⟨next, s.exponent - 1⟩ cs else s

/-- Powers of ten up to this one are known. -/
def maxPower : Nat := 308

def Scaled.isFinite (s : Scaled) : Bool :=
  s.exponent < 0 || s.significand = 0 ||
    (s.exponent ≤ maxPower &&
      nearest s.significand * nearest (Nat.pow 10 s.exponent.toNat) < overflowBound)

def powerOf (cs : Chars) : Int :=
  match cs with
  | '-' :: ds => -(ofDigits ds : Int)
  | '+' :: ds => ofDigits ds
  | ds => ofDigits ds

def hasValue (cs : Chars) : Bool :=
  let cs := match cs with
    | '-' :: cs => cs
    | cs => cs
  let whole := cs.takeWhile isAsciiDigit
  let tail := cs.drop whole.length
  let scaled := Scaled.whole ⟨0, 0⟩ whole
  match tail with
  | '.' :: tail =>
    let fraction := tail.takeWhile isAsciiDigit
    let scaled := scaled.fraction fraction
    { scaled with
      exponent := scaled.exponent + powerOf (tail.drop (fraction.length + 1)) }.isFinite
  | [] => scaled.isFinite
  | _ :: power => { scaled with exponent := scaled.exponent + powerOf power }.isFinite

end Numeral
end RigWarden.Number
