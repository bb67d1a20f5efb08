import RigWarden.Number.Width
import RigWarden.Text.Trim

/-!
# Unsigned numerals

ASCII digits, at least one, with an optional plus sign in front, below a bound.
-/

namespace RigWarden.Number

open Text

def digitValue (c : Char) : Nat := c.toNat - 48

def ofDigits (cs : Chars) : Nat := cs.foldl (fun n c => n * 10 + digitValue c) 0

def digits (n : Nat) : Chars := Nat.toDigits 10 n

def decimal (n : Nat) : String := .ofList (digits n)

def signed (i : Int) : String :=
  if i < 0 then "-" ++ decimal i.natAbs else decimal i.natAbs

/-- Digits written at least `width` wide, with zeros in front. -/
def padded (width n : Nat) : Chars :=
  let ds := digits n
  List.replicate (width - ds.length) '0' ++ ds

def unsigned? (bound : Nat) (cs : Chars) : Option Nat :=
  let ds := match cs with
    | '+' :: rest => rest
    | cs => cs
  if ds ≠ [] ∧ ds.all isAsciiDigit ∧ ofDigits ds < bound then some (ofDigits ds) else none

def count? (cs : Chars) : Option Nat := unsigned? limit64 cs

@[simp] theorem unsigned?_nil (bound : Nat) : unsigned? bound [] = none := by simp [unsigned?]

end RigWarden.Number
