import RigWarden.Number.Binary64
import RigWarden.Text.Scan

/-!
# What one log line says

A sample holds the values that a line carries; a line without any gives no sample. Hash rates come
with a unit: hashes per second, or thousands, millions or billions of them.
-/

namespace RigWarden.Log

open Text Number

structure Sample where
  hashrate : Option Float := none
  accepted : Option Nat := none
  rejected : Option Nat := none
  status : Option String := none
  deriving Inhabited

namespace Sample

def isEmpty (s : Sample) : Bool :=
  s.hashrate.isNone && s.accepted.isNone && s.rejected.isNone && s.status.isNone

def nonEmpty? (s : Sample) : Option Sample := if s.isEmpty then none else some s

theorem nonEmpty?_eq_some_iff (s t : Sample) :
    s.nonEmpty? = some t ↔ s.isEmpty = false ∧ s = t := by
  cases h : s.isEmpty <;> simp [nonEmpty?, h]

end Sample

def isScale (c : Char) : Bool := foldsTo 'k' c || foldsTo 'm' c || foldsTo 'g' c

/-- Reads `h/s` with at most one scale in front, in any case. -/
def unit : Scanner (Option Char)
  | [] => none
  | c :: cs =>
    if isScale c then (foldWord ['h', '/', 's'] cs).map fun rest => (some c, rest)
    else (foldWord ['h', '/', 's'] (c :: cs)).map fun rest => (none, rest)

/-- The factor of a scale. The Kelvin sign reads as a scale but has no factor. -/
def factor? : Option Char → Option Float
  | none => some 1
  | some c =>
    match lower c with
    | 'k' => some 1000
    | 'm' => some 1000000
    | 'g' => some 1000000000
    | _ => none

def scaled? (value : Float) (scale : Option Char) : Option Float :=
  if !value.isFinite || value < 0 then none else (factor? scale).map (value * ·)

/-- A rate in hashes per second from its value and the text of its unit. -/
def scaleHashrate (value : Float) (unitText : String) : Option Float :=
  match unit (trimChars unitText.toList) with
  | some (scale, []) => scaled? value scale
  | _ => none

def numeral : Scanner Chars := fun cs => do
  let (whole, rest) ← run1 isAsciiDigit cs
  match rest with
  | '.' :: tail =>
    match run1 isAsciiDigit tail with
    | some (fraction, rest) => some (whole ++ '.' :: fraction, rest)
    | none => some (whole, rest)
  | _ => some (whole, rest)

def mark (c : Char) (cs : Chars) : Option Chars := dropStart? [c] cs

end RigWarden.Log
