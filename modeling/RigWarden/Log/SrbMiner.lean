import RigWarden.Log.Sample
import RigWarden.Number.Unsigned

/-!
# Lines of the SRBMiner log

Four tokens are looked for on their own, anywhere in a line and in any case: `hashrate` with a rate
and an optional unit, `accepted`, `rejected`, each after an equals sign or a colon, and `status`
with a quoted text or a word after an equals sign.
-/

namespace RigWarden.Log.SrbMiner

open Text Number

/-- Skips an equals sign or a colon with blanks around it. -/
def assign (cs : Chars) : Option Chars :=
  match skip isBlank cs with
  | '=' :: cs => some (skip isBlank cs)
  | ':' :: cs => some (skip isBlank cs)
  | _ => none

/-- A rate without a unit is in hashes per second. -/
def hashrate : Scanner (Chars × Option Char) := fun cs => do
  let cs ← foldWord ['h', 'a', 's', 'h', 'r', 'a', 't', 'e'] cs
  let cs ← assign cs
  let (value, cs) ← numeral cs
  match unit (skip isBlank cs) with
  | some (scale, cs) => return ((value, scale), cs)
  | none => return ((value, none), cs)

def counter (word : Chars) : Scanner Chars := fun cs => do
  let cs ← foldWord word cs
  let cs ← assign cs
  run1 isDigit cs

def accepted : Scanner Chars := counter ['a', 'c', 'c', 'e', 'p', 't', 'e', 'd']

def rejected : Scanner Chars := counter ['r', 'e', 'j', 'e', 'c', 't', 'e', 'd']

def quoted : Scanner Chars
  | '"' :: cs =>
    match run (· != '"') cs with
    | (found, _ :: rest) => some (found, rest)
    | (_, []) => none
  | _ => none

def status : Scanner Chars := fun cs => do
  let cs ← foldWord ['s', 't', 'a', 't', 'u', 's'] cs
  let cs ← mark '=' (skip isBlank cs)
  match quoted (skip isBlank cs) with
  | some found => some found
  | none => run1 (!isBlank ·) (skip isBlank cs)

def sample (line : Chars) : Sample :=
  { hashrate := (search hashrate line).bind fun h => (decimal? h.1).bind (scaled? · h.2)
    accepted := (search accepted line).bind count?
    rejected := (search rejected line).bind count?
    status := (search status line).map .ofList }

def read (line : Chars) : Option Sample := (sample line).nonEmpty?

end RigWarden.Log.SrbMiner
