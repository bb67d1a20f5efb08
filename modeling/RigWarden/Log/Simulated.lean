import RigWarden.Log.Sample
import RigWarden.Number.Unsigned

/-!
# Lines of the simulator's log

A line may carry `speed:` with a rate and its unit, and `accepted=a rejected=r`.
-/

namespace RigWarden.Log.Simulated

open Text Number

def speed : Scanner (Chars × Option Char) := fun cs => do
  let cs ← foldWord ['s', 'p', 'e', 'e', 'd', ':'] cs
  let (value, cs) ← numeral (skip isBlank cs)
  let (scale, cs) ← unit (skip isBlank cs)
  return ((value, scale), cs)

def counters : Scanner (Chars × Chars) := fun cs => do
  let cs ← dropStart? ['a', 'c', 'c', 'e', 'p', 't', 'e', 'd', '='] cs
  let (accepted, cs) ← run1 isDigit cs
  let cs ← skip1 isBlank cs
  let cs ← dropStart? ['r', 'e', 'j', 'e', 'c', 't', 'e', 'd', '='] cs
  let (rejected, cs) ← run1 isDigit cs
  return ((accepted, rejected), cs)

def sample (line : Chars) : Sample :=
  let found := search counters line
  { hashrate := (search speed line).bind fun h => (decimal? h.1).bind (scaled? · h.2)
    accepted := found.bind fun c => count? c.1
    rejected := found.bind fun c => count? c.2 }

def read (line : Chars) : Option Sample := (sample line).nonEmpty?

end RigWarden.Log.Simulated
