import RigWarden.Log.Sample
import RigWarden.Number.Unsigned

/-!
# Lines of the XMRig log

Three kinds of text are looked for anywhere in a line: `speed 10s/60s/15m a b c H/s` with a rate or
`n/a` per window, `accepted (a/r)` or `rejected (a/r)` with a quoted reason further on, and
`use pool address`.
-/

namespace RigWarden.Log.Xmrig

open Text Number

/-- The rate of one window; `n/a` reads as an empty numeral. -/
def window : Scanner Chars := fun cs =>
  match foldWord ['n', '/', 'a'] cs with
  | some rest => some ([], rest)
  | none => run1 (fun c => isAsciiDigit c || c == '.') cs

structure Speed where
  windows : List Chars
  scale : Option Char

def speed : Scanner Speed := fun cs => do
  let cs ← foldWord ['s', 'p', 'e', 'e', 'd'] cs
  let cs ← skip1 isBlank cs
  let cs ← skip1 (!isBlank ·) cs
  let cs ← skip1 isBlank cs
  let (first, cs) ← window cs
  let cs ← skip1 isBlank cs
  let (second, cs) ← window cs
  let cs ← skip1 isBlank cs
  let (third, cs) ← window cs
  let cs ← skip1 isBlank cs
  let (scale, cs) ← unit cs
  return (⟨[first, second, third], scale⟩, cs)

def Speed.hashrate? (s : Speed) : Option Float :=
  (s.windows.findSome? decimal?).bind (scaled? · s.scale)

structure Share where
  isRejection : Bool
  accepted : Chars
  rejected : Chars
  reason : Option Chars

/-- The first quoted text after this place, unless it is empty or not closed. -/
def quoted? (cs : Chars) : Option Chars :=
  match skip (· != '"') cs with
  | [] => none
  | _ :: cs =>
    match run (· != '"') cs with
    | ([], _) => none
    | (_, []) => none
    | (found, _) => some found

def verdict (cs : Chars) : Option (Bool × Chars) :=
  match dropStart? ['a', 'c', 'c', 'e', 'p', 't', 'e', 'd'] cs with
  | some rest => some (false, rest)
  | none => (dropStart? ['r', 'e', 'j', 'e', 'c', 't', 'e', 'd'] cs).map fun rest => (true, rest)

def share : Scanner Share := fun cs => do
  let (isRejection, cs) ← verdict cs
  let cs ← skip1 isBlank cs
  let cs ← mark '(' cs
  let (accepted, cs) ← run1 isDigit cs
  let cs ← mark '/' cs
  let (rejected, cs) ← run1 isDigit cs
  let cs ← mark ')' cs
  return (⟨isRejection, accepted, rejected, quoted? cs⟩, cs)

def Share.status? (s : Share) : Option String :=
  if s.isRejection then s.reason.map fun r => "share rejected: " ++ .ofList r else none

def usePool : Scanner Chars := fun cs => do
  let cs ← dropStart? ['u', 's', 'e', ' ', 'p', 'o', 'o', 'l'] cs
  let cs ← skip1 isBlank cs
  run1 (!isBlank ·) cs

/-- A pool that the miner connects to counts as the status before a rejected share. -/
def sample (line : Chars) : Sample :=
  let shares := search share line
  let pool := (search usePool line).map fun p => "connected to " ++ String.ofList p
  { hashrate := (search speed line).bind Speed.hashrate?
    accepted := shares.bind fun s => count? s.accepted
    rejected := shares.bind fun s => count? s.rejected
    status := pool.or (shares.bind Share.status?) }

def read (line : Chars) : Option Sample := (sample line).nonEmpty?

end RigWarden.Log.Xmrig
