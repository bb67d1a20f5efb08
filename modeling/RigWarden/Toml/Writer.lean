import RigWarden.Number.Shortest
import RigWarden.Toml.Basic

/-!
# Writing TOML

A string is written in the first form that needs no escapes: basic, literal, long basic, long
literal; if none does, as a basic one with escapes. Only text with line feeds starts on a new line.
-/

namespace RigWarden.Toml

open Text Number

def longestRun (c : Char) (cs : Chars) : Nat :=
  (cs.foldl (fun (best, now) d => if d = c then (max best (now + 1), now + 1) else (best, 0))
    (0, 0)).1

def needsCode (c : Char) : Bool :=
  (c.toNat < 32 && c != '\t' && c != '\n') || c.toNat = 127

def hexDigit (n : Nat) : Char := if n < 10 then Char.ofNat (48 + n) else Char.ofNat (55 + n)

def codeText (n : Nat) : Chars := ['\\', 'u', '0', '0', hexDigit (n / 16), hexDigit (n % 16)]

/-- Escapes the characters of a basic string. In a long one up to `quotes` quotes in a row and all
line feeds stay as they are; `run` counts the quotes in a row before this place. -/
def escaped (isLong : Bool) (quotes : Nat) : (run : Nat) → Chars → Chars
  | _, [] => []
  | run, c :: cs =>
    if c = '"' then
      if quotes ≤ run then '\\' :: '"' :: escaped isLong quotes 0 cs
      else '"' :: escaped isLong quotes (run + 1) cs
    else
      let shown :=
        if c = '\x08' then ['\\', 'b']
        else if c = '\t' then ['\\', 't']
        else if c = '\n' then if isLong then ['\n'] else ['\\', 'n']
        else if c = '\x0c' then ['\\', 'f']
        else if c = '\r' then ['\\', 'r']
        else if c = '\\' then ['\\', '\\']
        else if c.toNat < 32 ∨ c.toNat = 127 then codeText c.toNat
        else [c]
      shown ++ escaped isLong quotes 0 cs

def quoted (delimiter : String) (opening body : Chars) : Chars :=
  delimiter.toList ++ opening ++ body ++ delimiter.toList

def stringText (s : String) : Chars :=
  let cs := s.toList
  let codes := cs.any needsCode
  let slash := cs.contains '\\'
  let lines := cs.contains '\n'
  let singles := longestRun '\'' cs
  let doubles := longestRun '"' cs
  let opening := if lines then ['\n'] else []
  if !codes && !slash && doubles = 0 && !lines then quoted "\"" [] (escaped false 0 0 cs)
  else if !codes && singles = 0 && !lines then quoted "'" [] cs
  else if !codes && !slash && doubles ≤ 2 then quoted "\"\"\"" opening (escaped true 2 0 cs)
  else if !codes && singles ≤ 2 then quoted "'''" opening cs
  else if lines then quoted "\"\"\"" opening (escaped true 2 0 cs)
  else quoted "\"" [] (escaped false 0 0 cs)

/-- `negative` is the sign of what is not a number. -/
def floatText (x : Float) (negative : Bool) : Chars :=
  if x.isNaN then (if negative then "-nan" else "nan").toList
  else if x.isInf then (if x < 0 then "-inf" else "inf").toList
  else (shortestText none x).toList

def integerText (i : Int) : Chars := (signed i).toList

def boolText (b : Bool) : Chars := (if b then "true" else "false").toList

def entry (key : String) (value : Chars) : Chars := key.toList ++ " = ".toList ++ value ++ ['\n']

def tableText (name : String) (entries : List Chars) : Chars :=
  '\n' :: '[' :: name.toList ++ ']' :: '\n' :: entries.flatten

end RigWarden.Toml
