import RigWarden.Json.Basic
import RigWarden.Number.Shortest

/-!
# Writing JSON

Two layouts: without blanks, and with every item on a line of its own under two blanks of
indentation. Only quotes, backslashes and control characters below 32 are escaped.
-/

namespace RigWarden.Json

open Text Number

def hexDigit (n : Nat) : Char := if n < 10 then Char.ofNat (48 + n) else Char.ofNat (87 + n)

def escapeChar (c : Char) : Chars :=
  if c = '"' then ['\\', '"']
  else if c = '\\' then ['\\', '\\']
  else if c = '\x08' then ['\\', 'b']
  else if c = '\x0c' then ['\\', 'f']
  else if c = '\n' then ['\\', 'n']
  else if c = '\r' then ['\\', 'r']
  else if c = '\t' then ['\\', 't']
  else if c.toNat < 32 then ['\\', 'u', '0', '0', hexDigit (c.toNat / 16), hexDigit (c.toNat % 16)]
  else [c]

def quote (s : String) : Chars := '"' :: s.toList.flatMap escapeChar ++ ['"']

/-- Numbers are written positionally while the point stands within 16 digits. -/
def floatLayout : PointRange := ⟨-5, 16⟩

/-- A number that is not finite has no JSON text and becomes `null`. -/
def ofFloat (x : Float) : Json :=
  if x.isFinite then .number (shortestText (some floatLayout) x) else .null

mutual

def compactChars : Json → Chars
  | .null => "null".toList
  | .bool b => (if b then "true" else "false").toList
  | .number t => t.toList
  | .string s => quote s
  | .broken => quote ""
  | .array items => '[' :: compactItems items ++ [']']
  | .object fields => '\x7b' :: compactFields fields ++ ['\x7d']

def compactItems : List Json → Chars
  | [] => []
  | j :: js => compactChars j ++ (if js.isEmpty then [] else ',' :: compactItems js)

def compactFields : List (String × Json) → Chars
  | [] => []
  | f :: fs => compactField f ++ (if fs.isEmpty then [] else ',' :: compactFields fs)

def compactField : String × Json → Chars
  | (name, j) => quote name ++ ':' :: compactChars j

end

def newline (depth : Nat) : Chars := '\n' :: List.replicate (2 * depth) ' '

mutual

def prettyChars (depth : Nat) : Json → Chars
  | .array items =>
    if items.isEmpty then ['[', ']']
    else '[' :: prettyItems (depth + 1) items ++ newline depth ++ [']']
  | .object fields =>
    if fields.isEmpty then ['\x7b', '\x7d']
    else '\x7b' :: prettyFields (depth + 1) fields ++ newline depth ++ ['\x7d']
  | .null => "null".toList
  | .bool b => (if b then "true" else "false").toList
  | .number t => t.toList
  | .string s => quote s
  | .broken => quote ""

def prettyItems (depth : Nat) : List Json → Chars
  | [] => []
  | j :: js =>
    newline depth ++ prettyChars depth j ++ (if js.isEmpty then [] else ',' :: prettyItems depth js)

def prettyFields (depth : Nat) : List (String × Json) → Chars
  | [] => []
  | f :: fs =>
    newline depth ++ prettyField depth f ++ (if fs.isEmpty then [] else ',' :: prettyFields depth fs)

def prettyField (depth : Nat) : String × Json → Chars
  | (name, j) => quote name ++ ':' :: ' ' :: prettyChars depth j

end

def compact (j : Json) : String := .ofList (compactChars j)

def pretty (j : Json) : String := .ofList (prettyChars 0 j)

end RigWarden.Json
