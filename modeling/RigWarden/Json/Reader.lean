import RigWarden.Json.Basic
import RigWarden.Text.Utf8

/-!
# Reading JSON

A text is one value with blanks around it. `parse?` accepts every text of the grammar; `read?`
also asks for a sound value.
-/

namespace RigWarden.Json

open Text Number

def isSpace (c : Char) : Bool := c == ' ' || c == '\n' || c == '\t' || c == '\r'

def skipSpace (cs : Chars) : Chars := cs.dropWhile isSpace

def hexValue? (c : Char) : Option Nat :=
  let n := c.toNat
  if 48 ≤ n ∧ n ≤ 57 then some (n - 48)
  else if 97 ≤ n ∧ n ≤ 102 then some (n - 87)
  else if 65 ≤ n ∧ n ≤ 70 then some (n - 55)
  else none

def hexNumber? (cs : Chars) : Option Nat :=
  cs.foldl (fun n c => do return (← n) * 16 + (← hexValue? c)) (some 0)

/-- A character of a string as written: itself, or the number in an escape. -/
inductive StringUnit where
  | char (c : Char)
  | escape (code : Nat)

def simpleEscape? : Char → Option Char
  | '"' => some '"'
  | '\\' => some '\\'
  | '/' => some '/'
  | 'b' => some '\x08'
  | 'f' => some '\x0c'
  | 'n' => some '\n'
  | 'r' => some '\r'
  | 't' => some '\t'
  | _ => none

def readUnits : Chars → Option (List StringUnit × Chars)
  | [] => none
  | '"' :: rest => some ([], rest)
  | '\\' :: 'u' :: a :: b :: c :: d :: rest => do
    let code ← hexNumber? [a, b, c, d]
    let (units, rest) ← readUnits rest
    return (.escape code :: units, rest)
  | '\\' :: e :: rest => do
    let c ← simpleEscape? e
    let (units, rest) ← readUnits rest
    return (.char c :: units, rest)
  | c :: rest => do
    if c.toNat < 32 ∨ c = '\\' then none
    else
      let (units, rest) ← readUnits rest
      return (.char c :: units, rest)

/-- Escapes of a surrogate pair join to one character; a lone half has no meaning. -/
def joinUnits : List StringUnit → Option Chars
  | [] => some []
  | .char c :: units => (joinUnits units).map (c :: ·)
  | .escape high :: .escape low :: units =>
    if 0xD800 ≤ high ∧ high ≤ 0xDBFF then
      if 0xDC00 ≤ low ∧ low ≤ 0xDFFF then
        (joinUnits units).map
          (Char.ofNat (0x10000 + (high - 0xD800) * 1024 + (low - 0xDC00)) :: ·)
      else none
    else if 0xDC00 ≤ high ∧ high ≤ 0xDFFF then none
    else (joinUnits (.escape low :: units)).map (Char.ofNat high :: ·)
  | .escape code :: units =>
    if 0xD800 ≤ code ∧ code ≤ 0xDFFF then none
    else (joinUnits units).map (Char.ofNat code :: ·)

def takeDigits (cs : Chars) : Chars × Chars := (cs.takeWhile isAsciiDigit, cs.dropWhile isAsciiDigit)

/-- Digits of the part before the point: no zero stands before another digit. -/
def readWhole : Chars → Option (Chars × Chars)
  | '0' :: rest => some (['0'], rest)
  | cs => match takeDigits cs with
    | ([], _) => none
    | found => some found

def readFraction : Chars → Option (Chars × Chars)
  | '.' :: rest => match takeDigits rest with
    | ([], _) => none
    | (ds, rest) => some ('.' :: ds, rest)
  | cs => some ([], cs)

def readPower : Chars → Option (Chars × Chars)
  | e :: rest =>
    if e = 'e' ∨ e = 'E' then
      let (sign, rest) := match rest with
        | '+' :: rest => (['+'], rest)
        | '-' :: rest => (['-'], rest)
        | rest => ([], rest)
      match takeDigits rest with
      | ([], _) => none
      | (ds, rest) => some (e :: sign ++ ds, rest)
    else some ([], e :: rest)
  | [] => some ([], [])

def readNumber (cs : Chars) : Option (Json × Chars) := do
  let (sign, cs) := match cs with
    | '-' :: rest => (['-'], rest)
    | cs => ([], cs)
  let (whole, cs) ← readWhole cs
  let (fraction, cs) ← readFraction cs
  let (power, cs) ← readPower cs
  return (.number (.ofList (sign ++ whole ++ fraction ++ power)), cs)

def readString (cs : Chars) : Option (Json × Chars) := do
  let (units, cs) ← readUnits cs
  match joinUnits units with
  | some s => return (.string (.ofList s), cs)
  | none => return (.broken, cs)

/-- A quoted name, if it has a meaning, a colon, and the text after them. -/
def readName : Chars → Option (Option String × Chars)
  | '"' :: cs => do
    let (units, cs) ← readUnits cs
    match skipSpace cs with
    | ':' :: cs => return ((joinUnits units).map String.ofList, cs)
    | _ => none
  | _ => none

def ofFields (fields : List (Option String × Json)) : Json :=
  match fields.mapM fun f => f.1.map (·, f.2) with
  | some fields => .object fields
  | none => .broken

mutual

/-- Reads a value, blanks before it included. The number bounds the steps. -/
def readValue : Nat → Chars → Option (Json × Chars)
  | 0, _ => none
  | fuel + 1, cs =>
    match skipSpace cs with
    | '"' :: cs => readString cs
    | '[' :: cs =>
      match skipSpace cs with
      | ']' :: cs => some (.array [], cs)
      | cs => (readItems fuel cs).map fun p => (.array p.1, p.2)
    | '\x7b' :: cs =>
      match skipSpace cs with
      | '\x7d' :: cs => some (.object [], cs)
      | cs => (readFields fuel cs).map fun p => (ofFields p.1, p.2)
    | cs =>
      match dropStart? "null".toList cs, dropStart? "true".toList cs,
        dropStart? "false".toList cs with
      | some cs, _, _ => some (.null, cs)
      | _, some cs, _ => some (.bool true, cs)
      | _, _, some cs => some (.bool false, cs)
      | _, _, _ => readNumber cs

def readItems : Nat → Chars → Option (List Json × Chars)
  | 0, _ => none
  | fuel + 1, cs =>
    match readValue fuel cs with
    | none => none
    | some (j, cs) =>
      match skipSpace cs with
      | ',' :: cs => (readItems fuel cs).map fun p => (j :: p.1, p.2)
      | ']' :: cs => some ([j], cs)
      | _ => none

def readFields : Nat → Chars → Option (List (Option String × Json) × Chars)
  | 0, _ => none
  | fuel + 1, cs =>
    match readName (skipSpace cs) with
    | none => none
    | some (name, cs) =>
      match readValue fuel cs with
      | none => none
      | some (j, cs) =>
        match skipSpace cs with
        | ',' :: cs => (readFields fuel cs).map fun p => ((name, j) :: p.1, p.2)
        | '\x7d' :: cs => some ([(name, j)], cs)
        | _ => none

end

def parseChars? (cs : Chars) : Option Json := do
  let (j, rest) ← readValue (cs.length + 1) cs
  if skipSpace rest = [] then some j else none

def parse? (s : String) : Option Json := parseChars? (chars s)

def read? (s : String) : Option Json := (parse? s).filter sound

end RigWarden.Json
