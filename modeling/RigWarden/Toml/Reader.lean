import RigWarden.Toml.Scalar

/-!
# Reading TOML

A document is a sequence of lines, each blank, a header or an assignment, with a comment at the end
if wanted. Strings and arrays may go on over several lines.
-/

namespace RigWarden.Toml

open Text Number

def isSpace (c : Char) : Bool := c == ' ' || c == '\t'

def skipSpace (cs : Chars) : Chars := cs.dropWhile isSpace

/-- A character that may stand in a comment or a literal string. -/
def isPlain (c : Char) : Bool := c == '\t' || (32 ≤ c.toNat && c.toNat ≠ 127)

def newline? : Chars → Option Chars
  | '\n' :: cs => some cs
  | '\r' :: '\n' :: cs => some cs
  | _ => none

def skipComment : Chars → Chars
  | '#' :: cs => cs.dropWhile isPlain
  | cs => cs

/-- Reads blanks, a comment and the end of the line or the text. -/
def lineEnd? (cs : Chars) : Option Chars :=
  match skipComment (skipSpace cs) with
  | [] => some []
  | cs => newline? cs

def skipBlank : (fuel : Nat) → Chars → Chars
  | 0, cs => cs
  | fuel + 1, cs =>
    match skipSpace cs with
    | [] => []
    | c :: rest =>
      if c = '#' then
        match newline? (skipComment (c :: rest)) with
        | some rest => skipBlank fuel rest
        | none => skipComment (c :: rest)
      else match newline? (c :: rest) with
        | some rest => skipBlank fuel rest
        | none => c :: rest

def escapeChar? : Char → Option Char
  | 'b' => some '\x08'
  | 't' => some '\t'
  | 'n' => some '\n'
  | 'f' => some '\x0c'
  | 'r' => some '\r'
  | '"' => some '"'
  | '\\' => some '\\'
  | _ => none

/-- The character of a code point that is not a surrogate. -/
def scalar? (n : Nat) : Option Char :=
  if n < 0xD800 ∨ (0xE000 ≤ n ∧ n ≤ 0x10FFFF) then some (Char.ofNat n) else none

def escape? : Chars → Option (Char × Chars)
  | 'u' :: cs =>
    if cs.length < 4 then none
    else ((Json.hexNumber? (cs.take 4)).bind scalar?).map fun c => (c, cs.drop 4)
  | 'U' :: cs =>
    if cs.length < 8 then none
    else ((Json.hexNumber? (cs.take 8)).bind scalar?).map fun c => (c, cs.drop 8)
  | c :: cs => (escapeChar? c).map fun c => (c, cs)
  | [] => none

def basic : (fuel : Nat) → Chars → Option (Chars × Chars)
  | 0, _ => none
  | fuel + 1, cs =>
    match cs with
    | [] => none
    | '"' :: rest => some ([], rest)
    | '\\' :: rest => do
      let (c, rest) ← escape? rest
      let (s, rest) ← basic fuel rest
      return (c :: s, rest)
    | c :: rest => do
      if !isPlain c then none
      let (s, rest) ← basic fuel rest
      return (c :: s, rest)

def literal (cs : Chars) : Option (Chars × Chars) :=
  let s := cs.takeWhile fun c => isPlain c && c != '\''
  match cs.drop s.length with
  | '\'' :: rest => some (s, rest)
  | _ => none

/-- Reads the quotes that close a long string; up to two more belong to the string. -/
def closing? (quote : Char) (cs : Chars) : Option (Chars × Chars) :=
  let n := (cs.takeWhile (· == quote)).length
  if n < 3 then none
  else
    let inside := min (n - 3) 2
    some (List.replicate inside quote, cs.drop (inside + 3))

def skipLines : (fuel : Nat) → Chars → Chars
  | 0, cs => cs
  | fuel + 1, cs =>
    match newline? (skipSpace cs) with
    | some rest => skipLines fuel rest
    | none => skipSpace cs

/-- Skips blanks and line ends after a backslash at the end of a line. -/
def continued? (cs : Chars) : Option Chars :=
  (newline? (skipSpace cs)).map fun rest => skipLines rest.length rest

def longBasic : (fuel : Nat) → Chars → Option (Chars × Chars)
  | 0, _ => none
  | fuel + 1, cs =>
    match closing? '"' cs with
    | some found => some found
    | none =>
      match cs with
      | [] => none
      | '\\' :: rest =>
        match continued? rest with
        | some rest => longBasic fuel rest
        | none => do
          let (c, rest) ← escape? rest
          let (s, rest) ← longBasic fuel rest
          return (c :: s, rest)
      | c :: rest =>
        match newline? (c :: rest) with
        | some rest => (longBasic fuel rest).map fun p => ('\n' :: p.1, p.2)
        | none =>
          if isPlain c then (longBasic fuel rest).map fun p => (c :: p.1, p.2) else none

def longLiteral : (fuel : Nat) → Chars → Option (Chars × Chars)
  | 0, _ => none
  | fuel + 1, cs =>
    match closing? '\'' cs with
    | some found => some found
    | none =>
      match cs with
      | [] => none
      | c :: rest =>
        match newline? (c :: rest) with
        | some rest => (longLiteral fuel rest).map fun p => ('\n' :: p.1, p.2)
        | none =>
          if isPlain c then (longLiteral fuel rest).map fun p => (c :: p.1, p.2) else none

def skipFirstNewline (cs : Chars) : Chars := (newline? cs).getD cs

def string? (cs : Chars) : Option (Chars × Chars) :=
  match cs with
  | '"' :: '"' :: '"' :: rest => longBasic (rest.length + 1) (skipFirstNewline rest)
  | '"' :: rest => basic (rest.length + 1) rest
  | '\'' :: '\'' :: '\'' :: rest => longLiteral (rest.length + 1) (skipFirstNewline rest)
  | '\'' :: rest => literal rest
  | _ => none

def isBare (c : Char) : Bool := isAsciiWord c || c == '-'

def simpleKey? (cs : Chars) : Option (String × Chars) :=
  match cs with
  | '"' :: rest => (basic (rest.length + 1) rest).map fun p => (.ofList p.1, p.2)
  | '\'' :: rest => (literal rest).map fun p => (.ofList p.1, p.2)
  | cs =>
    match cs.takeWhile isBare with
    | [] => none
    | name => some (.ofList name, cs.drop name.length)

def key? : (fuel : Nat) → Chars → Option (List String × Chars)
  | 0, _ => none
  | fuel + 1, cs => do
    let (part, cs) ← simpleKey? (skipSpace cs)
    match skipSpace cs with
    | '.' :: cs =>
      let (parts, cs) ← key? fuel cs
      return (part :: parts, cs)
    | cs => return ([part], cs)

/-- Containers may be nested, and keys be made of parts, up to this number. -/
def maxNesting : Nat := 79

def splitKey (parts : List String) : List String × String := (parts.dropLast, parts.getLastD "")

def isWordChar (c : Char) : Bool :=
  isAsciiWord c || c == '+' || c == '-' || c == '.' || c == ':'

/-- Reads a word. A date may be parted from a time by a blank. -/
def readWord (cs : Chars) : Option (Value × Chars) :=
  let w := cs.takeWhile isWordChar
  let rest := cs.drop w.length
  match date? w, rest with
  | some [], ' ' :: tail =>
    let t := tail.takeWhile isWordChar
    if isDatetime (w ++ ' ' :: t) then
      some (.datetime (.ofList (w ++ ' ' :: t)), tail.drop t.length)
    else (word? w).map fun v => (v, rest)
  | _, _ => (word? w).map fun v => (v, rest)

mutual

/-- Reads a value. `depth` bounds the nesting, `fuel` the steps. -/
def readValue : (fuel depth : Nat) → Chars → Option (Value × Chars)
  | 0, _, _ => none
  | fuel + 1, depth, cs =>
    match cs with
    | '[' :: rest =>
      match depth with
      | 0 => none
      | depth + 1 => (readItems fuel depth rest).map fun p => (.array p.1, p.2)
    | '\x7b' :: rest =>
      match depth with
      | 0 => none
      | depth + 1 =>
        match skipSpace rest with
        | '\x7d' :: rest => some (.table [], rest)
        | rest => (readPairs fuel depth [] rest).map fun p => (.table (entryValues p.1), p.2)
    | cs =>
      match string? cs with
      | some (s, rest) => some (.string (.ofList s), rest)
      | none => readWord cs

def readItems : (fuel depth : Nat) → Chars → Option (List Value × Chars)
  | 0, _, _ => none
  | fuel + 1, depth, cs =>
    match skipBlank (cs.length + 1) cs with
    | ']' :: rest => some ([], rest)
    | cs =>
      match readValue fuel depth cs with
      | none => none
      | some (v, cs) =>
        match skipBlank (cs.length + 1) cs with
        | ',' :: cs => (readItems fuel depth cs).map fun p => (v :: p.1, p.2)
        | ']' :: cs => some ([v], cs)
        | _ => none

def readPairs : (fuel depth : Nat) → Entries → Chars → Option (Entries × Chars)
  | 0, _, _, _ => none
  | fuel + 1, depth, es, cs =>
    match key? maxNesting cs with
    | none => none
    | some (parts, cs) =>
      match cs with
      | '=' :: cs =>
        match readValue fuel depth (skipSpace cs) with
        | none => none
        | some (v, cs) =>
          match es.assign (splitKey parts).1 (splitKey parts).2 v with
          | none => none
          | some es =>
            match skipSpace cs with
            | ',' :: cs => readPairs fuel depth es cs
            | '\x7d' :: cs => some (es, cs)
            | _ => none
      | _ => none

end

structure Draft where
  root : Entries
  header : List String

def Draft.assign (d : Draft) (parts : List String) (v : Value) : Option Draft :=
  let (path, key) := splitKey parts
  (Entries.updateAt false (fun _ es => es.assign path key v) false d.header d.root).map fun root =>
    { d with root := root }

def readHeader (d : Draft) (cs : Chars) : Option (Draft × Chars) :=
  match cs with
  | '[' :: cs => do
    let (parts, cs) ← key? maxNesting cs
    let cs ← dropStart? [']', ']'] cs
    let root ← d.root.openElement (splitKey parts).1 (splitKey parts).2
    return (⟨root, parts⟩, cs)
  | cs => do
    let (parts, cs) ← key? maxNesting cs
    let cs ← dropStart? [']'] cs
    let root ← d.root.openTable (splitKey parts).1 (splitKey parts).2
    return (⟨root, parts⟩, cs)

def readAssignment (d : Draft) (cs : Chars) : Option (Draft × Chars) := do
  let (parts, cs) ← key? maxNesting cs
  let cs ← dropStart? ['='] cs
  let (v, cs) ← readValue (cs.length + 1) maxNesting (skipSpace cs)
  return (← d.assign parts v, cs)

def readLines : (fuel : Nat) → Draft → Chars → Option Draft
  | 0, _, _ => none
  | fuel + 1, d, cs =>
    match skipBlank (cs.length + 1) cs with
    | [] => some d
    | '[' :: cs => do
      let (d, cs) ← readHeader d cs
      readLines fuel d (← lineEnd? cs)
    | cs => do
      let (d, cs) ← readAssignment d cs
      readLines fuel d (← lineEnd? cs)

def skipMark (cs : Chars) : Chars :=
  match cs with
  | c :: rest => if c.toNat = 0xFEFF then rest else c :: rest
  | [] => []

def read? (text : String) : Option Value :=
  let cs := skipMark text.toList
  (readLines (cs.length + 1) ⟨[], []⟩ cs).map fun d => .table (entryValues d.root)

end RigWarden.Toml
