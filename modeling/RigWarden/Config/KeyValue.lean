import RigWarden.Text.KeyMap
import RigWarden.Text.Utf8

/-!
# `key = value` texts

One entry per line. The reader skips blank lines, lines that start with `#` and lines without an
equals sign; keys and values are trimmed, and the last entry of a key counts.
-/

namespace RigWarden.KeyValue

open Text

/-- The entry of a line: the texts around its first equals sign. -/
def entry? (line : Chars) : Option (String × String) :=
  match trimChars line with
  | [] => none
  | '#' :: _ => none
  | cs =>
    (splitFirst '=' cs).map fun p => (.ofList (trimChars p.1), .ofList (trimChars p.2))

def parseChars (cs : Chars) : KeyMap String := .ofList ((lines cs).filterMap entry?)

def parse (text : String) : KeyMap String := parseChars (chars text)

def renderEntry (e : String × String) : Chars := e.1.toList ++ " = ".toList ++ e.2.toList ++ ['\n']

def render (header : String) (entries : List (String × String)) : String :=
  .ofList (header.toList ++ '\n' :: entries.flatMap renderEntry)

end RigWarden.KeyValue
