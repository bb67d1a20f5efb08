import RigWarden.Number.Numeral
import RigWarden.Text.KeyMap

/-!
# JSON values

A number keeps its text, so that `4` and `4.0` stay different; an object keeps its fields in the
order they were written, repeated names included. `sound` says that a reader may take the value as
a whole: every escape names characters, every number has a value, and the nesting stays in bounds.
-/

namespace RigWarden

open Text Number

inductive Json where
  | null
  | bool (b : Bool)
  | number (text : String)
  | string (s : String)
  /-- A string, or an object by one of its names, whose escapes hold half of a surrogate pair. -/
  | broken
  | array (items : List Json)
  | object (fields : List (String × Json))
  deriving Inhabited

namespace Json

def ofNat (n : Nat) : Json := .number (decimal n)

def ofInt (i : Int) : Json := .number (signed i)

def ofOption {α : Type} (f : α → Json) : Option α → Json
  | none => .null
  | some a => f a

def text (s : Option String) : Json := ofOption .string s

def get? (j : Json) (name : String) : Option Json :=
  match j with
  | .object fields => (fields.find? (·.1 == name)).map Prod.snd
  | _ => none

/-- A natural number below a bound, written without sign, fraction and exponent. -/
def natural? (bound : Nat) : Json → Option Nat
  | .number t =>
    let cs := t.toList
    if cs ≠ [] ∧ cs.all isAsciiDigit ∧ ofDigits cs < bound then some (ofDigits cs) else none
  | _ => none

/-- An integer from `-bound` to `bound - 1`; zero has no sign. -/
def integer? (bound : Nat) (j : Json) : Option Int :=
  match j with
  | .number t =>
    match t.toList with
    | '-' :: cs =>
      if cs ≠ [] ∧ cs.all isAsciiDigit ∧ 0 < ofDigits cs ∧ ofDigits cs ≤ bound then
        some (-(ofDigits cs : Int))
      else none
    | _ => (natural? bound j).map Int.ofNat
  | _ => none

def string? : Json → Option String
  | .string s => some s
  | _ => none

def bool? : Json → Option Bool
  | .bool b => some b
  | _ => none

mutual

def depth : Json → Nat
  | .array items => depthItems items + 1
  | .object fields => depthFields fields + 1
  | _ => 0

def depthItems : List Json → Nat
  | [] => 0
  | j :: js => max (depth j) (depthItems js)

def depthFields : List (String × Json) → Nat
  | [] => 0
  | f :: fs => max (depthField f) (depthFields fs)

def depthField : String × Json → Nat
  | (_, j) => depth j

end

mutual

/-- Every leaf of the value has a meaning. -/
def clean : Json → Bool
  | .broken => false
  | .number t => Numeral.hasValue t.toList
  | .array items => cleanItems items
  | .object fields => cleanFields fields
  | _ => true

def cleanItems : List Json → Bool
  | [] => true
  | j :: js => clean j && cleanItems js

def cleanFields : List (String × Json) → Bool
  | [] => true
  | f :: fs => cleanField f && cleanFields fs

def cleanField : String × Json → Bool
  | (_, j) => clean j

end

def maxDepth : Nat := 127

def sound (j : Json) : Bool := j.clean && j.depth ≤ maxDepth

mutual

/-- The strings of a value, objects in key order with the last of repeated names. -/
def strings : Json → List String
  | .string s => [s]
  | .array items => stringsItems items
  | .object fields => (KeyMap.ofList (stringsFields fields)).values.flatten
  | _ => []

def stringsItems : List Json → List String
  | [] => []
  | j :: js => strings j ++ stringsItems js

def stringsFields : List (String × Json) → List (String × List String)
  | [] => []
  | f :: fs => stringsField f :: stringsFields fs

def stringsField : String × Json → String × List String
  | (name, j) => (name, strings j)

end

end Json
end RigWarden
