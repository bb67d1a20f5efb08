import RigWarden.Text.Trim

/-!
# TOML values and documents

A document is built from keys and headers. While it is built a table remembers how it came about: an
implicit one was only passed through on the way to another, a dotted one came from a dotted key.
These decide what may still be added to it.
-/

namespace RigWarden.Toml

inductive Value where
  | string (s : String)
  | integer (i : Int)
  | float (x : Float)
  /-- What is not a number still has a sign. -/
  | nan (negative : Bool)
  | boolean (b : Bool)
  | datetime (text : String)
  | array (items : List Value)
  | table (entries : List (String × Value))
  deriving Inhabited

namespace Value

def string? : Value → Option String
  | string s => some s
  | _ => none

def bool? : Value → Option Bool
  | boolean b => some b
  | _ => none

/-- A number from 0 to below a limit. -/
def natural? (limit : Nat) : Value → Option Nat
  | integer i => if 0 ≤ i ∧ i < (limit : Int) then some i.toNat else none
  | _ => none

def float? : Value → Option Float
  | float x => some x
  | nan _ => some (0.0 / 0.0)
  | integer i => some (Float.ofInt i)
  | _ => none

/-- The fields of a record, by name and position: a table, or an array of the fields in order. A
date has no field that any record knows. -/
def fields? : Value → Option (String → Nat → Option Value)
  | table entries => some fun name _ => (entries.find? (·.1 == name)).map Prod.snd
  | array items => some fun _ i => items[i]?
  | datetime _ => some fun _ _ => none
  | _ => none

def isNegativeNaN : Value → Bool
  | nan negative => negative
  | _ => false

def isEmpty : Value → Bool
  | table [] => true
  | array [] => true
  | _ => false

end Value

/-- The value of a field that may be left out but not be wrong. -/
def valueOr {α : Type} (v : Option Value) (read : Value → Option α) (default : α) : Option α :=
  match v with
  | none => some default
  | some v => read v

inductive Item where
  | value (v : Value)
  | table (isImplicit isDotted : Bool) (entries : List (String × Item))
  /-- A list of tables; headers and keys are about the last one. -/
  | tables (elements : List (List (String × Item)))
  deriving Inhabited

abbrev Entries := List (String × Item)

namespace Entries

def find? (es : Entries) (key : String) : Option Item := (List.find? (·.1 == key) es).map Prod.snd

def put (es : Entries) (key : String) (i : Item) : Entries :=
  if es.any (·.1 == key) then es.map fun e => if e.1 == key then (key, i) else e
  else es ++ [(key, i)]

/-- Changes the table at a path, and makes the tables on the way. `change` is told whether the
table came from a dotted key. Dotted keys may pass only through implicit tables. -/
def updateAt (dotted : Bool) (change : Bool → Entries → Option Entries) :
    (isDotted : Bool) → (path : List String) → Entries → Option Entries
  | isDotted, [], es => change isDotted es
  | _, key :: path, es =>
    match es.find? key with
    | none =>
      (updateAt dotted change dotted path []).map fun sub => es.put key (.table true dotted sub)
    | some (.value _) => none
    | some (.table isImplicit isDotted sub) =>
      if dotted && !isImplicit then none
      else (updateAt dotted change isDotted path sub).map fun sub =>
        es.put key (.table isImplicit isDotted sub)
    | some (.tables elements) =>
      (updateAt dotted change false path (elements.getLastD [])).map fun sub =>
        es.put key (.tables (elements.dropLast ++ [sub]))

/-- Adds a key to a table where it is not yet present. A dotted key may only add to a table that
came from dotted keys. -/
def assign (path : List String) (key : String) (v : Value) (es : Entries) : Option Entries :=
  updateAt true
    (fun isDotted es =>
      if isDotted = path.isEmpty then none
      else if (es.find? key).isSome then none
      else some (es.put key (.value v)))
    false path es

/-- Opens the table of a header: a new one, or one that was only passed through so far. -/
def openTable (path : List String) (key : String) (es : Entries) : Option Entries :=
  updateAt false
    (fun _ es =>
      match es.find? key with
      | none => some (es.put key (.table false false []))
      | some (.table true false sub) => some (es.put key (.table false false sub))
      | _ => none)
    false path es

def openElement (path : List String) (key : String) (es : Entries) : Option Entries :=
  updateAt false
    (fun _ es =>
      match es.find? key with
      | none => some (es.put key (.tables [[]]))
      | some (.tables elements) => some (es.put key (.tables (elements ++ [[]])))
      | _ => none)
    false path es

end Entries

mutual

def Item.toValue : Item → Value
  | .value v => v
  | .table _ _ es => .table (entryValues es)
  | .tables elements => .array (elementValues elements)

def entryValues : List (String × Item) → List (String × Value)
  | [] => []
  | e :: es => entryValue e :: entryValues es

def entryValue : String × Item → String × Value
  | (key, i) => (key, i.toValue)

def elementValues : List (List (String × Item)) → List Value
  | [] => []
  | es :: rest => .table (entryValues es) :: elementValues rest

end

end RigWarden.Toml
