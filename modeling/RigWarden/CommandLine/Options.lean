import RigWarden.Text.Trim

/-!
# Options of a command line

Words are read up to the first one that is not about an option. An option is given once at most, by
its name or its letter; letters without values can be joined. A value follows its option, in the
same word or in the next one, and a next word that looks like an option is no value.
-/

namespace RigWarden.CommandLine

open Text

structure Parameter where
  name : String
  accepts : String → Bool
  /-- All values that suit it, with what they mean, if they are few. -/
  choices : List (String × String) := []
  /-- The value that is taken when none is given. -/
  fallback : Option String := none

structure OptionSpec where
  name : String
  letter : Option Char := none
  /-- The value that the option takes, if it takes one. -/
  parameter : Option Parameter := none
  help : String

inductive Halted where
  | usage
  /-- Help was asked for: in full by the name of the option, a summary by its letter. -/
  | help (full : Bool)
  | version
  deriving Repr, DecidableEq

abbrev Given := List (String × String)

namespace Given

def get? (g : Given) (name : String) : Option String := (g.find? (·.1 == name)).map Prod.snd

def has (g : Given) (name : String) : Bool := (g.get? name).isSome

end Given

/-- An option that takes a value, which may still be to come. -/
structure Pending where
  name : String
  parameter : Parameter
  value : Option String := none

/-- The options read so far. The last one is looked at when the next one comes, or at the end. -/
structure Scan where
  given : Given := []
  pending : Option Pending := none

namespace Scan

def give (s : Scan) (name : String) (p : Parameter) (value : String) : Except Halted Scan :=
  if s.given.has name || !p.accepts value then .error .usage
  else .ok ⟨s.given ++ [(name, value)], none⟩

def settle (s : Scan) : Except Halted Scan :=
  match s.pending with
  | none => .ok s
  | some ⟨_, _, none⟩ => .error .usage
  | some ⟨name, p, some value⟩ => s.give name p value

def raise (s : Scan) (name : String) (byName : Bool) : Except Halted Scan :=
  if name = "help" then .error (.help byName)
  else if name = "version" then .error .version
  else if s.given.has name then .error .usage
  else .ok ⟨s.given ++ [(name, "")], none⟩

def take (s : Scan) (o : OptionSpec) (byName : Bool) (attached : Option String) :
    Except Halted Scan := do
  let s ← s.settle
  match o.parameter, attached with
  | none, none => s.raise o.name byName
  | none, some _ => .error .usage
  | some p, some value => s.give o.name p value
  | some p, none => return { s with pending := some { name := o.name, parameter := p } }

def takeValue? (s : Scan) (w : String) : Option Scan :=
  match s.pending with
  | some ⟨name, p, none⟩ => some { s with pending := some ⟨name, p, some w⟩ }
  | _ => none

/-- Reads a name, with a value after an equals sign if there is one. -/
def named (specs : List OptionSpec) (s : Scan) (cs : Chars) : Except Halted Scan :=
  let (name, value) : Chars × Option String := match splitFirst '=' cs with
    | some (name, value) => (name, some (.ofList value))
    | none => (cs, none)
  match specs.find? (·.name.toList == name) with
  | some o => s.take o true value
  | none => .error .usage

/-- Reads joined letters, the last of which may have its value attached. -/
def letters (specs : List OptionSpec) : Scan → Chars → Except Halted Scan
  | s, [] => .ok s
  | s, c :: cs =>
    match specs.find? (·.letter == some c) with
    | none => .error .usage
    | some o =>
      match o.parameter, cs with
      | none, cs => do letters specs (← s.take o false none) cs
      | some _, [] => s.take o false none
      | some _, '=' :: value => s.take o false (some (.ofList value))
      | some _, value => s.take o false (some (.ofList value))

end Scan

/-- Reads options, and leaves the words from the first one on that is none. Nothing may follow two
dashes, because no command takes words of its own. A single dash is a word like any other. -/
def scan (specs : List OptionSpec) : Scan → List String → Except Halted (Scan × List String)
  | s, [] => .ok (s, [])
  | s, w :: ws =>
    match w.toList with
    | ['-', '-'] => if ws = [] then .ok (s, []) else .error .usage
    | '-' :: '-' :: cs => do scan specs (← s.named specs cs) ws
    | '-' :: c :: cs => do scan specs (← s.letters specs (c :: cs)) ws
    | _ =>
      match s.takeValue? w with
      | some s => scan specs s ws
      | none => .ok (s, w :: ws)

end RigWarden.CommandLine
