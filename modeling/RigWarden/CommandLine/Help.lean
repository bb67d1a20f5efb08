import RigWarden.CommandLine.Options
import RigWarden.Text.Class

/-!
# Help on options

Options are listed in the order of their declaration, those of a command side by side with those
that all commands share. The summary has a line for each option. When an option has a choice of
values, there is also a full text, with a paragraph for each option and a line for each value.
-/

namespace RigWarden.CommandLine

open Text

def OptionSpec.usage (o : OptionSpec) : String :=
  (match o.letter with
    | some c => "  -" ++ .ofList [c] ++ ", --"
    | none => "      --") ++ o.name ++
  match o.parameter with
  | some p => " <" ++ p.name ++ ">"
  | none => ""

def OptionSpec.choices (o : OptionSpec) : List (String × String) :=
  ((o.parameter).map Parameter.choices).getD []

/-- What decides between two options at the same place: the letter, or else the name. -/
def OptionSpec.rank (o : OptionSpec) : Chars :=
  match o.letter with
  | some c => [lower c, if c.isLower then '0' else '1']
  | none => o.name.toList

def sideBySide : List OptionSpec → List OptionSpec → List OptionSpec
  | [], os => os
  | os, [] => os
  | a :: as, b :: bs =>
    if b.rank < a.rank then b :: a :: sideBySide as bs else a :: b :: sideBySide as bs

def padTo (n : Nat) (s : String) : String := s ++ .ofList (List.replicate (n - s.length) ' ')

def widest (names : List String) : Nat := (names.map String.length).foldl max 0

def columns (rows : List (String × String)) : String :=
  let width := widest (rows.map Prod.fst)
  "".intercalate (rows.map fun r => padTo width r.1 ++ "  " ++ r.2 ++ "\n")

def fallbackNote (o : OptionSpec) : Option String :=
  (o.parameter.bind Parameter.fallback).map fun value => "[default: " ++ value ++ "]"

def choicesNote (o : OptionSpec) : Option String :=
  if o.choices = [] then none
  else some ("[possible values: " ++ ", ".intercalate (o.choices.map Prod.fst) ++ "]")

def OptionSpec.summary (o : OptionSpec) : String :=
  " ".intercalate (o.help :: (fallbackNote o).toList ++ (choicesNote o).toList)

def indent : String := "          "

def OptionSpec.paragraph (o : OptionSpec) : String :=
  o.usage ++ "\n" ++ indent ++ o.help ++
  (match fallbackNote o with
    | some note => "\n" ++ indent ++ "\n" ++ indent ++ note
    | none => "") ++
  (match o.choices with
    | [] => ""
    | choices =>
      let width := widest (choices.map Prod.fst)
      "\n\n" ++ indent ++ "Possible values:" ++
        "".intercalate (choices.map fun c =>
          "\n" ++ indent ++ "- " ++ padTo (width + 2) (c.1 ++ ": ") ++ c.2)) ++ "\n"

def hasFullText (specs : List OptionSpec) : Bool := specs.any fun o => o.choices ≠ []

def helpOption (specs : List OptionSpec) (full : Bool) : OptionSpec :=
  { name := "help"
    letter := some 'h'
    help :=
      if !hasFullText specs then "Print help"
      else if full then "Print help (see a summary with '-h')"
      else "Print help (see more with '--help')" }

/-- Help on options; in full, if it was asked for and there is more to say. -/
def optionsHelp (specs final : List OptionSpec) (full : Bool) : String :=
  let all := specs ++ helpOption specs full :: final
  "Options:\n" ++
    if full && hasFullText specs then "\n".intercalate (all.map OptionSpec.paragraph)
    else columns (all.map fun o => (o.usage, o.summary))

end RigWarden.CommandLine
