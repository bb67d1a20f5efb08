import RigWarden.Text.Class

/-!
# Trimming, lines and splits

Texts are handled as lists of characters; the functions on `String` wrap those. A line ends at a
line feed, and one carriage return before it belongs to the ending.
-/

namespace RigWarden.Text

abbrev Chars := List Char

def trimStart (cs : Chars) : Chars := cs.dropWhile isBlank

def trimEnd (cs : Chars) : Chars := (cs.reverse.dropWhile isBlank).reverse

def trimChars (cs : Chars) : Chars := trimEnd (trimStart cs)

def trim (s : String) : String := .ofList (trimChars s.toList)

@[simp] theorem trimStart_nil : trimStart [] = [] := rfl

@[simp] theorem trimChars_nil : trimChars [] = [] := rfl

theorem trimStart_cons (c : Char) (cs : Chars) :
    trimStart (c :: cs) = if isBlank c then trimStart cs else c :: cs := by
  simp only [trimStart, List.dropWhile_cons]

def splitFirst (sep : Char) : Chars → Option (Chars × Chars)
  | [] => none
  | c :: cs =>
    if c = sep then some ([], cs) else (splitFirst sep cs).map fun p => (c :: p.1, p.2)

def splitLast (sep : Char) (cs : Chars) : Option (Chars × Chars) :=
  (splitFirst sep cs.reverse).map fun p => (p.2.reverse, p.1.reverse)

/-- The rest of `cs` after `start`, when `cs` begins with it. -/
def dropStart? : (start cs : Chars) → Option Chars
  | [], cs => some cs
  | _ :: _, [] => none
  | s :: start, c :: cs => if s = c then dropStart? start cs else none

def afterFirst (mark : Chars) : Chars → Option Chars
  | [] => if mark = [] then some [] else none
  | c :: cs =>
    match dropStart? mark (c :: cs) with
    | some rest => some rest
    | none => afterFirst mark cs

/-- The pieces between the occurrences of `sep`, one more than there are occurrences. -/
def splitOn {α : Type} [DecidableEq α] (sep : α) : List α → List (List α)
  | [] => [[]]
  | c :: cs =>
    if c = sep then [] :: splitOn sep cs
    else match splitOn sep cs with
      | [] => [[c]]
      | piece :: pieces => (c :: piece) :: pieces

theorem splitOn_ne_nil {α : Type} [DecidableEq α] (sep : α) (cs : List α) :
    splitOn sep cs ≠ [] := by
  cases cs with
  | nil => simp [splitOn]
  | cons c cs =>
    simp only [splitOn]
    split
    · simp
    · split <;> simp

/-- `cs` without one final `last`. -/
def dropLastIf {α : Type} [DecidableEq α] (last : α) (cs : List α) : List α :=
  if cs.getLast? = some last then cs.dropLast else cs

/-- The lines of a text. A last line without an ending counts when it is not empty. -/
def lines (cs : Chars) : List Chars :=
  let pieces := splitOn '\n' cs
  let last := pieces.getLastD []
  (pieces.dropLast.map (dropLastIf '\r')) ++ if last = [] then [] else [last]

def eqIgnoreCase (a b : Chars) : Bool := a.map lower == b.map lower

end RigWarden.Text
