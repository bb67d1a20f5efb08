import RigWarden.Text.Trim

/-!
# Scanning a line

A scanner reads a beginning of a text and returns what it read with the rest. Runs are read as far
as they go; every pattern of this library follows a run only by characters outside its class, so
reading on never loses a match. `search` tries a scanner at every start of a word, from the left.
-/

namespace RigWarden.Text

abbrev Scanner (α : Type) := Chars → Option (α × Chars)

def run (p : Char → Bool) (cs : Chars) : Chars × Chars := (cs.takeWhile p, cs.dropWhile p)

def run1 (p : Char → Bool) : Scanner Chars := fun cs =>
  match cs.takeWhile p with
  | [] => none
  | c :: found => some (c :: found, cs.dropWhile p)

def skip (p : Char → Bool) (cs : Chars) : Chars := cs.dropWhile p

def skip1 (p : Char → Bool) (cs : Chars) : Option Chars := (run1 p cs).map Prod.snd

/-- Reads a word written in lower case, in any case. -/
def foldWord : (word : Chars) → Chars → Option Chars
  | [], cs => some cs
  | _ :: _, [] => none
  | w :: word, c :: cs => if foldsTo w c then foldWord word cs else none

def one (p : Char → Bool) : Scanner Char
  | [] => none
  | c :: cs => if p c then some (c, cs) else none

theorem run_append (p : Char → Bool) (cs : Chars) : (run p cs).1 ++ (run p cs).2 = cs :=
  List.takeWhile_append_dropWhile

/-- The first answer of `s` at a place that no word character precedes. -/
def searchFrom {α : Type} (s : Scanner α) : (afterWord : Bool) → Chars → Option α
  | _, [] => none
  | true, c :: cs => searchFrom s (isWord c) cs
  | false, c :: cs =>
    match s (c :: cs) with
    | some (a, _) => some a
    | none => searchFrom s (isWord c) cs

def search {α : Type} (s : Scanner α) (cs : Chars) : Option α := searchFrom s false cs

@[simp] theorem search_nil {α : Type} (s : Scanner α) : search s [] = none := rfl

theorem searchFrom_false_cons {α : Type} (s : Scanner α) (c : Char) (cs : Chars) :
    searchFrom s false (c :: cs) =
      match s (c :: cs) with
      | some (a, _) => some a
      | none => searchFrom s (isWord c) cs := rfl

end RigWarden.Text
