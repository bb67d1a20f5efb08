import RigWarden.Error
import RigWarden.Text.Scan
import RigWarden.Text.Utf8

/-!
# Templates

A token is a name between double braces, blanks allowed around it. Filling in replaces every token
by the value of its name, or fails at the first token without one; what is filled in is not looked
at again. Tokens are found from the left and do not overlap.
-/

namespace RigWarden.Template

open Text

def isNameChar (c : Char) : Bool := (97 ≤ c.toNat && c.toNat ≤ 122) || c == '_'

def token : Scanner Chars := fun cs => do
  let cs ← dropStart? ['\x7b', '\x7b'] cs
  let (name, cs) ← run1 isNameChar (skip isBlank cs)
  let cs ← dropStart? ['\x7d', '\x7d'] (skip isBlank cs)
  return (name, cs)

inductive Piece where
  | char (c : Char)
  | token (name source : Chars)
  deriving Repr, DecidableEq

/-- The first `skipped` characters belong to a token already read. -/
def piecesFrom : (skipped : Nat) → Chars → List Piece
  | _, [] => []
  | skipped + 1, _ :: cs => piecesFrom skipped cs
  | 0, c :: cs =>
    match token (c :: cs) with
    | some (name, rest) =>
      .token name ((c :: cs).take (cs.length + 1 - rest.length)) ::
        piecesFrom (cs.length - rest.length) cs
    | none => .char c :: piecesFrom 0 cs

def pieces (cs : Chars) : List Piece := piecesFrom 0 cs

def Piece.source : Piece → Chars
  | char c => [c]
  | token _ source => source

def Piece.name? : Piece → Option Chars
  | char _ => none
  | token name _ => some name

abbrev Values := List (String × String)

def valueOf? (values : Values) (name : Chars) : Option String :=
  (values.find? fun v => v.1.toList == name).map Prod.snd

def Piece.fill (values : Values) : Piece → Chars
  | char c => [c]
  | token name source => ((valueOf? values name).map String.toList).getD source

def missing? (values : Values) (ps : List Piece) : Option Chars :=
  (ps.filterMap Piece.name?).find? fun name => (valueOf? values name).isNone

def fill (template : String) (values : Values) : Except Error String :=
  let ps := pieces (chars template)
  match missing? values ps with
  | some name => .error (.configuration (.ofList name) .templateValueMissing)
  | none => .ok (.ofList (ps.flatMap (Piece.fill values)))

def unresolved? (text : String) : Option String :=
  (pieces (chars text)).findSome? fun p => p.name?.map fun _ => .ofList p.source

end RigWarden.Template
