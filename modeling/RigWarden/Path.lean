import RigWarden.Text.Trim

/-!
# Path texts

A path is kept as the text it was given. Joining keeps both texts and puts one slash between them
unless the first already ends with one or is empty; an absolute second path stands alone. The
components of a path are its names, with empty ones and inner dots left out.
-/

namespace RigWarden

open Text

abbrev Path := String

namespace Path

def isAbsolute (p : Path) : Bool := p.toList.head? = some '/'

def join (base child : Path) : Path :=
  if isAbsolute child then child
  else if base = "" ∨ base.toList.getLast? = some '/' then base ++ child
  else base ++ "/" ++ child

inductive Component where
  | root
  | here
  | up
  | name (s : String)
  deriving Repr, DecidableEq

def Component.ofPiece (piece : Chars) : Option Component :=
  if piece = [] then none
  else if piece = ['.'] then some .here
  else if piece = ['.', '.'] then some .up
  else some (.name (.ofList piece))

/-- Every step of the way that a path describes, dots included. -/
def steps (p : Path) : List Component :=
  let names := (splitOn '/' p.toList).filterMap Component.ofPiece
  if isAbsolute p then .root :: names else names

/-- The components of a path: a root for a slash in front, a dot only at the very start. -/
def components (p : Path) : List Component :=
  match steps p with
  | first :: rest => first :: rest.filter (· != .here)
  | [] => []

/-- A slash at the end of a path says that it is about a directory. -/
def endsInSlash (p : Path) : Bool := p.toList.getLast? = some '/'

/-- What comes before the names of a path: a slash, a dot or nothing. -/
def head (cs : Chars) : Chars :=
  match cs with
  | '/' :: _ => ['/']
  | ['.'] => ['.']
  | '.' :: '/' :: _ => ['.']
  | _ => []

/-- Drops empty pieces and dots from the end. -/
def dropIdle (pieces : List Chars) : List Chars :=
  (pieces.reverse.dropWhile fun piece => Component.ofPiece piece == none || piece == ['.']).reverse

/-- The path without its last component, if it has one. Slashes and dots at the end do not count,
and those before the last component go with it. -/
def parent? (p : Path) : Option Path :=
  let start := head p.toList
  let pieces := dropIdle (splitOn '/' (p.toList.drop start.length))
  if pieces ≠ [] then
    some (.ofList (start ++ ['/'].intercalate (dropIdle pieces.dropLast)))
  else if start = ['.'] then some ""
  else none

end Path
end RigWarden
