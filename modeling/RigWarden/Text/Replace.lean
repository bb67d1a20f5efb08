import RigWarden.Text.Trim

/-!
# Replacing text

Every occurrence of a text, found from the left and without overlaps, gives way to another.
-/

namespace RigWarden.Text

/-- `skip` characters belong to an occurrence that was replaced already. -/
def replaceFrom (old new : Chars) : (skip : Nat) → Chars → Chars
  | _, [] => []
  | skip + 1, _ :: cs => replaceFrom old new skip cs
  | 0, c :: cs =>
    match dropStart? old (c :: cs) with
    | some _ => new ++ replaceFrom old new (old.length - 1) cs
    | none => c :: replaceFrom old new 0 cs

def replace (old new s : String) : String :=
  .ofList (replaceFrom old.toList new.toList 0 s.toList)

end RigWarden.Text
