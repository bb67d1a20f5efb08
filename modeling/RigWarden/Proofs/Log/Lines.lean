import RigWarden.Log.Tailer
import RigWarden.Proofs.Text.Pieces

/-!
# Lines of a growing log

Reading bytes in two parts gives the same lines as reading them at once, provided the unfinished
line of the first part is put in front of the second. The lines of several outputs, one after the
other, are those of each output on its own unless one of them completes a line that an earlier one
left unfinished.
-/

namespace RigWarden.Log

open Text

/-- The bytes of the complete lines, empty ones left out. -/
def rawLines (bs : Bytes) : List Bytes := (splitOn lineFeed bs).dropLast.filter (· ≠ [])

theorem completeLines_eq (bs : Bytes) : completeLines bs = (rawLines bs).map lineText := rfl

theorem lineFeed_notMem_unfinished (bs : Bytes) : lineFeed ∉ unfinished bs :=
  sep_notMem_getLastD_splitOn bs

theorem unfinished_of_notMem {bs : Bytes} (h : lineFeed ∉ bs) : unfinished bs = bs := by
  rw [unfinished, splitOn_of_notMem h]
  rfl

theorem rawLines_of_notMem {bs : Bytes} (h : lineFeed ∉ bs) : rawLines bs = [] := by
  rw [rawLines, splitOn_of_notMem h]
  rfl

theorem rawLines_append_cons {as : Bytes} (h : lineFeed ∉ as) (bs : Bytes) :
    rawLines (as ++ lineFeed :: bs) = [as].filter (· ≠ []) ++ rawLines bs := by
  rw [rawLines, splitOn_append_cons h, List.dropLast_cons_of_ne_nil (splitOn_ne_nil _ _),
    ← List.singleton_append, List.filter_append, rawLines]

theorem unfinished_append (as bs : Bytes) :
    unfinished (as ++ bs) = unfinished (unfinished as ++ bs) := by
  rw [unfinished, splitOn_append, List.getLastD_eq_getLast?, List.getLast?_append,
    List.getLast?_eq_some_getLast (splitOn_ne_nil _ _), Option.some_or,
    ← List.getLast?_eq_some_getLast (splitOn_ne_nil _ _), ← List.getLastD_eq_getLast?]
  rfl

theorem rawLines_append (as bs : Bytes) :
    rawLines (as ++ bs) = rawLines as ++ rawLines (unfinished as ++ bs) := by
  rw [rawLines, splitOn_append, List.dropLast_append_of_ne_nil (splitOn_ne_nil _ _),
    List.filter_append]
  rfl

/-- The lines completed by each of several outputs, after an unfinished line. -/
def stretches (carry : Bytes) : List Bytes → List (List Bytes)
  | [] => []
  | out :: outs => rawLines (carry ++ out) :: stretches (unfinished (carry ++ out)) outs

@[simp] theorem stretches_nil (carry : Bytes) : stretches carry [] = [] := rfl

theorem stretches_cons (carry out : Bytes) (outs : List Bytes) :
    stretches carry (out :: outs) =
      rawLines (carry ++ out) :: stretches (unfinished (carry ++ out)) outs := rfl

theorem stretches_snoc {carry : Bytes} (h : lineFeed ∉ carry) (outs : List Bytes) (out : Bytes) :
    stretches carry (outs ++ [out]) =
      stretches carry outs ++ [rawLines (unfinished (carry ++ outs.flatten) ++ out)] := by
  induction outs generalizing carry with
  | nil => simp [stretches, unfinished_of_notMem h]
  | cons first outs ih =>
    rw [List.cons_append, stretches_cons, ih (lineFeed_notMem_unfinished _), stretches_cons,
      List.cons_append, List.flatten_cons, ← List.append_assoc, ← unfinished_append]

/-- The texts of the lines that each of several outputs completes. -/
def heard (outs : List Bytes) : List (List Chars) := (stretches [] outs).map (·.map lineText)

theorem heard_snoc (outs : List Bytes) (out : Bytes) :
    heard (outs ++ [out]) = heard outs ++ [completeLines (unfinished outs.flatten ++ out)] := by
  rw [heard, stretches_snoc List.not_mem_nil, List.map_append]
  rfl

theorem heard_snoc_append (outs : List Bytes) (out more : Bytes) :
    heard (outs ++ [out ++ more]) =
      heard outs ++ [completeLines (unfinished outs.flatten ++ out) ++
        completeLines (unfinished (outs.flatten ++ out) ++ more)] := by
  rw [heard_snoc, unfinished_append outs.flatten out, completeLines_eq, ← List.append_assoc,
    rawLines_append, List.map_append]
  rfl

/-- A look at a log that has grown gives the lines completed by what was added. -/
theorem Tailer.poll_append {t : Tailer} {seen : Bytes} (h : t.position = seen.length)
    (added : Bytes) :
    t.poll (.content (seen ++ added)) =
      (.ok (completeLines (t.pending ++ added)),
        ⟨(seen ++ added).length, unfinished (t.pending ++ added)⟩) := by
  have hr : t.rewind (seen ++ added).length = t := if_neg (by simp [h])
  simp only [poll, hr, h, List.drop_left]

end RigWarden.Log
