import RigWarden.Text.Trim

/-!
# Pieces between separators

Splitting at a separator undoes joining with it, and the pieces of two texts with a separator
between them are the pieces of each.
-/

namespace RigWarden.Text

variable {α : Type} [DecidableEq α] {sep : α}

theorem splitOn_cons_self (cs : List α) : splitOn sep (sep :: cs) = [] :: splitOn sep cs := by
  simp [splitOn]

theorem splitOn_cons_of_ne {c : α} (h : c ≠ sep) {cs piece : List α} {pieces : List (List α)}
    (hs : splitOn sep cs = piece :: pieces) :
    splitOn sep (c :: cs) = (c :: piece) :: pieces := by
  simp [splitOn, h, hs]

theorem splitOn_of_notMem {cs : List α} (h : sep ∉ cs) : splitOn sep cs = [cs] := by
  induction cs with
  | nil => rfl
  | cons c cs ih =>
    rw [List.mem_cons, not_or] at h
    exact splitOn_cons_of_ne (Ne.symm h.1) (ih h.2)

/-- A text without separators in front goes to the first piece. -/
theorem splitOn_append_of_notMem {as : List α} (h : sep ∉ as) {bs piece : List α}
    {pieces : List (List α)} (hs : splitOn sep bs = piece :: pieces) :
    splitOn sep (as ++ bs) = (as ++ piece) :: pieces := by
  induction as with
  | nil => exact hs
  | cons a as ih =>
    rw [List.mem_cons, not_or] at h
    exact splitOn_cons_of_ne (Ne.symm h.1) (ih h.2)

theorem splitOn_append_cons {as : List α} (h : sep ∉ as) (bs : List α) :
    splitOn sep (as ++ sep :: bs) = as :: splitOn sep bs := by
  rw [splitOn_append_of_notMem h (splitOn_cons_self bs), List.append_nil]

/-- The last piece of the first part goes on in the second. -/
theorem splitOn_append (as bs : List α) :
    splitOn sep (as ++ bs) =
      (splitOn sep as).dropLast ++ splitOn sep ((splitOn sep as).getLastD [] ++ bs) := by
  induction as with
  | nil => rfl
  | cons a as ih =>
    obtain ⟨piece, pieces, hs⟩ := List.exists_cons_of_ne_nil (splitOn_ne_nil sep as)
    by_cases h : a = sep
    · subst h
      rw [List.cons_append, splitOn_cons_self, splitOn_cons_self, ih, hs]
      rfl
    · rw [splitOn_cons_of_ne h hs, List.cons_append]
      rw [hs] at ih
      cases pieces with
      | nil =>
        obtain ⟨first, rest, hf⟩ := List.exists_cons_of_ne_nil (splitOn_ne_nil sep (piece ++ bs))
        change splitOn sep (as ++ bs) = splitOn sep (piece ++ bs) at ih
        change _ = splitOn sep (a :: (piece ++ bs))
        rw [splitOn_cons_of_ne h hf, splitOn_cons_of_ne h (ih.trans hf)]
      | cons next pieces => exact splitOn_cons_of_ne h ih

theorem sep_notMem_getLastD_splitOn (cs : List α) : sep ∉ (splitOn sep cs).getLastD [] := by
  induction cs with
  | nil => simp [splitOn]
  | cons c cs ih =>
    obtain ⟨piece, pieces, hs⟩ := List.exists_cons_of_ne_nil (splitOn_ne_nil sep cs)
    rw [hs] at ih
    by_cases h : c = sep
    · subst h
      rw [splitOn_cons_self, hs]
      exact ih
    · rw [splitOn_cons_of_ne h hs]
      cases pieces with
      | nil => simpa [Ne.symm h] using ih
      | cons next pieces => exact ih

theorem splitOn_append_sep (as bs : List α) :
    splitOn sep (as ++ sep :: bs) = splitOn sep as ++ splitOn sep bs := by
  induction as with
  | nil => exact splitOn_cons_self bs
  | cons a as ih =>
    by_cases h : a = sep
    · rw [h, List.cons_append, splitOn_cons_self, splitOn_cons_self, ih, List.cons_append]
    · obtain ⟨piece, pieces, hs⟩ := List.exists_cons_of_ne_nil (splitOn_ne_nil sep as)
      rw [hs, List.cons_append] at ih
      rw [List.cons_append, splitOn_cons_of_ne h ih, splitOn_cons_of_ne h hs, List.cons_append]

theorem notMem_of_mem_splitOn {cs piece : List α}
    (h : piece ∈ splitOn sep cs) : sep ∉ piece := by
  induction cs generalizing piece with
  | nil =>
    rw [splitOn, List.mem_singleton] at h
    rw [h]
    exact List.not_mem_nil
  | cons c cs ih =>
    by_cases hc : c = sep
    · rw [hc, splitOn_cons_self, List.mem_cons] at h
      rcases h with rfl | h
      · exact List.not_mem_nil
      · exact ih h
    · obtain ⟨first, rest, hs⟩ := List.exists_cons_of_ne_nil (splitOn_ne_nil sep cs)
      rw [splitOn_cons_of_ne hc hs, List.mem_cons] at h
      rw [hs] at ih
      rcases h with rfl | h
      · rw [List.mem_cons, not_or]
        exact ⟨Ne.symm hc, ih List.mem_cons_self⟩
      · exact ih (List.mem_cons_of_mem _ h)

theorem splitOn_intercalate {pieces : List (List α)}
    (hne : pieces ≠ []) (h : ∀ piece ∈ pieces, sep ∉ piece) :
    splitOn sep ([sep].intercalate pieces) = pieces := by
  induction pieces with
  | nil => exact absurd rfl hne
  | cons piece pieces ih =>
    cases pieces with
    | nil => simpa [List.intercalate] using splitOn_of_notMem (h piece List.mem_cons_self)
    | cons next pieces =>
      rw [List.intercalate_cons_cons, List.append_assoc, List.singleton_append,
        splitOn_append_cons (h piece List.mem_cons_self),
        ih nofun fun q hq => h q (List.mem_cons_of_mem _ hq)]

end RigWarden.Text
