import RigWarden.Config.KeyValue
import RigWarden.Proofs.Text.Pieces
import RigWarden.Proofs.Text.Split
import RigWarden.Proofs.Text.Trim
import RigWarden.Proofs.Text.Utf8

/-!
# Reading back `key = value` texts

The entries of a rendered text are its own, in order, and those on further lines of a value that
holds line feeds. What one list of entries says of a key gives way to what a later one says.
-/

namespace RigWarden.Text.KeyMap

variable {α : Type}

theorem get?_foldl_insert (es : List (String × α)) (m : KeyMap α) (key : String) :
    (es.foldl (fun m e => m.insert e.1 e.2) m).get? key =
      ((ofList es).get? key).or (m.get? key) := by
  induction es generalizing m with
  | nil => rfl
  | cons e es ih =>
    have hcons : (ofList (e :: es)).get? key =
        ((ofList es).get? key).or ((insert [] e.1 e.2).get? key) := ih _
    have hfirst : (m.insert e.1 e.2).get? key = ((insert [] e.1 e.2).get? key).or (m.get? key) := by
      by_cases h : e.1 = key
      · subst h
        simp
      · rw [get?_insert_of_ne _ h, get?_insert_of_ne _ h, get?_nil, Option.none_or]
    rw [List.foldl_cons, ih, hcons, hfirst, Option.or_assoc]

/-- The entries that come later count first. -/
theorem get?_ofList_append (as bs : List (String × α)) (key : String) :
    (ofList (as ++ bs)).get? key = ((ofList bs).get? key).or ((ofList as).get? key) := by
  rw [ofList, List.foldl_append, get?_foldl_insert, ← ofList]

end RigWarden.Text.KeyMap

namespace RigWarden.KeyValue

open Text

def isKeyChar (c : Char) : Bool := !isBlank c && c != '=' && c != '#' && c != '\n'

/-- A key that can be told from comments, equals signs and the blanks around it. -/
def isKey (key : String) : Bool := !key.toList.isEmpty && key.toList.all isKeyChar

theorem exists_of_isKey {key : String} (h : isKey key = true) : ∃ c cs, key.toList = c :: cs := by
  rw [isKey, Bool.and_eq_true] at h
  exact List.exists_cons_of_ne_nil (by simpa using h.1)

theorem isKeyChar_of_mem {key : String} (h : isKey key = true) {c : Char} (hc : c ∈ key.toList) :
    isBlank c = false ∧ c ≠ '=' ∧ c ≠ '#' ∧ c ≠ '\n' := by
  rw [isKey, Bool.and_eq_true] at h
  simpa [isKeyChar, and_assoc] using List.all_eq_true.1 h.2 c hc

/-- The entry of a line is that of the line without the blanks around it. -/
theorem entry?_congr {as bs : Chars} (h : trimChars as = trimChars bs) : entry? as = entry? bs := by
  unfold entry?
  rw [h]

theorem entry?_comment (cs : Chars) : entry? ('#' :: cs) = none := by
  have htrim : trimChars ('#' :: cs) = '#' :: trimEnd cs := by
    rw [trimChars, trimStart_cons, if_neg (by decide), trimEnd_cons_of_not_blank (by decide)]
  unfold entry?
  rw [htrim]
  rfl

theorem equals_notMem {key : String} (hkey : isKey key = true) : '=' ∉ key.toList ++ [' '] := by
  intro h
  rcases List.mem_append.1 h with h | h
  · exact (isKeyChar_of_mem hkey h).2.1 rfl
  · simp at h

/-- Trimming a line that begins with a key leaves what stands before its equals sign. -/
theorem trimChars_assign {key : String} (hkey : isKey key = true) (value : Chars) :
    trimChars (key.toList ++ " = ".toList ++ value) =
      (key.toList ++ [' ']) ++ '=' :: trimEnd (' ' :: value) := by
  obtain ⟨c, cs, hcs⟩ := exists_of_isKey hkey
  have hblank : isBlank c = false := (isKeyChar_of_mem hkey (by simp [hcs])).1
  have htext : key.toList ++ " = ".toList ++ value =
      (key.toList ++ [' ']) ++ '=' :: ' ' :: value := by
    simp
  have hstart : trimStart (key.toList ++ " = ".toList ++ value) =
      key.toList ++ " = ".toList ++ value := by
    rw [hcs, List.cons_append, List.cons_append, trimStart_cons, hblank, if_neg (by simp)]
  rw [trimChars, hstart, htext, trimEnd_append_cons (by decide)]

theorem entry?_assign {key : String} (hkey : isKey key = true) (value : Chars) :
    entry? (key.toList ++ " = ".toList ++ value) = some (key, .ofList (trimChars value)) := by
  obtain ⟨c, cs, hcs⟩ := exists_of_isKey hkey
  have hc : c ≠ '#' := (isKeyChar_of_mem hkey (by simp [hcs])).2.2.1
  have hname : trimChars (key.toList ++ [' ']) = key.toList := by
    rw [trimChars_concat_of_blank (by decide),
      trimChars_of_not_blank fun c hc => (isKeyChar_of_mem hkey hc).1]
  have hvalue : trimChars (trimEnd (' ' :: value)) = trimChars value := by
    rw [trimChars_trimEnd, trimChars_cons_of_blank (by decide)]
  have hsplit := splitFirst_append (equals_notMem hkey) (trimEnd (' ' :: value))
  unfold entry?
  rw [trimChars_assign hkey, hcs, List.cons_append, List.cons_append]
  split
  next h => cases h
  next h => exact absurd (List.cons.inj h).1 hc
  next h =>
    rw [← List.cons_append, ← List.cons_append, ← hcs, hsplit, Option.map_some, hname, hvalue,
      String.ofList_toList]

/-! Lines -/

/-- The entries of a text, one line after the other. -/
def entries (cs : Chars) : List (String × String) := (splitOn '\n' cs).filterMap entry?

theorem entry?_line (cs : Chars) : entry? (dropLastIf '\r' cs) = entry? cs :=
  entry?_congr (trimChars_dropLastIf (by decide) cs)

/-- How a line ends makes no difference to the entries. -/
theorem filterMap_lines (cs : Chars) : (lines cs).filterMap entry? = entries cs := by
  have hpieces : splitOn '\n' cs =
      (splitOn '\n' cs).dropLast ++ [(splitOn '\n' cs).getLastD []] := by
    rw [List.getLastD_eq_getLast?, List.getLast?_eq_some_getLast (splitOn_ne_nil _ _),
      Option.getD_some, List.dropLast_concat_getLast]
  have hlast (last : Chars) :
      (if last = [] then [] else [last]).filterMap entry? = [last].filterMap entry? := by
    split
    next h => rw [h]; rfl
    next => rfl
  have hline : entry? ∘ dropLastIf '\r' = entry? := funext entry?_line
  rw [entries, lines, List.filterMap_append, List.filterMap_map, hline, hlast,
    ← List.filterMap_append, ← hpieces]

theorem parseChars_eq (cs : Chars) : parseChars cs = .ofList (entries cs) := by
  rw [parseChars, filterMap_lines]

theorem entries_append (as bs : Chars) : entries (as ++ '\n' :: bs) = entries as ++ entries bs := by
  rw [entries, splitOn_append_sep, List.filterMap_append, entries, entries]

/-- What an entry contributes: itself, with the value up to its first line feed, and the entries on
the further lines of the value. -/
def contribution (e : String × String) : List (String × String) :=
  match splitOn '\n' e.2.toList with
  | [] => []
  | first :: later => (e.1, .ofList (trimChars first)) :: later.filterMap entry?

theorem contribution_of_notMem {e : String × String} (h : '\n' ∉ e.2.toList) :
    contribution e = [(e.1, trim e.2)] := by
  rw [contribution, splitOn_of_notMem h]
  rfl

theorem entries_renderEntry {e : String × String} (hkey : isKey e.1 = true) (cs : Chars) :
    entries (renderEntry e ++ cs) = contribution e ++ entries cs := by
  obtain ⟨first, later, hs⟩ := List.exists_cons_of_ne_nil (splitOn_ne_nil '\n' e.2.toList)
  have hline : '\n' ∉ e.1.toList ++ " = ".toList := by
    intro h
    rcases List.mem_append.1 h with h | h
    · exact (isKeyChar_of_mem hkey h).2.2.2 rfl
    · simp at h
  have htext : renderEntry e ++ cs = (e.1.toList ++ " = ".toList ++ e.2.toList) ++ '\n' :: cs := by
    simp [renderEntry]
  have hsplit := splitOn_append_of_notMem hline hs
  rw [htext, entries_append, entries.eq_1 (_ ++ _), hsplit, List.filterMap_cons_some
    (entry?_assign hkey first), contribution, hs]

theorem entries_flatMap {es : List (String × String)} (hkeys : ∀ e ∈ es, isKey e.1 = true) :
    entries (es.flatMap renderEntry) = es.flatMap contribution := by
  induction es with
  | nil => rfl
  | cons e es ih =>
    rw [List.flatMap_cons, entries_renderEntry (hkeys e (by simp)),
      ih fun e' he => hkeys e' (by simp [he]), List.flatMap_cons]

/-- A rendered text reads back as the contributions of its entries. -/
theorem parse_render {header : String} (hcomment : header.toList.head? = some '#')
    (hline : '\n' ∉ header.toList) {es : List (String × String)}
    (hkeys : ∀ e ∈ es, isKey e.1 = true) :
    parse (render header es) = .ofList (es.flatMap contribution) := by
  obtain ⟨cs, hcs⟩ := List.head?_eq_some_iff.1 hcomment
  have hnone : entries header.toList = [] := by
    rw [entries, splitOn_of_notMem hline, hcs, List.filterMap_cons_none (entry?_comment cs)]
    rfl
  rw [parse, chars_eq_toList, parseChars_eq, render, String.toList_ofList, entries_append, hnone,
    List.nil_append, entries_flatMap hkeys]

end RigWarden.KeyValue
