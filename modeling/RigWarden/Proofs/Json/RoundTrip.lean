import RigWarden.Json.Reader
import RigWarden.Json.Writer
import RigWarden.Proofs.Number.Digits
import RigWarden.Proofs.Text.Utf8

/-!
# Reading back what was written

A value whose numbers are whole reads back from its indented text. Strings are read back whatever
characters they hold; a number is read up to the first character that cannot continue it.
-/

namespace RigWarden.Json

open Text Number

mutual

/-- Every number of the value is a whole one, and every string has a meaning. -/
def Plain : Json → Prop
  | .broken => False
  | .number t => ∃ i, t = signed i
  | .array items => PlainItems items
  | .object fields => PlainFields fields
  | _ => True

def PlainItems : List Json → Prop
  | [] => True
  | j :: js => Plain j ∧ PlainItems js

def PlainFields : List (String × Json) → Prop
  | [] => True
  | f :: fs => PlainField f ∧ PlainFields fs

def PlainField : String × Json → Prop
  | (_, j) => Plain j

end

/-! Strings -/

theorem hexNumber?_code : ∀ n < 32,
    hexNumber? ['0', '0', hexDigit (n / 16), hexDigit (n % 16)] = some n := by
  decide

theorem joinUnits_escape {code : Nat} (h : code < 0xD800) (units : List StringUnit) :
    joinUnits (.escape code :: units) = (joinUnits units).map (Char.ofNat code :: ·) := by
  have hhigh : ¬ (0xD800 ≤ code ∧ code ≤ 0xDBFF) := by omega
  have hlow : ¬ (0xDC00 ≤ code ∧ code ≤ 0xDFFF) := by omega
  have hlone : ¬ (0xD800 ≤ code ∧ code ≤ 0xDFFF) := by omega
  cases units with
  | nil => simp [joinUnits, hlone]
  | cons u units =>
    cases u with
    | char c => simp [joinUnits, hlone]
    | escape low => simp [joinUnits, hhigh, hlow]

theorem readUnits_plain {c : Char} (hq : c ≠ '"') (hb : c ≠ '\\') (hc : 32 ≤ c.toNat)
    (rest : Chars) :
    readUnits (c :: rest) = (readUnits rest).map fun p => (.char c :: p.1, p.2) := by
  have hlow : ¬ c.toNat < 32 := Nat.not_lt.2 hc
  rw [readUnits]
  · simp only [hlow, hb, or_self, if_false]
    cases readUnits rest <;> rfl
  · exact hq
  · exact fun _ _ _ _ _ h => absurd h hb
  · exact fun _ _ h => absurd h hb

theorem readUnits_simple {e c : Char} (h : simpleEscape? e = some c) (rest : Chars) :
    readUnits ('\\' :: e :: rest) = (readUnits rest).map fun p => (.char c :: p.1, p.2) := by
  have he : e ≠ 'u' := fun hu => by
    subst hu
    cases h
  rw [readUnits]
  · simp only [h]
    cases readUnits rest <;> rfl
  · exact fun _ _ _ _ _ h => absurd h he

theorem readUnits_code {n : Nat} (h : n < 32) (rest : Chars) :
    readUnits ('\\' :: 'u' :: '0' :: '0' :: hexDigit (n / 16) :: hexDigit (n % 16) :: rest) =
      (readUnits rest).map fun p => (.escape n :: p.1, p.2) := by
  rw [readUnits, hexNumber?_code n h]
  cases readUnits rest <;> rfl

/-- A character is written as one unit, which stands for it. -/
theorem exists_unit (c : Char) : ∃ u,
    (∀ rest, readUnits (escapeChar c ++ rest) = (readUnits rest).map fun p => (u :: p.1, p.2)) ∧
      ∀ units, joinUnits (u :: units) = (joinUnits units).map (c :: ·) := by
  have hsimple {e : Char} (h : simpleEscape? e = some c) (hw : escapeChar c = ['\\', e]) : ∃ u,
      (∀ rest, readUnits (escapeChar c ++ rest) = (readUnits rest).map fun p => (u :: p.1, p.2)) ∧
        ∀ units, joinUnits (u :: units) = (joinUnits units).map (c :: ·) :=
    ⟨.char c, fun rest => by rw [hw]; exact readUnits_simple h rest, fun _ => by rw [joinUnits]⟩
  by_cases hquote : c = '"'
  · subst hquote
    exact hsimple rfl rfl
  by_cases hslash : c = '\\'
  · subst hslash
    exact hsimple rfl rfl
  by_cases hback : c = '\x08'
  · subst hback
    exact hsimple rfl rfl
  by_cases hfeed : c = '\x0c'
  · subst hfeed
    exact hsimple rfl rfl
  by_cases hline : c = '\n'
  · subst hline
    exact hsimple rfl rfl
  by_cases hreturn : c = '\r'
  · subst hreturn
    exact hsimple rfl rfl
  by_cases htab : c = '\t'
  · subst htab
    exact hsimple rfl rfl
  by_cases hcode : c.toNat < 32
  · refine ⟨.escape c.toNat, fun rest => ?_, fun units => ?_⟩
    · simp only [escapeChar, hquote, hslash, hback, hfeed, hline, hreturn, htab, hcode, if_false,
        if_true]
      exact readUnits_code hcode rest
    · rw [joinUnits_escape (by omega), Char.ofNat_toNat]
  · refine ⟨.char c, fun rest => ?_, fun units => by rw [joinUnits]⟩
    simp only [escapeChar, hquote, hslash, hback, hfeed, hline, hreturn, htab, hcode, if_false]
    exact readUnits_plain hquote hslash (Nat.not_lt.1 hcode) rest

theorem exists_units (cs rest : Chars) : ∃ units,
    readUnits (cs.flatMap escapeChar ++ '"' :: rest) = some (units, rest) ∧
      joinUnits units = some cs := by
  induction cs with
  | nil => exact ⟨[], by simp [readUnits], by simp [joinUnits]⟩
  | cons c cs ih =>
    obtain ⟨units, hread, hjoin⟩ := ih
    obtain ⟨u, hu, hc⟩ := exists_unit c
    refine ⟨u :: units, ?_, ?_⟩
    · rw [List.flatMap_cons, List.append_assoc, hu, hread]
      rfl
    · rw [hc, hjoin]
      rfl

theorem quote_append (s : String) (rest : Chars) :
    quote s ++ rest = '"' :: (s.toList.flatMap escapeChar ++ '"' :: rest) := by
  simp [quote]

theorem readString_escape (s : String) (rest : Chars) :
    readString (s.toList.flatMap escapeChar ++ '"' :: rest) = some (.string s, rest) := by
  obtain ⟨units, hread, hjoin⟩ := exists_units s.toList rest
  simp [readString, hread, hjoin]

theorem readName_quote (s : String) (rest : Chars) :
    readName (quote s ++ ':' :: rest) = some (some s, rest) := by
  obtain ⟨units, hread, hjoin⟩ := exists_units s.toList (':' :: rest)
  rw [quote_append, readName, hread]
  simp [hjoin, skipSpace, isSpace]

/-! Numbers -/

/-- The rest of the text does not continue a number. -/
def EndsNumber (rest : Chars) : Prop :=
  ∀ c ∈ rest.head?, isAsciiDigit c = false ∧ c ≠ '.' ∧ c ≠ 'e' ∧ c ≠ 'E'

theorem takeDigits_append {ds rest : Chars} (hd : ds.all isAsciiDigit = true)
    (hr : EndsNumber rest) : takeDigits (ds ++ rest) = (ds, rest) := by
  have hrest : rest.takeWhile isAsciiDigit = [] ∧ rest.dropWhile isAsciiDigit = rest := by
    cases rest with
    | nil => exact ⟨rfl, rfl⟩
    | cons c rest => simp [(hr c rfl).1]
  have hall : ∀ c ∈ ds, isAsciiDigit c = true := List.all_eq_true.1 hd
  rw [takeDigits, List.takeWhile_append_of_pos hall, List.dropWhile_append_of_pos hall, hrest.1,
    hrest.2, List.append_nil]

theorem readWhole_digits (n : Nat) {rest : Chars} (hr : EndsNumber rest) :
    readWhole (digits n ++ rest) = some (digits n, rest) := by
  obtain ⟨c, ds, hds⟩ := List.exists_cons_of_ne_nil (digits_ne_nil n)
  by_cases hc : c = '0'
  · subst hc
    obtain ⟨rfl, rfl⟩ := eq_zero_of_digits hds
    rw [hds]
    rfl
  · have htake := takeDigits_append (all_digits n) hr
    rw [hds] at htake ⊢
    rw [List.cons_append, readWhole]
    · rw [← List.cons_append, htake]
    · simpa using hc

theorem readFraction_of_ends {rest : Chars} (hr : EndsNumber rest) :
    readFraction rest = some ([], rest) := by
  cases rest with
  | nil => rfl
  | cons c rest =>
    rw [readFraction]
    simpa using (hr c rfl).2.1

theorem readPower_of_ends {rest : Chars} (hr : EndsNumber rest) :
    readPower rest = some ([], rest) := by
  cases rest with
  | nil => rfl
  | cons c rest =>
    obtain ⟨-, -, hl, hu⟩ := hr c rfl
    simp [readPower, hl, hu]

theorem exists_digit (n : Nat) (rest : Chars) :
    ∃ c cs, digits n ++ rest = c :: cs ∧ isAsciiDigit c = true := by
  obtain ⟨c, ds, hds⟩ := List.exists_cons_of_ne_nil (digits_ne_nil n)
  exact ⟨c, ds ++ rest, by rw [hds]; rfl, isAsciiDigit_of_mem_digits (n := n) (by simp [hds])⟩

theorem readNumber_signed (i : Int) {rest : Chars} (hr : EndsNumber rest) :
    readNumber ((signed i).toList ++ rest) = some (.number (signed i), rest) := by
  have hwhole := readWhole_digits i.natAbs hr
  have hfraction := readFraction_of_ends hr
  have hpower := readPower_of_ends hr
  by_cases hi : i < 0
  · have hs : signed i = .ofList ('-' :: digits i.natAbs) := by
      rw [signed, if_pos hi, decimal, ← String.ofList_toList (s := "-" ++ _)]
      simp
    rw [hs, String.toList_ofList, List.cons_append, readNumber]
    simp only [hwhole, Option.bind_eq_bind, Option.bind_some, hfraction, hpower]
    simp
  · have hs : signed i = .ofList (digits i.natAbs) := by rw [signed, if_neg hi, decimal]
    obtain ⟨c, cs, hcs, hc⟩ := exists_digit i.natAbs rest
    have hne : c ≠ '-' := fun h => by
      subst h
      cases hc
    rw [hs, String.toList_ofList, readNumber]
    · simp only [hwhole, Option.bind_eq_bind, Option.bind_some, hfraction, hpower]
      simp
    · intro _ h
      exact hne (List.cons.inj (hcs.symm.trans h)).1

/-! Values -/

theorem skipSpace_newline (depth : Nat) (cs : Chars) :
    skipSpace (newline depth ++ cs) = skipSpace cs := by
  have hblank : ∀ c ∈ newline depth, isSpace c = true := by
    intro c hc
    rcases List.mem_cons.1 hc with rfl | hc
    · rfl
    · rw [List.eq_of_mem_replicate hc]
      rfl
  exact List.dropWhile_append_of_pos hblank

theorem skipSpace_skipSpace (cs : Chars) : skipSpace (skipSpace cs) = skipSpace cs := by
  induction cs with
  | nil => rfl
  | cons c cs ih => by_cases h : isSpace c <;> simp_all [skipSpace]

theorem skipSpace_cons {c : Char} (h : isSpace c = false) (cs : Chars) :
    skipSpace (c :: cs) = c :: cs := by
  simp [skipSpace, h]

theorem skipSpace_newline_cons {c : Char} (h : isSpace c = false) (depth : Nat) (cs : Chars) :
    skipSpace (newline depth ++ c :: cs) = c :: cs := by
  rw [skipSpace_newline, skipSpace_cons h]

theorem skipSpace_blank (cs : Chars) : skipSpace (' ' :: cs) = skipSpace cs := rfl

theorem skipSpace_quote (s : String) (cs : Chars) : skipSpace (quote s ++ cs) = quote s ++ cs := by
  rw [quote_append]
  exact skipSpace_cons rfl _

section blanks

variable {cs ds : Chars} (h : skipSpace cs = skipSpace ds) (fuel : Nat)
include h

theorem readValue_congr : readValue fuel cs = readValue fuel ds := by
  cases fuel with
  | zero => rfl
  | succ fuel => simp only [readValue, h]

theorem readItems_congr : readItems fuel cs = readItems fuel ds := by
  cases fuel with
  | zero => rfl
  | succ fuel => simp only [readItems, readValue_congr h]

theorem readFields_congr : readFields fuel cs = readFields fuel ds := by
  cases fuel with
  | zero => rfl
  | succ fuel => simp only [readFields, h]

end blanks

/-- A number begins with a digit or a sign. -/
def BeginsNumber (c : Char) : Prop := isAsciiDigit c = true ∨ c = '-'

theorem BeginsNumber.ne {c x : Char} (h : BeginsNumber c) (hx : isAsciiDigit x = false ∧ x ≠ '-') :
    c ≠ x := by
  rintro rfl
  rcases h with h | h
  · simp [hx.1] at h
  · exact hx.2 h

theorem BeginsNumber.isSpace {c : Char} (h : BeginsNumber c) : isSpace c = false := by
  have h1 : c ≠ ' ' := h.ne (by decide)
  have h2 : c ≠ '\n' := h.ne (by decide)
  have h3 : c ≠ '\t' := h.ne (by decide)
  have h4 : c ≠ '\r' := h.ne (by decide)
  simp [Json.isSpace, h1, h2, h3, h4]

theorem signed_begins (i : Int) : ∃ c cs, (signed i).toList = c :: cs ∧ BeginsNumber c := by
  by_cases hi : i < 0
  · exact ⟨'-', digits i.natAbs, by simp [signed, hi, decimal], .inr rfl⟩
  · obtain ⟨c, cs, hcs, hc⟩ := exists_digit i.natAbs []
    rw [List.append_nil] at hcs
    exact ⟨c, cs, by simp [signed, hi, decimal, hcs], .inl hc⟩

theorem readValue_number (fuel : Nat) {c : Char} (h : BeginsNumber c) (cs : Chars) :
    readValue (fuel + 1) (c :: cs) = readNumber (c :: cs) := by
  have hword {w : Char} (ws : Chars) (hw : isAsciiDigit w = false ∧ w ≠ '-') :
      dropStart? (w :: ws) (c :: cs) = none := by
    rw [dropStart?, if_neg (h.ne hw).symm]
  have hnull : dropStart? "null".toList (c :: cs) = none := hword _ (by decide)
  have htrue : dropStart? "true".toList (c :: cs) = none := hword _ (by decide)
  have hfalse : dropStart? "false".toList (c :: cs) = none := hword _ (by decide)
  rw [readValue, skipSpace_cons h.isSpace]
  split
  next heq => exact absurd (List.cons.inj heq).1 (h.ne (by decide))
  next heq => exact absurd (List.cons.inj heq).1 (h.ne (by decide))
  next heq => exact absurd (List.cons.inj heq).1 (h.ne (by decide))
  next => simp only [hnull, htrue, hfalse]

theorem endsNumber_cons {c : Char} (h : isAsciiDigit c = false ∧ c ≠ '.' ∧ c ≠ 'e' ∧ c ≠ 'E')
    (cs : Chars) : EndsNumber (c :: cs) := fun x hx => by
  obtain rfl : c = x := by simpa using hx
  exact h

theorem endsNumber_newline (depth : Nat) (cs : Chars) : EndsNumber (newline depth ++ cs) :=
  endsNumber_cons (by decide) _

/-- The first character of a value is no blank and closes nothing. -/
theorem exists_first {j : Json} (h : j.Plain) (depth : Nat) : ∃ c cs,
    prettyChars depth j = c :: cs ∧ isSpace c = false ∧ c ≠ ']' := by
  cases j with
  | null => exact ⟨'n', _, rfl, rfl, by decide⟩
  | bool b => cases b <;> exact ⟨_, _, rfl, rfl, by decide⟩
  | number t =>
    obtain ⟨i, rfl⟩ := h
    obtain ⟨c, cs, hcs, hc⟩ := signed_begins i
    exact ⟨c, cs, by rw [prettyChars, hcs], hc.isSpace, hc.ne (by decide)⟩
  | string s => exact ⟨'"', _, by rw [prettyChars]; rfl, rfl, by decide⟩
  | broken => exact absurd h id
  | array items =>
    rw [prettyChars]
    split <;> exact ⟨'[', _, rfl, rfl, by decide⟩
  | object fields =>
    rw [prettyChars]
    split <;> exact ⟨'\x7b', _, rfl, rfl, by decide⟩

theorem readValue_list {cs rest : Chars} {c : Char} (h : skipSpace cs = c :: rest) (hc : c ≠ ']')
    (fuel : Nat) : readValue (fuel + 1) ('[' :: cs) =
      (readItems fuel cs).map fun p => (.array p.1, p.2) := by
  rw [readValue, skipSpace_cons rfl]
  simp only
  split
  next heq => exact absurd (List.cons.inj (h.symm.trans heq)).1 hc
  next => rw [readItems_congr (skipSpace_skipSpace cs)]

theorem readValue_object {cs rest : Chars} {c : Char} (h : skipSpace cs = c :: rest)
    (hc : c ≠ '\x7d') (fuel : Nat) : readValue (fuel + 1) ('\x7b' :: cs) =
      (readFields fuel cs).map fun p => (ofFields p.1, p.2) := by
  rw [readValue, skipSpace_cons rfl]
  simp only
  split
  next heq => exact absurd (List.cons.inj (h.symm.trans heq)).1 hc
  next => rw [readFields_congr (skipSpace_skipSpace cs)]

theorem ofFields_named (fields : List (String × Json)) :
    ofFields (fields.map fun f => (some f.1, f.2)) = .object fields := by
  have h : (fields.map fun f => (some f.1, f.2)).mapM
      (fun f : Option String × Json => f.1.map (·, f.2)) = some fields := by
    induction fields with
    | nil => rfl
    | cons f fields ih => simp [List.mapM_cons, ih]
  rw [ofFields, h]

theorem PlainField.value {f : String × Json} (h : PlainField f) : f.2.Plain := by
  cases f
  exact h

theorem readItems_last {fuel : Nat} {cs more rest : Chars} {j : Json}
    (hread : readValue fuel cs = some (j, more)) (hclose : skipSpace more = ']' :: rest) :
    readItems (fuel + 1) cs = some ([j], rest) := by
  simp only [readItems, hread, hclose]

theorem readItems_more {fuel : Nat} {cs more : Chars} {j : Json}
    (hread : readValue fuel cs = some (j, ',' :: more)) :
    readItems (fuel + 1) cs = (readItems fuel more).map fun p => (j :: p.1, p.2) := by
  have hcomma : skipSpace (',' :: more) = ',' :: more := skipSpace_cons rfl more
  simp only [readItems, hread, hcomma]

theorem readFields_last {fuel : Nat} {cs more rest : Chars} {name : String} {j : Json}
    (hread : readValue fuel cs = some (j, more)) (hclose : skipSpace more = '\x7d' :: rest) :
    readFields (fuel + 1) (quote name ++ ':' :: cs) = some ([(some name, j)], rest) := by
  simp only [readFields, skipSpace_quote, readName_quote, hread, hclose]

theorem readFields_more {fuel : Nat} {cs more : Chars} {name : String} {j : Json}
    (hread : readValue fuel cs = some (j, ',' :: more)) :
    readFields (fuel + 1) (quote name ++ ':' :: cs) =
      (readFields fuel more).map fun p => ((some name, j) :: p.1, p.2) := by
  have hcomma : skipSpace (',' :: more) = ',' :: more := skipSpace_cons rfl more
  simp only [readFields, skipSpace_quote, readName_quote, hread, hcomma]

/-! Layout -/

theorem length_newline (depth : Nat) : (newline depth).length = 2 * depth + 1 := by
  rw [newline, List.length_cons, List.length_replicate]

theorem prettyChars_array (depth : Nat) (j : Json) (js : List Json) :
    prettyChars depth (.array (j :: js)) =
      '[' :: (prettyItems (depth + 1) (j :: js) ++ (newline depth ++ [']'])) := by
  simp [prettyChars]

theorem prettyChars_object (depth : Nat) (f : String × Json) (fs : List (String × Json)) :
    prettyChars depth (.object (f :: fs)) =
      '\x7b' :: (prettyFields (depth + 1) (f :: fs) ++ (newline depth ++ ['\x7d'])) := by
  simp [prettyChars]

theorem prettyItems_singleton (depth : Nat) (j : Json) :
    prettyItems depth [j] = newline depth ++ prettyChars depth j := by
  simp [prettyItems]

theorem prettyItems_cons (depth : Nat) (j j' : Json) (js : List Json) :
    prettyItems depth (j :: j' :: js) =
      newline depth ++ (prettyChars depth j ++ ',' :: prettyItems depth (j' :: js)) := by
  rw [prettyItems, List.append_assoc]
  rfl

theorem prettyField_eq (depth : Nat) (f : String × Json) :
    prettyField depth f = quote f.1 ++ ':' :: ' ' :: prettyChars depth f.2 := by
  rw [← prettyField]

theorem prettyFields_singleton (depth : Nat) (f : String × Json) :
    prettyFields depth [f] = newline depth ++ (quote f.1 ++ ':' :: ' ' :: prettyChars depth f.2) := by
  simp [prettyFields, prettyField_eq]

theorem prettyFields_cons (depth : Nat) (f f' : String × Json) (fs : List (String × Json)) :
    prettyFields depth (f :: f' :: fs) =
      newline depth ++ (quote f.1 ++ ':' :: ' ' ::
        (prettyChars depth f.2 ++ ',' :: prettyFields depth (f' :: fs))) := by
  rw [prettyFields]
  simp [prettyField_eq]

mutual

theorem readValue_pretty (j : Json) (h : j.Plain) (depth : Nat) {fuel : Nat} {rest : Chars}
    (hf : (prettyChars depth j).length ≤ fuel) (hr : EndsNumber rest) :
    readValue fuel (prettyChars depth j ++ rest) = some (j, rest) := by
  obtain ⟨c, cs, hcs, -⟩ := exists_first h depth
  obtain ⟨fuel, rfl⟩ : ∃ n, fuel = n + 1 := Nat.exists_eq_succ_of_ne_zero (by
    rw [hcs, List.length_cons] at hf
    omega)
  cases j with
  | null => simp [prettyChars, readValue, skipSpace, isSpace, dropStart?]
  | bool b => cases b <;> simp [prettyChars, readValue, skipSpace, isSpace, dropStart?]
  | number t =>
    obtain ⟨i, rfl⟩ := h
    obtain ⟨c, cs, hcs, hc⟩ := signed_begins i
    have hread := readNumber_signed i hr
    rw [prettyChars]
    rw [hcs] at hread ⊢
    rw [List.cons_append, readValue_number fuel hc]
    exact hread
  | string s =>
    rw [prettyChars, quote_append, readValue, skipSpace_cons rfl]
    exact readString_escape s rest
  | broken => exact absurd h id
  | array items =>
    cases items with
    | nil => simp [prettyChars, readValue, skipSpace, isSpace]
    | cons j js =>
      rw [prettyChars_array, List.length_cons, List.length_append] at hf
      have hlen : (prettyItems (depth + 1) (j :: js)).length ≤ fuel := by omega
      have hread := readItems_pretty j js h (depth + 1) depth rest hlen
      obtain ⟨c, cs, hcs, hspace, hc⟩ := exists_first h.1 (depth + 1)
      have hskip : ∃ more, skipSpace (prettyItems (depth + 1) (j :: js) ++
          (newline depth ++ ']' :: rest)) = c :: more := by
        rw [prettyItems, hcs, List.append_assoc, List.append_assoc, skipSpace_newline]
        exact ⟨_, skipSpace_cons hspace _⟩
      obtain ⟨more, hskip⟩ := hskip
      rw [prettyChars_array, List.cons_append, List.append_assoc, List.append_assoc,
        List.singleton_append, readValue_list hskip hc, hread]
      rfl
  | object fields =>
    cases fields with
    | nil => simp [prettyChars, readValue, skipSpace, isSpace]
    | cons f fs =>
      rw [prettyChars_object, List.length_cons, List.length_append] at hf
      have hlen : (prettyFields (depth + 1) (f :: fs)).length ≤ fuel := by omega
      have hread := readFields_pretty f fs h (depth + 1) depth rest hlen
      have hskip : ∃ more, skipSpace (prettyFields (depth + 1) (f :: fs) ++
          (newline depth ++ '\x7d' :: rest)) = '"' :: more := by
        rw [prettyFields, prettyField_eq, List.append_assoc, List.append_assoc, List.append_assoc,
          skipSpace_newline, quote_append]
        exact ⟨_, skipSpace_cons rfl _⟩
      obtain ⟨more, hskip⟩ := hskip
      rw [prettyChars_object, List.cons_append, List.append_assoc, List.append_assoc,
        List.singleton_append, readValue_object hskip (by decide), hread, Option.map_some,
        ofFields_named]
termination_by sizeOf j

/-- The items of a list, up to the bracket that closes it. -/
theorem readItems_pretty (j : Json) (js : List Json) (h : PlainItems (j :: js))
    (depth close : Nat) {fuel : Nat} (rest : Chars)
    (hf : (prettyItems depth (j :: js)).length ≤ fuel) :
    readItems fuel (prettyItems depth (j :: js) ++ (newline close ++ ']' :: rest)) =
      some (j :: js, rest) := by
  obtain ⟨hj, hjs⟩ := h
  cases js with
  | nil =>
    rw [prettyItems_singleton, List.length_append, length_newline] at hf
    obtain ⟨fuel, rfl⟩ := Nat.exists_eq_add_one.2 (by omega : 0 < fuel)
    have hlen : (prettyChars depth j).length ≤ fuel := by omega
    have hread := readValue_pretty j hj depth hlen (endsNumber_newline close (']' :: rest))
    rw [prettyItems_singleton, List.append_assoc, readItems_congr (skipSpace_newline depth _)]
    exact readItems_last hread (skipSpace_newline_cons rfl close rest)
  | cons j' js =>
    rw [prettyItems_cons, List.length_append, List.length_append, List.length_cons,
      length_newline] at hf
    obtain ⟨fuel, rfl⟩ := Nat.exists_eq_add_one.2 (by omega : 0 < fuel)
    have hlen : (prettyChars depth j).length ≤ fuel := by omega
    have hlen' : (prettyItems depth (j' :: js)).length ≤ fuel := by omega
    have hread := fun more => readValue_pretty j hj depth hlen
      (endsNumber_cons (c := ',') (by decide) more)
    have hmore := readItems_pretty j' js hjs depth close rest hlen'
    rw [prettyItems_cons, List.append_assoc, List.append_assoc, List.cons_append,
      readItems_congr (skipSpace_newline depth _), readItems_more (hread _), hmore]
    rfl
termination_by sizeOf (j :: js)

/-- The fields of an object, up to the brace that closes it. -/
theorem readFields_pretty (f : String × Json) (fs : List (String × Json))
    (h : PlainFields (f :: fs)) (depth close : Nat) {fuel : Nat} (rest : Chars)
    (hf : (prettyFields depth (f :: fs)).length ≤ fuel) :
    readFields fuel (prettyFields depth (f :: fs) ++ (newline close ++ '\x7d' :: rest)) =
      some ((f :: fs).map fun f => (some f.1, f.2), rest) := by
  have hsize : sizeOf f.2 < sizeOf f := by
    cases f
    simp +arith
  obtain ⟨hvalue, hfs⟩ := h
  cases fs with
  | nil =>
    rw [prettyFields_singleton, List.length_append, List.length_append, List.length_cons,
      List.length_cons, length_newline] at hf
    obtain ⟨fuel, rfl⟩ := Nat.exists_eq_add_one.2 (by omega : 0 < fuel)
    have hlen : (prettyChars depth f.2).length ≤ fuel := by omega
    have hread := readValue_pretty f.2 hvalue.value depth hlen
      (endsNumber_newline close ('\x7d' :: rest))
    rw [← readValue_congr (skipSpace_blank _)] at hread
    rw [prettyFields_singleton, List.append_assoc, List.append_assoc, List.cons_append,
      List.cons_append, readFields_congr (skipSpace_newline depth _)]
    exact readFields_last hread (skipSpace_newline_cons rfl close rest)
  | cons f' fs =>
    rw [prettyFields_cons, List.length_append, List.length_append, List.length_cons,
      List.length_cons, List.length_append, List.length_cons, length_newline] at hf
    obtain ⟨fuel, rfl⟩ := Nat.exists_eq_add_one.2 (by omega : 0 < fuel)
    have hlen : (prettyChars depth f.2).length ≤ fuel := by omega
    have hlen' : (prettyFields depth (f' :: fs)).length ≤ fuel := by omega
    have hread := fun more => (readValue_congr (skipSpace_blank _) fuel).trans
      (readValue_pretty f.2 hvalue.value depth hlen (endsNumber_cons (c := ',') (by decide) more))
    have hmore := readFields_pretty f' fs hfs depth close rest hlen'
    rw [prettyFields_cons, List.append_assoc, List.append_assoc, List.cons_append,
      List.cons_append, List.append_assoc, List.cons_append,
      readFields_congr (skipSpace_newline depth _), readFields_more (hread _), hmore]
    rfl
termination_by sizeOf (f :: fs)

end

theorem parse?_pretty {j : Json} (h : j.Plain) : parse? (j.pretty ++ "\n") = some j := by
  have hlen : (prettyChars 0 j).length ≤ (prettyChars 0 j ++ ['\n']).length + 1 := by
    rw [List.length_append]
    omega
  have hread := readValue_pretty j h 0 hlen (endsNumber_cons (by decide) [] : EndsNumber ['\n'])
  have hchars : (j.pretty ++ "\n").toList = prettyChars 0 j ++ ['\n'] := by simp [pretty]
  rw [parse?, chars_eq_toList, hchars, parseChars?, hread]
  rfl

/-! Values of values -/

theorem plain_array {items : List Json} : Plain (.array items) ↔ ∀ j ∈ items, j.Plain := by
  rw [Plain]
  induction items with
  | nil => simp [PlainItems]
  | cons j js ih => simp [PlainItems, ih]

theorem plain_object {fields : List (String × Json)} :
    Plain (.object fields) ↔ ∀ f ∈ fields, f.2.Plain := by
  rw [Plain]
  induction fields with
  | nil => simp [PlainFields]
  | cons f fs ih =>
    obtain ⟨name, j⟩ := f
    simp [PlainFields, PlainField, ih]

@[simp] theorem plain_bool (b : Bool) : Plain (.bool b) := trivial

@[simp] theorem plain_string (s : String) : Plain (.string s) := trivial

@[simp] theorem plain_ofInt (i : Int) : Plain (.ofInt i) := ⟨i, rfl⟩

@[simp] theorem plain_ofNat (n : Nat) : Plain (.ofNat n) := ⟨n, by
  rw [signed, if_neg (by omega), Int.natAbs_natCast]⟩

theorem natural?_ofNat {n bound : Nat} (h : n < bound) : natural? bound (.ofNat n) = some n := by
  have hall := all_digits n
  have hne := digits_ne_nil n
  simp only [natural?, ofNat, decimal, String.toList_ofList, ofDigits_digits]
  rw [if_pos ⟨hne, hall, h⟩]

end RigWarden.Json
