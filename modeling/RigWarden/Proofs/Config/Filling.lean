import RigWarden.Proofs.Config.Template

/-!
# Filling in a template

A text is cut at its tokens, which are found from the left, each behind the one before it. There is
one such cut, and a template is filled in along it: with all tokens named by a pair, the result is
the template with values in the places of the tokens, as they are; otherwise the error names the
first token that no pair names.
-/

namespace RigWarden.Template

open Text

/-- The token `source`, which stands behind `front`. -/
@[ext] structure Occurrence where
  front : Chars
  name : Chars
  source : Chars
  isTokenFor : IsTokenFor name source

/-- No token begins in `front` when `rest` follows it. -/
def Clear (front rest : Chars) : Prop :=
  ∀ v, v <:+ front → v ≠ [] → ∀ t, IsToken t → ¬ t <+: v ++ rest

/-- The tokens of `cs`, from the left and without overlaps, are `os`, and `tail` is left. -/
inductive CutInto : Chars → List Occurrence → Chars → Prop
  | done {cs : Chars} (hclear : Clear cs []) : CutInto cs [] cs
  | next {cs rest tail : Chars} {o : Occurrence} {os : List Occurrence}
    (hcs : cs = o.front ++ (o.source ++ rest)) (hclear : Clear o.front (o.source ++ rest))
    (hrest : CutInto rest os tail) : CutInto cs (o :: os) tail

/-- The text of a cut with `f` in the places of the tokens. -/
def assemble (f : Occurrence → Chars) (os : List Occurrence) (tail : Chars) : Chars :=
  os.flatMap (fun o => o.front ++ f o) ++ tail

variable {cs front rest tail name : Chars} {o : Occurrence} {os : List Occurrence}
variable {values : Values}

theorem Occurrence.source_ne_nil (o : Occurrence) : o.source ≠ [] :=
  braced_isToken.ne_nil o.isTokenFor.isToken

theorem Occurrence.token_append (o : Occurrence) (rest : Chars) :
    token (o.source ++ rest) = some (o.name, rest) :=
  token_eq_some_iff.2 ⟨o.source, o.isTokenFor, rfl⟩

theorem assemble_nil (f : Occurrence → Chars) (tail : Chars) :
    assemble f [] tail = tail := rfl

theorem assemble_cons (f : Occurrence → Chars) (o : Occurrence) (os : List Occurrence)
    (tail : Chars) : assemble f (o :: os) tail = o.front ++ (f o ++ assemble f os tail) := by
  simp [assemble]

theorem assemble_congr {f g : Occurrence → Chars} (h : ∀ o ∈ os, f o = g o) (tail : Chars) :
    assemble f os tail = assemble g os tail := by
  induction os with
  | nil => rw [assemble_nil, assemble_nil]
  | cons o os ih =>
    rw [assemble_cons, assemble_cons, h o List.mem_cons_self,
      ih fun o ho => h o (List.mem_cons_of_mem _ ho)]

/-! A text has one cut -/

theorem clear_nil (rest : Chars) : Clear [] rest := by
  intro v hv hne
  exact absurd (List.suffix_nil.1 hv) hne

theorem clear_cons_iff {c : Char} :
    Clear (c :: front) rest ↔ token (c :: (front ++ rest)) = none ∧ Clear front rest := by
  rw [token_eq_none_iff]
  constructor
  · intro h
    refine ⟨?_, fun v hv => h v (hv.trans (List.suffix_cons c front))⟩
    rintro ⟨t, ht, hbegin⟩
    exact h (c :: front) List.suffix_rfl (List.cons_ne_nil c front) t ht hbegin
  · rintro ⟨hhere, hfront⟩ v hv hne t ht hbegin
    rcases List.suffix_cons_iff.1 hv with rfl | hv
    · exact hhere ⟨t, ht, hbegin⟩
    · exact hfront v hv hne t ht hbegin

/-- Where a token stands, nothing is clear up to a place behind its start. -/
theorem Clear.eq_nil {v : Chars} (h : Clear (front ++ v) rest) {t : Chars} (ht : IsToken t)
    (hbegin : t <+: v ++ rest) : v = [] := by
  by_contra hne
  exact h v (List.suffix_append front v) hne t ht hbegin

theorem Clear.ne_append (h : Clear cs []) (o : Occurrence) (rest : Chars) :
    cs ≠ o.front ++ (o.source ++ rest) := by
  rintro rfl
  have hnil := h.eq_nil o.isTokenFor.isToken (by simp)
  exact o.source_ne_nil (List.append_eq_nil_iff.1 hnil).1

theorem clear_or_occurs (cs : Chars) : Clear cs [] ∨
    ∃ (o : Occurrence) (rest : Chars), Clear o.front (o.source ++ rest) ∧
      cs = o.front ++ (o.source ++ rest) := by
  induction cs with
  | nil => exact .inl (clear_nil [])
  | cons c cs ih =>
    cases htoken : token (c :: cs) with
    | some found =>
      obtain ⟨t, ht, hcs⟩ := token_eq_some_iff.1 htoken
      exact .inr ⟨⟨[], found.1, t, ht⟩, found.2, clear_nil _, hcs⟩
    | none =>
      rcases ih with hclear | ⟨o, rest, hclear, rfl⟩
      · refine .inl (clear_cons_iff.2 ⟨?_, hclear⟩)
        rw [List.append_nil, htoken]
      · exact .inr ⟨{ o with front := c :: o.front }, rest,
          clear_cons_iff.2 ⟨htoken, hclear⟩, rfl⟩

theorem exists_cutInto (cs : Chars) : ∃ os tail, CutInto cs os tail := by
  -- A token takes up several characters, so the cut of what follows it is one of a shorter text.
  induction hn : cs.length using Nat.strong_induction_on generalizing cs with
  | _ n ih =>
    rcases clear_or_occurs cs with hclear | ⟨o, rest, hclear, hcs⟩
    · exact ⟨[], cs, .done hclear⟩
    · have hlength := List.length_pos_iff.2 o.source_ne_nil
      have hshort : rest.length < n := by
        rw [← hn, hcs, List.length_append, List.length_append]
        omega
      obtain ⟨os, tail, hrest⟩ := ih rest.length hshort rest rfl
      exact ⟨o :: os, tail, .next hcs hclear hrest⟩

/-- The first token and its place are determined by the text. -/
theorem Occurrence.first_unique {o o' : Occurrence} {rest rest' : Chars}
    (h : Clear o.front (o.source ++ rest)) (h' : Clear o'.front (o'.source ++ rest'))
    (heq : o.front ++ (o.source ++ rest) = o'.front ++ (o'.source ++ rest')) :
    o = o' ∧ rest = rest' := by
  have hfront : o.front = o'.front ∧ o.source ++ rest = o'.source ++ rest' := by
    rcases List.append_eq_append_iff.1 heq with ⟨v, hv, hrest⟩ | ⟨v, hv, hrest⟩
    · rw [hv] at h'
      obtain rfl := h'.eq_nil o.isTokenFor.isToken (hrest ▸ List.prefix_append o.source rest)
      exact ⟨by rw [hv, List.append_nil], hrest⟩
    · rw [hv] at h
      obtain rfl := h.eq_nil o'.isTokenFor.isToken (hrest ▸ List.prefix_append o'.source rest')
      exact ⟨by rw [hv, List.append_nil], hrest.symm⟩
  have hread : some (o.name, rest) = some (o'.name, rest') := by
    rw [← o.token_append, ← o'.token_append, hfront.2]
  obtain ⟨hname, rfl⟩ := Prod.mk.inj (Option.some.inj hread)
  have hsource := List.append_cancel_right hfront.2
  exact ⟨Occurrence.ext hfront.1 hname hsource, rfl⟩

theorem CutInto.unique (h : CutInto cs os tail) {os' : List Occurrence} {tail' : Chars}
    (h' : CutInto cs os' tail') : os' = os ∧ tail' = tail := by
  induction h generalizing os' with
  | done hclear =>
    cases h' with
    | done _ => exact ⟨rfl, rfl⟩
    | next hcs _ _ => exact absurd hcs (hclear.ne_append _ _)
  | next hcs hclear _ ih =>
    cases h' with
    | done hclear' => exact absurd hcs (hclear'.ne_append _ _)
    | next hcs' hclear' hrest' =>
      obtain ⟨rfl, rfl⟩ := Occurrence.first_unique hclear hclear' (hcs.symm.trans hcs')
      obtain ⟨rfl, rfl⟩ := ih hrest'
      exact ⟨rfl, rfl⟩

theorem CutInto.eq_assemble (h : CutInto cs os tail) : cs = assemble Occurrence.source os tail := by
  induction h with
  | done _ => rw [assemble_nil]
  | next hcs _ _ ih => rw [assemble_cons, ← ih, hcs]

/-! The pieces along a cut -/

def Occurrence.pieces (o : Occurrence) : List Piece :=
  o.front.map Piece.char ++ [.token o.name o.source]

theorem pieces_append_of_clear (h : Clear front rest) :
    pieces (front ++ rest) = front.map Piece.char ++ pieces rest := by
  induction front with
  | nil => rfl
  | cons c front ih =>
    obtain ⟨hnone, hfront⟩ := clear_cons_iff.1 h
    rw [List.cons_append, pieces_of_no_token hnone, ih hfront, List.map_cons, List.cons_append]

theorem CutInto.pieces_eq (h : CutInto cs os tail) :
    pieces cs = os.flatMap Occurrence.pieces ++ tail.map Piece.char := by
  induction h with
  | @done cs hclear =>
    have hpieces := pieces_append_of_clear hclear
    simpa [pieces, piecesFrom] using hpieces
  | @next cs rest tail o os hcs hclear _ ih =>
    rw [hcs, pieces_append_of_clear hclear, pieces_of_token o.source_ne_nil (o.token_append rest),
      ih]
    simp [Occurrence.pieces]

theorem names_of_cut (os : List Occurrence) (tail : Chars) :
    (os.flatMap Occurrence.pieces ++ tail.map Piece.char).filterMap Piece.name? =
      os.map Occurrence.name := by
  have hchars (cs : Chars) : (cs.map Piece.char).filterMap Piece.name? = [] := by simp [Piece.name?]
  induction os with
  | nil => exact hchars tail
  | cons o os ih =>
    rw [List.flatMap_cons, List.append_assoc, List.filterMap_append, ih, Occurrence.pieces,
      List.filterMap_append, hchars]
    rfl

theorem fill_of_cut (values : Values) (os : List Occurrence) (tail : Chars) :
    (os.flatMap Occurrence.pieces ++ tail.map Piece.char).flatMap (Piece.fill values) =
      assemble (fun o => (Piece.token o.name o.source).fill values) os tail := by
  induction os with
  | nil => exact fill_chars values tail
  | cons o os ih =>
    rw [List.flatMap_cons, List.append_assoc, List.flatMap_append, ih, Occurrence.pieces,
      List.flatMap_append, fill_chars, assemble_cons, List.flatMap_singleton, List.append_assoc]

/-! Names and their values -/

/-- A pair has the name. -/
def Known (values : Values) (name : Chars) : Prop := ∃ v ∈ values, v.1.toList = name

/-- The first pair with the name has the value. -/
def FirstValue (values : Values) (name : Chars) (value : String) : Prop :=
  ∃ before key after, values = before ++ (key, value) :: after ∧ key.toList = name ∧
    ¬ Known before name

theorem valueOf?_eq_none_iff : valueOf? values name = none ↔ ¬ Known values name := by
  simp [valueOf?, Known]

theorem isNone_valueOf?_iff : (valueOf? values name).isNone = true ↔ ¬ Known values name := by
  rw [Option.isNone_iff_eq_none, valueOf?_eq_none_iff]

theorem firstValue_of_valueOf? {value : String} (h : valueOf? values name = some value) :
    FirstValue values name value := by
  rw [valueOf?, Option.map_eq_some_iff] at h
  obtain ⟨⟨key, found⟩, hfind, rfl⟩ := h
  obtain ⟨hkey, before, after, hvalues, hbefore⟩ := List.find?_eq_some_iff_append.1 hfind
  refine ⟨before, key, after, hvalues, by simpa using hkey, ?_⟩
  rintro ⟨v, hv, hname⟩
  simpa [hname] using hbefore v hv

theorem missing?_of_cut (values : Values) (os : List Occurrence) (tail : Chars) :
    missing? values (os.flatMap Occurrence.pieces ++ tail.map Piece.char) =
      (os.find? fun o => (valueOf? values o.name).isNone).map Occurrence.name := by
  rw [missing?, names_of_cut, List.find?_map]
  rfl

/-- What keeps a template from being filled in is its first token that no pair names. -/
def FirstUnknown (values : Values) (os : List Occurrence) (o : Occurrence) : Prop :=
  ∃ done rest, os = done ++ o :: rest ∧ (∀ d ∈ done, Known values d.name) ∧ ¬ Known values o.name

theorem FirstUnknown.mem (h : FirstUnknown values os o) : o ∈ os := by
  obtain ⟨done, rest, rfl, -, -⟩ := h
  exact List.mem_append_right done List.mem_cons_self

theorem FirstUnknown.not_known (h : FirstUnknown values os o) : ¬ Known values o.name := by
  obtain ⟨done, rest, -, -, ho⟩ := h
  exact ho

theorem find?_unknown_eq_some_iff :
    (os.find? fun o => (valueOf? values o.name).isNone) = some o ↔ FirstUnknown values os o := by
  have hknown (d : Occurrence) :
      (!(valueOf? values d.name).isNone) = true ↔ Known values d.name := by
    rw [Bool.not_eq_true', ← Bool.not_eq_true, isNone_valueOf?_iff, not_not]
  rw [List.find?_eq_some_iff_append, isNone_valueOf?_iff]
  constructor
  · rintro ⟨ho, done, rest, hos, hdone⟩
    exact ⟨done, rest, hos, fun d hd => (hknown d).1 (hdone d hd), ho⟩
  · rintro ⟨done, rest, hos, hdone, ho⟩
    exact ⟨ho, done, rest, hos, fun d hd => (hknown d).2 (hdone d hd)⟩

theorem find?_unknown_eq_none_iff :
    (os.find? fun o => (valueOf? values o.name).isNone) = none ↔ ∀ o ∈ os, Known values o.name := by
  simp only [List.find?_eq_none, isNone_valueOf?_iff, not_not]

theorem known_or_firstUnknown (values : Values) (os : List Occurrence) :
    (∀ o ∈ os, Known values o.name) ∨ ∃ o, FirstUnknown values os o := by
  cases hfind : os.find? fun o => (valueOf? values o.name).isNone with
  | none => exact .inl (find?_unknown_eq_none_iff.1 hfind)
  | some o => exact .inr ⟨o, find?_unknown_eq_some_iff.1 hfind⟩

/-- Known tokens give way to the values of the first pairs with their names. -/
theorem assemble_fill (hknown : ∀ o ∈ os, Known values o.name) (tail : Chars) :
    ∃ value : Chars → String, (∀ o ∈ os, FirstValue values o.name (value o.name)) ∧
      assemble (fun o => (Piece.token o.name o.source).fill values) os tail =
        assemble (fun o => (value o.name).toList) os tail := by
  obtain ⟨value, hvalue⟩ : ∃ value : Chars → String,
      ∀ o ∈ os, valueOf? values o.name = some (value o.name) := by
    refine ⟨fun name => (valueOf? values name).getD "", fun o ho => ?_⟩
    cases hv : valueOf? values o.name with
    | none => exact absurd (hknown o ho) (valueOf?_eq_none_iff.1 hv)
    | some value => simp [hv]
  refine ⟨value, fun o ho => firstValue_of_valueOf? (hvalue o ho), ?_⟩
  apply assemble_congr
  intro o ho
  rw [Piece.fill, hvalue o ho]
  rfl

/-! The outcome along a cut -/

section outcome

variable {template : String} (hcut : CutInto template.toList os tail)
include hcut

theorem fill_of_known (hknown : ∀ o ∈ os, Known values o.name) :
    ∃ value : Chars → String, (∀ o ∈ os, FirstValue values o.name (value o.name)) ∧
      fill template values = .ok (.ofList (assemble (fun o => (value o.name).toList) os tail)) := by
  obtain ⟨value, hvalue, hassemble⟩ := assemble_fill hknown tail
  have hmissing : missing? values (pieces template.toList) = none := by
    rw [hcut.pieces_eq, missing?_of_cut, find?_unknown_eq_none_iff.2 hknown]
    rfl
  have hpieces : (pieces template.toList).flatMap (Piece.fill values) =
      assemble (fun o => (value o.name).toList) os tail := by
    rw [hcut.pieces_eq, fill_of_cut, hassemble]
  refine ⟨value, hvalue, ?_⟩
  rw [fill, chars_eq_toList, hmissing, ← hpieces]

theorem fill_of_firstUnknown (ho : FirstUnknown values os o) :
    fill template values = .error (.configuration (.ofList o.name) .templateValueMissing) := by
  have hmissing : missing? values (pieces template.toList) = some o.name := by
    rw [hcut.pieces_eq, missing?_of_cut, find?_unknown_eq_some_iff.2 ho]
    rfl
  rw [fill, chars_eq_toList, hmissing]

end outcome

/-- A template is filled in exactly when a pair names each of its tokens, and values stand in the
result as they are; otherwise the error is about the first token without a pair. -/
theorem filled_at_tokens (template : String) (values : Values) :
    ∃ os tail, (∀ os' tail', CutInto template.toList os' tail' ↔ os' = os ∧ tail' = tail) ∧
      template.toList = assemble Occurrence.source os tail ∧
      ((∃ text, fill template values = .ok text) ↔ ∀ o ∈ os, Known values o.name) ∧
      (∀ text, fill template values = .ok text → ∃ value : Chars → String,
        (∀ o ∈ os, FirstValue values o.name (value o.name)) ∧
        text.toList = assemble (fun o => (value o.name).toList) os tail) ∧
      ∀ e, fill template values = .error e → ∃ o, FirstUnknown values os o ∧
        e = .configuration (.ofList o.name) .templateValueMissing := by
  obtain ⟨os, tail, hcut⟩ := exists_cutInto template.toList
  have hone (os' tail') : CutInto template.toList os' tail' ↔ os' = os ∧ tail' = tail := by
    constructor
    · exact hcut.unique
    · rintro ⟨rfl, rfl⟩
      exact hcut
  refine ⟨os, tail, hone, hcut.eq_assemble, ?_⟩
  rcases known_or_firstUnknown values os with hknown | ⟨o, ho⟩
  · obtain ⟨value, hvalue, hok⟩ := fill_of_known hcut hknown
    refine ⟨⟨fun _ => hknown, fun _ => ⟨_, hok⟩⟩, fun text htext => ?_, fun e he => ?_⟩
    · rw [hok] at htext
      obtain rfl := Except.ok.inj htext
      exact ⟨value, hvalue, String.toList_ofList⟩
    · rw [hok] at he
      cases he
  · have herror := fill_of_firstUnknown hcut ho
    refine ⟨⟨fun ⟨text, htext⟩ => ?_, fun hknown => ?_⟩, fun text htext => ?_, fun e he => ?_⟩
    · rw [herror] at htext
      cases htext
    · exact absurd (hknown o ho.mem) ho.not_known
    · rw [herror] at htext
      cases htext
    · rw [herror] at he
      exact ⟨o, ho, (Except.error.inj he).symm⟩

-- Of three braces the first is text, and a value that looks like a token is left alone.
example : fill "\x7b\x7b\x7b a \x7d\x7d\x7d" [("a", "\x7b\x7bb\x7d\x7d$1")] =
    .ok "\x7b\x7b\x7bb\x7d\x7d$1\x7d" := by decide

end RigWarden.Template
