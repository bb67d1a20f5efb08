import RigWarden.Config.Template
import RigWarden.Proofs.Text.Braces
import RigWarden.Proofs.Text.Scan
import RigWarden.Proofs.Text.Trim
import RigWarden.Proofs.Text.Utf8

/-!
# Texts that hold a token

A token is a name between double braces, blanks allowed around it. The scan of a template finds one
in a text exactly when one stands there. A leftover is anything between double braces on one line;
a token on one line is a leftover, but not the other way round.
-/

namespace RigWarden.Template

open Text

/-- What may stand between the braces of a token. -/
structure Naming (before name after : Chars) : Prop where
  blank_before : ∀ c ∈ before, isBlank c = true
  name_ne_nil : name ≠ []
  name_chars : ∀ c ∈ name, isNameChar c = true
  blank_after : ∀ c ∈ after, isBlank c = true

def IsToken (t : Chars) : Prop :=
  ∃ before name after, Naming before name after ∧
    t = ['\x7b', '\x7b'] ++ (before ++ name ++ after) ++ ['\x7d', '\x7d']

/-- The token `t` has this name. -/
def IsTokenFor (name t : Chars) : Prop :=
  ∃ before after, Naming before name after ∧
    t = ['\x7b', '\x7b'] ++ (before ++ name ++ after) ++ ['\x7d', '\x7d']

theorem IsTokenFor.isToken {name t : Chars} (h : IsTokenFor name t) : IsToken t := by
  obtain ⟨before, after, hnaming, ht⟩ := h
  exact ⟨before, name, after, hnaming, ht⟩

theorem IsToken.exists_name {t : Chars} (h : IsToken t) : ∃ name, IsTokenFor name t := by
  obtain ⟨before, name, after, hnaming, ht⟩ := h
  exact ⟨name, before, after, hnaming, ht⟩

def IsLeftover (t : Chars) : Prop :=
  ∃ inside, '\n' ∉ inside ∧ t = ['\x7b', '\x7b'] ++ inside ++ ['\x7d', '\x7d']

theorem braced_isToken : Braced IsToken := fun _ ⟨before, name, after, _, ht⟩ =>
  ⟨before ++ name ++ after, ht⟩

theorem braced_isLeftover : Braced IsLeftover := fun _ ⟨inside, _, ht⟩ => ⟨inside, ht⟩

theorem lacks_isLeftover : Lacks IsLeftover '\n' := by
  rintro _ ⟨inside, hline, rfl⟩
  simp [hline]

/-- A token has braces, blanks and the characters of names. -/
theorem IsToken.chars {t : Chars} (h : IsToken t) {c : Char} (hc : c ∈ t) :
    c = '\x7b' ∨ c = '\x7d' ∨ isBlank c = true ∨ isNameChar c = true := by
  obtain ⟨before, name, after, hnaming, rfl⟩ := h
  simp only [List.mem_append, List.mem_cons, List.not_mem_nil, or_false] at hc
  rcases hc with ((rfl | rfl) | (hc | hc) | hc) | (rfl | rfl)
  · exact .inl rfl
  · exact .inl rfl
  · exact .inr (.inr (.inl (hnaming.blank_before c hc)))
  · exact .inr (.inr (.inr (hnaming.name_chars c hc)))
  · exact .inr (.inr (.inl (hnaming.blank_after c hc)))
  · exact .inr (.inl rfl)
  · exact .inr (.inl rfl)

theorem lacks_isToken {c : Char} (hbraces : c ≠ '\x7b' ∧ c ≠ '\x7d') (hblank : isBlank c = false)
    (hname : isNameChar c = false) : Lacks IsToken c := fun t ht hc => by
  rcases ht.chars hc with h | h | h | h
  · exact hbraces.1 h
  · exact hbraces.2 h
  · rw [hblank] at h
    cases h
  · rw [hname] at h
    cases h

/-! The scanner -/

theorem not_blank_of_isNameChar {c : Char} (h : isNameChar c = true) : isBlank c = false := by
  simp only [isNameChar, Bool.or_eq_true, Bool.and_eq_true, decide_eq_true_eq, beq_iff_eq] at h
  rcases h with h | rfl
  · exact not_blank_of_visible (by omega) (by omega)
  · decide

theorem isNameChar_of_blank {c : Char} (h : isBlank c = true) : isNameChar c = false := by
  refine Bool.eq_false_iff.2 fun hname => ?_
  rw [not_blank_of_isNameChar hname] at h
  cases h

theorem token_of_naming {before name after : Chars} (h : Naming before name after) (rest : Chars) :
    token (['\x7b', '\x7b'] ++ (before ++ name ++ after) ++ ['\x7d', '\x7d'] ++ rest) =
      some (name, rest) := by
  have hclose : skip isBlank (after ++ '\x7d' :: '\x7d' :: rest) = '\x7d' :: '\x7d' :: rest :=
    skip_append h.blank_after (by decide) _
  have hrun : run1 isNameChar (name ++ (after ++ '\x7d' :: '\x7d' :: rest)) =
      some (name, after ++ '\x7d' :: '\x7d' :: rest) := by
    cases after with
    | nil => exact run1_append h.name_ne_nil h.name_chars (by decide) _
    | cons a after =>
      have ha := isNameChar_of_blank (h.blank_after a List.mem_cons_self)
      exact run1_append h.name_ne_nil h.name_chars ha _
  have hopen : skip isBlank (before ++ (name ++ (after ++ '\x7d' :: '\x7d' :: rest))) =
      name ++ (after ++ '\x7d' :: '\x7d' :: rest) := by
    obtain ⟨n, name, rfl⟩ := List.exists_cons_of_ne_nil h.name_ne_nil
    have hn := not_blank_of_isNameChar (h.name_chars n List.mem_cons_self)
    exact skip_append h.blank_before hn _
  have htext : ['\x7b', '\x7b'] ++ (before ++ name ++ after) ++ ['\x7d', '\x7d'] ++ rest =
      ['\x7b', '\x7b'] ++ (before ++ (name ++ (after ++ '\x7d' :: '\x7d' :: rest))) := by simp
  rw [htext, token, dropStart?_append]
  simp only [Option.bind_eq_bind, Option.bind_some, hopen, hrun, hclose, dropStart?]
  rfl

/-- What is read is a token with its name. -/
theorem token_eq_some_iff {cs name rest : Chars} :
    token cs = some (name, rest) ↔ ∃ t, IsTokenFor name t ∧ cs = t ++ rest := by
  constructor
  · intro h
    simp only [token, Option.bind_eq_bind, Option.bind_eq_some_iff, Prod.exists] at h
    obtain ⟨inner, hinner, name', tail, hrun, close, hclose, hend⟩ := h
    obtain ⟨rfl, rfl⟩ := Prod.mk.inj (Option.some.inj hend)
    obtain ⟨before, hbefore, hbeforeEq⟩ := skip_cases isBlank inner
    obtain ⟨after, hafter, hafterEq⟩ := skip_cases isBlank tail
    obtain ⟨hne, hname, hnameEq⟩ := run1_cases hrun
    refine ⟨_, ⟨before, after, ⟨hbefore, hne, hname, hafter⟩, rfl⟩, ?_⟩
    rw [eq_append_of_dropStart? hinner, hbeforeEq, hnameEq, hafterEq,
      eq_append_of_dropStart? hclose]
    simp
  · rintro ⟨_, ⟨before, after, hnaming, rfl⟩, rfl⟩
    exact token_of_naming hnaming rest

theorem token_eq_none_iff (cs : Chars) : token cs = none ↔ ¬ ∃ t, IsToken t ∧ t <+: cs := by
  constructor
  · rintro hnone ⟨t, ht, rest, rfl⟩
    obtain ⟨name, hname⟩ := ht.exists_name
    rw [token_eq_some_iff.2 ⟨t, hname, rfl⟩] at hnone
    cases hnone
  · intro hno
    cases h : token cs with
    | none => rfl
    | some found =>
      obtain ⟨t, ht, rfl⟩ := token_eq_some_iff.1 h
      exact absurd ⟨t, ht.isToken, List.prefix_append t found.2⟩ hno

theorem holds_cons_iff {T : Chars → Prop} {c : Char} {cs : Chars} :
    Holds T (c :: cs) ↔ (∃ t, T t ∧ t <+: c :: cs) ∨ Holds T cs := by
  simp only [Holds, List.infix_cons_iff, and_or_left, exists_or]

theorem named_pieces_iff (cs : Chars) : (∀ p ∈ pieces cs, p.name? = none) ↔ ¬ Holds IsToken cs := by
  induction cs with
  | nil =>
    refine ⟨fun _ => not_holds_of_notMem braced_isToken List.not_mem_nil, fun _ p hp => ?_⟩
    cases hp
  | cons c cs ih =>
    rw [holds_cons_iff, not_or, ← ih, ← token_eq_none_iff, pieces, piecesFrom]
    cases htoken : token (c :: cs) with
    | none => simp [pieces, Piece.name?]
    | some found => simp [Piece.name?]

/-- The scan finds a token if there is one. -/
theorem unresolved?_eq_none_iff (text : String) :
    unresolved? text = none ↔ ¬ Holds IsToken text.toList := by
  rw [unresolved?, chars_eq_toList, List.findSome?_eq_none_iff, ← named_pieces_iff]
  simp

end RigWarden.Template
