import RigWarden.Proofs.Config.Tokens

/-!
# Reading a template back

A text that is put together of tokens and of characters other than an opening brace has just these
pieces.
-/

namespace RigWarden.Template

open Text

/-- A character that begins no token, or a token without blanks. -/
def Piece.isPlain : Piece → Bool
  | char c => c != '\x7b'
  | token name source => !name.isEmpty && name.all isNameChar &&
    source == ['\x7b', '\x7b'] ++ name ++ ['\x7d', '\x7d']

theorem piecesFrom_eq (n : Nat) (cs : Chars) : piecesFrom n cs = pieces (cs.drop n) := by
  induction cs generalizing n with
  | nil => cases n <;> rfl
  | cons c cs ih =>
    cases n with
    | zero => rfl
    | succ n => exact ih n

theorem token_of_char {c : Char} (h : c ≠ '\x7b') (cs : Chars) : token (c :: cs) = none := by
  simp [token, dropStart?, Ne.symm h]

theorem token_append {name : Chars} (hne : name ≠ []) (hname : ∀ c ∈ name, isNameChar c = true)
    (rest : Chars) :
    token (['\x7b', '\x7b'] ++ name ++ ['\x7d', '\x7d'] ++ rest) = some (name, rest) := by
  have hnaming : Naming [] name [] := ⟨by simp, hne, hname, by simp⟩
  simpa using token_of_naming hnaming rest

/-- A token is one piece, whatever follows it. -/
theorem pieces_of_token {name source rest : Chars} (hne : source ≠ [])
    (h : token (source ++ rest) = some (name, rest)) :
    pieces (source ++ rest) = .token name source :: pieces rest := by
  obtain ⟨c, tail, rfl⟩ := List.exists_cons_of_ne_nil hne
  have htake : (tail ++ rest).length + 1 - rest.length = (c :: tail).length := by
    rw [List.length_append, List.length_cons]
    omega
  have hskip : (tail ++ rest).length - rest.length = tail.length := by simp
  rw [List.cons_append] at h
  rw [pieces, List.cons_append, piecesFrom, h]
  simp only
  rw [htake, hskip, piecesFrom_eq, ← List.cons_append, List.take_left, List.drop_left]

theorem pieces_of_no_token {c : Char} {cs : Chars} (h : token (c :: cs) = none) :
    pieces (c :: cs) = .char c :: pieces cs := by
  rw [pieces, piecesFrom, h, pieces]

theorem pieces_append {p : Piece} (h : p.isPlain = true) (cs : Chars) :
    pieces (p.source ++ cs) = p :: pieces cs := by
  cases p with
  | char c =>
    have hc : c ≠ '\x7b' := by simpa [Piece.isPlain] using h
    exact pieces_of_no_token (token_of_char hc cs)
  | token name source =>
    simp only [Piece.isPlain, Bool.and_eq_true, beq_iff_eq, List.all_eq_true] at h
    obtain ⟨⟨hne, hname⟩, rfl⟩ := h
    exact pieces_of_token (by simp [Piece.source]) (token_append (by simpa using hne) hname cs)

/-- The pieces a text is put together of are those it is read as. -/
theorem pieces_flatMap_source {ps : List Piece} (h : ps.all Piece.isPlain = true) :
    pieces (ps.flatMap Piece.source) = ps := by
  induction ps with
  | nil => rfl
  | cons p ps ih =>
    rw [List.all_cons, Bool.and_eq_true] at h
    rw [List.flatMap_cons, pieces_append h.1, ih h.2]

theorem fill_chars (values : Values) (cs : Chars) :
    (cs.map Piece.char).flatMap (Piece.fill values) = cs := by
  induction cs with
  | nil => rfl
  | cons c cs ih => simp [Piece.fill, ih]

theorem fill_eq_ok {template : String} {ps : List Piece}
    (htext : template.toList = ps.flatMap Piece.source) (hplain : ps.all Piece.isPlain = true)
    {values : Values} (hvalues : missing? values ps = none) :
    fill template values = .ok (.ofList (ps.flatMap (Piece.fill values))) := by
  rw [fill, chars_eq_toList, htext, pieces_flatMap_source hplain, hvalues]

end RigWarden.Template
