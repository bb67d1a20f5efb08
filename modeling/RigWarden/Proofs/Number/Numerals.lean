import RigWarden.Proofs.Number.Digits

/-!
# Numerals

A run of decimal digits denotes a number, with zeros in front or without. A plus sign before the
digits is read over.
-/

namespace RigWarden.Number

open Text

theorem isAsciiDigit_eq_isDigit (c : Char) : isAsciiDigit c = c.isDigit := by
  rw [Bool.eq_iff_iff, isAsciiDigit_iff, Char.isDigit, Bool.and_eq_true, decide_eq_true_iff,
    decide_eq_true_iff]
  rfl

/-- A non-empty run of ASCII digits that denotes `n`. -/
structure Denotes (ds : Chars) (n : Nat) : Prop where
  ne_nil : ds ≠ []
  digits : ∀ c ∈ ds, c.isDigit = true
  value : Nat.ofDigitChars 10 ds 0 = n

theorem denotes_iff {ds : Chars} {n : Nat} :
    Denotes ds n ↔ ds ≠ [] ∧ ds.all isAsciiDigit = true ∧ ofDigits ds = n := by
  simp only [List.all_eq_true, isAsciiDigit_eq_isDigit, ofDigits_eq]
  exact ⟨fun h => ⟨h.ne_nil, h.digits, h.value⟩, fun h => ⟨h.1, h.2.1, h.2.2⟩⟩

theorem denotes_digits (n : Nat) : Denotes (digits n) n :=
  denotes_iff.2 ⟨digits_ne_nil n, all_digits n, ofDigits_digits n⟩

theorem Denotes.isDigit {ds : Chars} {n : Nat} (h : Denotes ds n) :
    ∀ c ∈ ds, Text.isDigit c = true := fun c hc =>
  isDigit_of_isAsciiDigit (isAsciiDigit_of_isDigit (h.digits c hc))

theorem Denotes.ne_plus {ds rest : Chars} {n : Nat} (h : Denotes ds n) : ds ≠ '+' :: rest := by
  rintro rfl
  exact absurd (h.digits '+' List.mem_cons_self) (by decide)

theorem unsigned?_plus (bound : Nat) (ds : Chars) :
    unsigned? bound ('+' :: ds) =
      if ds ≠ [] ∧ ds.all isAsciiDigit = true ∧ ofDigits ds < bound then some (ofDigits ds)
      else none := rfl

theorem unsigned?_of_ne_plus {cs : Chars} (h : ∀ ds, cs ≠ '+' :: ds) (bound : Nat) :
    unsigned? bound cs =
      if cs ≠ [] ∧ cs.all isAsciiDigit = true ∧ ofDigits cs < bound then some (ofDigits cs)
      else none := by
  simp only [unsigned?]

/-- A numeral is a run of digits, or one with a plus sign in front. -/
theorem unsigned?_eq_some_iff {bound n : Nat} {cs : Chars} :
    unsigned? bound cs = some n ↔
      n < bound ∧ (Denotes cs n ∨ ∃ ds, cs = '+' :: ds ∧ Denotes ds n) := by
  have hrun (ds : Chars) :
      (if ds ≠ [] ∧ ds.all isAsciiDigit = true ∧ ofDigits ds < bound then some (ofDigits ds)
        else none) = some n ↔ n < bound ∧ Denotes ds n := by
    rw [Option.ite_none_right_eq_some, Option.some_inj, denotes_iff]
    constructor
    · rintro ⟨⟨hne, hall, hlt⟩, rfl⟩
      exact ⟨hlt, hne, hall, rfl⟩
    · rintro ⟨hlt, hne, hall, rfl⟩
      exact ⟨⟨hne, hall, hlt⟩, rfl⟩
  by_cases hplus : ∃ ds, cs = '+' :: ds
  · obtain ⟨ds, rfl⟩ := hplus
    have hsign : ¬ Denotes ('+' :: ds) n := fun h => h.ne_plus rfl
    rw [unsigned?_plus, hrun]
    simp [hsign]
  · have hnone : ¬ ∃ ds, cs = '+' :: ds ∧ Denotes ds n := fun ⟨ds, hds, _⟩ => hplus ⟨ds, hds⟩
    rw [unsigned?_of_ne_plus fun ds hds => hplus ⟨ds, hds⟩, hrun, or_iff_left hnone]

theorem Denotes.count?_eq {ds : Chars} {n : Nat} (h : Denotes ds n) :
    count? ds = if n < limit64 then some n else none := by
  obtain ⟨hne, hall, rfl⟩ := denotes_iff.1 h
  rw [count?, unsigned?_of_ne_plus fun _ => h.ne_plus]
  simp only [hne, hall, ne_eq, not_false_eq_true, true_and]

end RigWarden.Number
