import RigWarden.Number.Unsigned
import RigWarden.Proofs.Text.Trim

/-!
# Decimal digits

A number is written in ASCII digits, at least one, without a zero in front, and reads back.
-/

namespace RigWarden.Number

open Text

theorem isAsciiDigit_iff {c : Char} : isAsciiDigit c = true ↔ 48 ≤ c.toNat ∧ c.toNat ≤ 57 := by
  simp [isAsciiDigit, within]

theorem isAsciiDigit_of_isDigit {c : Char} (h : c.isDigit = true) : isAsciiDigit c = true := by
  rw [Char.isDigit, Bool.and_eq_true, decide_eq_true_iff, decide_eq_true_iff] at h
  exact isAsciiDigit_iff.2 ⟨h.1, h.2⟩

theorem isDigit_of_isAsciiDigit {c : Char} (h : isAsciiDigit c = true) : isDigit c = true := by
  have hrange := isAsciiDigit_iff.1 h
  rw [isDigit, if_pos (by omega), h]

theorem not_blank_of_isAsciiDigit {c : Char} (h : isAsciiDigit c = true) : isBlank c = false := by
  have hrange := isAsciiDigit_iff.1 h
  exact not_blank_of_visible (by omega) (by omega)

theorem foldsTo_of_isAsciiDigit {w c : Char} (hw : isAsciiDigit w = false)
    (h : isAsciiDigit c = true) : foldsTo w c = false := by
  have hrange := isAsciiDigit_iff.1 h
  have hlower : lower c = c := if_neg (by omega)
  have hne : c ≠ w := by
    rintro rfl
    rw [h] at hw
    cases hw
  simp only [foldsTo, hlower, beq_false_of_ne hne, Bool.false_or, Bool.or_eq_false_iff,
    Bool.and_eq_false_imp, beq_eq_false_iff_ne]
  exact ⟨fun _ => by omega, fun _ => by omega⟩

theorem isAsciiDigit_of_mem_digits {n : Nat} {c : Char} (h : c ∈ digits n) :
    isAsciiDigit c = true :=
  isAsciiDigit_of_isDigit (Nat.isDigit_of_mem_toDigits (by decide) (by decide) h)

theorem all_digits (n : Nat) : (digits n).all isAsciiDigit = true :=
  List.all_eq_true.2 fun _ => isAsciiDigit_of_mem_digits

theorem digits_ne_nil (n : Nat) : digits n ≠ [] := Nat.toDigits_ne_nil

theorem ofDigits_eq (cs : Chars) : ofDigits cs = Nat.ofDigitChars 10 cs 0 := by
  simp only [ofDigits, Nat.ofDigitChars_eq_foldl, digitValue, Nat.mul_comm]
  rfl

@[simp] theorem ofDigits_digits (n : Nat) : ofDigits (digits n) = n := by
  rw [ofDigits_eq, digits, Nat.ofDigitChars_ten_toDigits]

/-- Only zero is written with a zero in front. -/
theorem eq_zero_of_digits {n : Nat} {ds : Chars} (h : digits n = '0' :: ds) : n = 0 ∧ ds = [] := by
  induction n using Nat.strongRecOn generalizing ds with
  | ind n ih =>
    rw [digits, Nat.toDigits_eq_if (by decide)] at h
    split at h
    next hlt =>
      obtain ⟨hc, rfl⟩ := List.cons.inj h
      have hzero : ∀ m < 10, m.digitChar = '0' → m = 0 := by decide
      exact ⟨hzero n hlt hc, rfl⟩
    next hge =>
      obtain ⟨c, cs, hq⟩ := List.exists_cons_of_ne_nil (digits_ne_nil (n / 10))
      have hc : c = '0' := by
        rw [digits] at hq
        rw [hq] at h
        exact (List.cons.inj h).1
      subst hc
      have := (ih (n / 10) (by omega) hq).1
      omega

end RigWarden.Number
