import RigWarden.Log.Sample
import RigWarden.Proofs.Number.Digits
import RigWarden.Proofs.Number.Sign
import RigWarden.Proofs.Text.Scan

/-!
# Rates in a line

A numeral and a unit are read up to any mark that can stand in neither. A rate in one of the units
is worth its numeral times the factor of the unit, as long as the numeral is not too large for a
number.
-/

namespace RigWarden.Log

open Text Number

section marks

variable {mark : Char}

theorem closedBy_numeral (hdigit : isAsciiDigit mark = false) (hpoint : mark ≠ '.') :
    ClosedBy mark numeral := by
  intro as cs
  simp only [numeral, run1_append_mark hdigit, Option.bind_eq_bind]
  cases run1 isAsciiDigit as with
  | none => rfl
  | some found =>
    obtain ⟨whole, rest⟩ := found
    simp only [Option.map_some, Option.bind_some]
    cases rest with
    | nil => simp [hpoint]
    | cons c tail =>
      by_cases hc : c = '.'
      · subst hc
        simp only [List.cons_append, run1_append_mark hdigit]
        cases run1 isAsciiDigit tail <;> rfl
      · simp [hc]

theorem closedBy_unit (hscale : isScale mark = false)
    (hrate : ['h', '/', 's'].any (foldsTo · mark) = false) : ClosedBy mark unit := by
  intro as cs
  have hfold (bs : Chars) : foldWord ['h', '/', 's'] (bs ++ mark :: cs) =
      (foldWord ['h', '/', 's'] bs).map (· ++ mark :: cs) := foldWord_append_mark hrate bs cs
  cases as with
  | nil =>
    have hnone : foldWord ['h', '/', 's'] (mark :: cs) = none := hfold []
    simp [unit, hscale, hnone]
  | cons a as =>
    have hsame := hfold (a :: as)
    rw [List.cons_append] at hsame
    rw [List.cons_append, unit, unit, hfold, hsame]
    split
    · rw [Option.map_map, Option.map_map]
      rfl
    · rw [Option.map_map, Option.map_map]
      rfl

end marks

/-! Numerals -/

/-- A decimal numeral. Without digits behind it there is no point. -/
def numeralText (whole : Chars) : (fraction : Chars) → Chars
  | [] => whole
  | c :: cs => whole ++ '.' :: c :: cs

section numerals

variable {whole fraction : Chars}

theorem mem_numeralText {c : Char} (h : c ∈ numeralText whole fraction) :
    c ∈ whole ++ fraction ∨ c = '.' := by
  cases fraction with
  | nil => exact .inl (List.mem_append_left _ h)
  | cons d ds =>
    rw [numeralText, List.mem_append, List.mem_cons] at h
    rw [List.mem_append]
    tauto

theorem numeral_numeralText (hne : whole ≠ [])
    (hdigits : ∀ c ∈ whole ++ fraction, isAsciiDigit c = true) (rest : Chars) :
    numeral (numeralText whole fraction ++ ' ' :: rest) =
      some (numeralText whole fraction, ' ' :: rest) := by
  obtain ⟨hwhole, hfraction⟩ := List.forall_mem_append.1 hdigits
  have hblank : isAsciiDigit ' ' = false := by decide
  have hpoint : isAsciiDigit '.' = false := by decide
  cases fraction with
  | nil => simp [numeral, numeralText, run1_append hne hwhole hblank]
  | cons c cs =>
    have htext : numeralText whole (c :: cs) ++ ' ' :: rest =
        whole ++ '.' :: ((c :: cs) ++ ' ' :: rest) := by simp [numeralText]
    rw [htext, numeral, run1_append hne hwhole hpoint]
    simp only [Option.bind_eq_bind, Option.bind_some]
    rw [run1_append (List.cons_ne_nil c cs) hfraction hblank]
    rfl

theorem ne_point_of_isAsciiDigit {c : Char} (h : isAsciiDigit c = true) : (c != '.') = true := by
  have hne : c ≠ '.' := by
    rintro rfl
    exact absurd h (by decide)
  simpa using hne

theorem decimal?_numeralText (hne : whole ≠ [])
    (hdigits : ∀ c ∈ whole ++ fraction, isAsciiDigit c = true) :
    decimal? (numeralText whole fraction) =
      some (ofDecimal (ofDigits (whole ++ fraction)) fraction.length) := by
  have hall : (whole ++ fraction).all isAsciiDigit = true := List.all_eq_true.2 hdigits
  have hfront : ∀ c ∈ whole, (c != '.') = true := fun c hc =>
    ne_point_of_isAsciiDigit (hdigits c (List.mem_append_left _ hc))
  have htake : (numeralText whole fraction).takeWhile (· != '.') = whole := by
    cases fraction with
    | nil => exact List.takeWhile_eq_self_iff.2 hfront
    | cons c cs => simp [numeralText, List.takeWhile_append_of_pos hfront]
  have hdrop : (numeralText whole fraction).drop (whole.length + 1) = fraction := by
    cases fraction with
    | nil => exact List.drop_of_length_le (Nat.le_succ _)
    | cons c cs => simp [numeralText, List.drop_append]
  rw [decimal?]
  simp only [htake, hdrop, hall, and_true, ne_eq, List.append_eq_nil_iff, hne, false_and,
    not_false_eq_true, if_true]

end numerals

/-! Units -/

inductive Scale where
  | one
  | kilo
  | mega
  | giga

namespace Scale

/-- The unit in lower case. -/
def unitText : Scale → Chars
  | one => ['h', '/', 's']
  | kilo => ['k', 'h', '/', 's']
  | mega => ['m', 'h', '/', 's']
  | giga => ['g', 'h', '/', 's']

def factor : Scale → Float
  | one => 1
  | kilo => 1000
  | mega => 1000000
  | giga => 1000000000

end Scale

theorem foldsTo_of_lower {w c : Char} (h : lower c = w) : foldsTo w c = true := by
  simp [foldsTo, h]

theorem foldWord_of_lower {word u : Chars} (h : u.map lower = word) (rest : Chars) :
    foldWord word (u ++ rest) = some rest := by
  subst h
  induction u with
  | nil => rfl
  | cons c u ih => rw [List.map_cons, List.cons_append, foldWord, if_pos (foldsTo_of_lower rfl), ih]

theorem isScale_of_lower_h {c : Char} (h : lower c = 'h') : isScale c = false := by
  have hkelvin : c.toNat ≠ 0x212A := by
    intro hc
    have hsame : lower c = c := if_neg (by omega)
    rw [hsame] at h
    subst h
    exact absurd hc (by decide)
  simp [isScale, foldsTo, h, hkelvin]

theorem not_blank_of_lower {c w : Char} (h : lower c = w) (hw : isBlank w = false) :
    isBlank c = false := by
  by_cases hcapital : 65 ≤ c.toNat ∧ c.toNat ≤ 90
  · exact not_blank_of_visible (by omega) (by omega)
  · rwa [← h, lower, if_neg hcapital] at hw

/-- A unit in any case. -/
theorem unit_of_lower {u : Chars} {scale : Scale} (h : u.map lower = scale.unitText) :
    ∃ found, factor? found = some scale.factor ∧
      ∀ rest, unit (u ++ rest) = some (found, rest) := by
  obtain ⟨c, cs, rfl⟩ : ∃ c cs, u = c :: cs := by
    refine List.exists_cons_of_ne_nil ?_
    rintro rfl
    cases scale <;> cases h
  have hscaled {w : Char} (hw : lower c = w) (hcs : cs.map lower = ['h', '/', 's'])
      (hscale : isScale c = true) (rest : Chars) :
      unit (c :: cs ++ rest) = some (some c, rest) := by
    rw [List.cons_append, unit, if_pos hscale, foldWord_of_lower hcs]
    rfl
  cases scale with
  | one =>
    refine ⟨none, rfl, fun rest => ?_⟩
    have hword : foldWord ['h', '/', 's'] (c :: (cs ++ rest)) = some rest :=
      foldWord_of_lower h rest
    rw [List.cons_append, unit, isScale_of_lower_h (List.cons.inj h).1, hword]
    rfl
  | kilo =>
    obtain ⟨hc, hcs⟩ := List.cons.inj h
    exact ⟨some c, by simp only [factor?, hc]; rfl, hscaled hc hcs (by simp [isScale, foldsTo, hc])⟩
  | mega =>
    obtain ⟨hc, hcs⟩ := List.cons.inj h
    exact ⟨some c, by simp only [factor?, hc]; rfl, hscaled hc hcs (by simp [isScale, foldsTo, hc])⟩
  | giga =>
    obtain ⟨hc, hcs⟩ := List.cons.inj h
    exact ⟨some c, by simp only [factor?, hc]; rfl, hscaled hc hcs (by simp [isScale, foldsTo, hc])⟩

theorem scaled?_ofDecimal {found : Option Char} {factor : Float} (h : factor? found = some factor)
    (ds places : Nat) :
    scaled? (ofDecimal ds places) found =
      if (ofDecimal ds places).isFinite then some (ofDecimal ds places * factor) else none := by
  have hsign : ¬ ofDecimal ds places < 0 := (unsigned_ofDecimal ds places).not_lt_zero
  rw [scaled?, h]
  cases (ofDecimal ds places).isFinite <;> simp [hsign]

end RigWarden.Log
