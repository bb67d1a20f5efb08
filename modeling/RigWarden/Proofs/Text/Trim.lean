import RigWarden.Text.Trim

/-!
# Trimmed texts

The two ends of a text are trimmed independently of each other, and once.
-/

namespace RigWarden.Text

theorem not_blank_of_visible {c : Char} (hlow : 33 ≤ c.toNat) (hhigh : c.toNat ≤ 126) :
    isBlank c = false := by
  rw [← Bool.not_eq_true]
  intro h
  simp only [isBlank, within, List.any_cons, List.any_nil, Bool.or_eq_true, Bool.and_eq_true,
    decide_eq_true_eq, Bool.false_eq_true, or_false] at h
  omega

theorem trimEnd_cons (c : Char) (cs : Chars) :
    trimEnd (c :: cs) = if trimEnd cs = [] ∧ isBlank c = true then [] else c :: trimEnd cs := by
  by_cases hnil : cs.reverse.dropWhile isBlank = []
  · by_cases hc : isBlank c <;> simp [trimEnd, List.dropWhile_append, hnil, hc]
  · simp [trimEnd, List.dropWhile_append, hnil]

theorem trimEnd_cons_of_not_blank {c : Char} (h : isBlank c = false) (cs : Chars) :
    trimEnd (c :: cs) = c :: trimEnd cs := by
  simp [trimEnd_cons, h]

/-- Only what follows a character that is not blank is trimmed. -/
theorem trimEnd_append_cons {c : Char} (h : isBlank c = false) (as bs : Chars) :
    trimEnd (as ++ c :: bs) = as ++ c :: trimEnd bs := by
  induction as with
  | nil => exact trimEnd_cons_of_not_blank h bs
  | cons a as ih => simp [trimEnd_cons a, ih]

theorem trimEnd_concat_of_blank {c : Char} (h : isBlank c = true) (cs : Chars) :
    trimEnd (cs ++ [c]) = trimEnd cs := by
  simp [trimEnd, h]

theorem trimEnd_trimEnd (cs : Chars) : trimEnd (trimEnd cs) = trimEnd cs := by
  induction cs with
  | nil => rfl
  | cons c cs ih =>
    rw [trimEnd_cons]
    split
    next => rfl
    next h => rw [trimEnd_cons, ih, if_neg h]

theorem trimStart_trimStart (cs : Chars) : trimStart (trimStart cs) = trimStart cs := by
  induction cs with
  | nil => rfl
  | cons c cs ih => by_cases h : isBlank c <;> simp [trimStart_cons, h, ih]

theorem trimStart_trimEnd (cs : Chars) : trimStart (trimEnd cs) = trimEnd (trimStart cs) := by
  induction cs with
  | nil => rfl
  | cons c cs ih =>
    by_cases h : isBlank c
    · by_cases hnil : trimEnd cs = []
      · simp [trimEnd_cons, trimStart_cons, h, hnil, ← ih]
      · simp [trimEnd_cons, trimStart_cons, h, hnil, ih]
    · simp [trimEnd_cons, trimStart_cons, h]

theorem trimChars_eq (cs : Chars) : trimChars cs = trimStart (trimEnd cs) :=
  (trimStart_trimEnd cs).symm

@[simp] theorem trimChars_trimEnd (cs : Chars) : trimChars (trimEnd cs) = trimChars cs := by
  rw [trimChars_eq, trimEnd_trimEnd, trimChars_eq]

@[simp] theorem trimChars_trimStart (cs : Chars) : trimChars (trimStart cs) = trimChars cs := by
  rw [trimChars, trimStart_trimStart, trimChars]

@[simp] theorem trimChars_trimChars (cs : Chars) : trimChars (trimChars cs) = trimChars cs := by
  rw [trimChars.eq_1 cs, trimChars_trimEnd, trimChars_trimStart, trimChars]

theorem trimChars_cons_of_blank {c : Char} (h : isBlank c = true) (cs : Chars) :
    trimChars (c :: cs) = trimChars cs := by
  rw [trimChars, trimStart_cons, if_pos h, trimChars]

theorem trimChars_concat_of_blank {c : Char} (h : isBlank c = true) (cs : Chars) :
    trimChars (cs ++ [c]) = trimChars cs := by
  rw [trimChars_eq, trimEnd_concat_of_blank h, trimChars_eq]

theorem trimChars_of_not_blank {cs : Chars} (h : ∀ c ∈ cs, isBlank c = false) :
    trimChars cs = cs := by
  have hend : trimEnd cs = cs := by
    induction cs with
    | nil => rfl
    | cons c cs ih =>
      rw [trimEnd_cons_of_not_blank (h c (by simp)), ih fun c' hc => h c' (by simp [hc])]
  cases cs with
  | nil => rfl
  | cons c cs => rw [trimChars, trimStart_cons, h c (by simp), if_neg (by simp), hend]

theorem mem_of_mem_trimChars {c : Char} {cs : Chars} (h : c ∈ trimChars cs) : c ∈ cs := by
  have hstart := List.mem_reverse.1 ((List.dropWhile_suffix _).mem (List.mem_reverse.1 h))
  exact (List.dropWhile_suffix _).mem hstart

theorem trimChars_dropLastIf {c : Char} (h : isBlank c = true) (cs : Chars) :
    trimChars (dropLastIf c cs) = trimChars cs := by
  rw [dropLastIf]
  split
  next hlast =>
    obtain ⟨init, rfl⟩ := List.getLast?_eq_some_iff.1 hlast
    rw [List.dropLast_concat, trimChars_concat_of_blank h]
  next => rfl

@[simp] theorem trim_trim (s : String) : trim (trim s) = trim s := by
  simp [trim]

theorem mem_of_mem_trim {c : Char} {s : String} (h : c ∈ (trim s).toList) : c ∈ s.toList :=
  mem_of_mem_trimChars (by simpa [trim] using h)

end RigWarden.Text
