import RigWarden.Proofs.Text.Scan

/-!
# Splitting a text once

A split at the first or the last separator, or after the first occurrence of a mark, is determined
by the two parts: they make up the text, and the separator is missing on the side it was looked for.
-/

namespace RigWarden.Text

section separator

variable {sep : Char} {cs before after : Chars}

theorem splitFirst_append (h : sep ∉ before) (after : Chars) :
    splitFirst sep (before ++ sep :: after) = some (before, after) := by
  induction before with
  | nil => simp [splitFirst]
  | cons c before ih =>
    rw [List.mem_cons, not_or] at h
    simp [splitFirst, Ne.symm h.1, ih h.2]

theorem splitFirst_eq_some_iff :
    splitFirst sep cs = some (before, after) ↔ cs = before ++ sep :: after ∧ sep ∉ before := by
  constructor
  · intro h
    induction cs generalizing before with
    | nil => cases h
    | cons c cs ih =>
      rw [splitFirst] at h
      split at h
      next hc =>
        obtain ⟨rfl, rfl⟩ := Prod.mk.inj (Option.some.inj h)
        exact ⟨by rw [hc, List.nil_append], List.not_mem_nil⟩
      next hc =>
        obtain ⟨⟨first, rest⟩, hfirst, hparts⟩ := Option.map_eq_some_iff.1 h
        obtain ⟨rfl, rfl⟩ := Prod.mk.inj hparts
        obtain ⟨rfl, hnot⟩ := ih hfirst
        exact ⟨rfl, List.not_mem_cons_of_ne_of_not_mem (Ne.symm hc) hnot⟩
  · rintro ⟨rfl, hnot⟩
    exact splitFirst_append hnot after

theorem splitLast_eq_some_iff :
    splitLast sep cs = some (before, after) ↔ cs = before ++ sep :: after ∧ sep ∉ after := by
  have hmap : splitLast sep cs = some (before, after) ↔
      splitFirst sep cs.reverse = some (after.reverse, before.reverse) := by
    rw [splitLast, Option.map_eq_some_iff]
    constructor
    · rintro ⟨⟨last, first⟩, hsplit, hparts⟩
      obtain ⟨rfl, rfl⟩ := Prod.mk.inj hparts
      rw [hsplit, List.reverse_reverse, List.reverse_reverse]
    · intro hsplit
      exact ⟨_, hsplit, by rw [List.reverse_reverse, List.reverse_reverse]⟩
  have htext : cs.reverse = after.reverse ++ sep :: before.reverse ↔ cs = before ++ sep :: after := by
    rw [List.reverse_eq_iff]
    simp
  rw [hmap, splitFirst_eq_some_iff, htext, List.mem_reverse]

end separator

section mark

variable {mark cs rest : Chars}

/-- What follows the leftmost `mark` in `cs` is `rest`. -/
def FollowsFirst (mark cs rest : Chars) : Prop :=
  ∃ before, cs = before ++ (mark ++ rest) ∧
    ∀ other after, cs = other ++ (mark ++ after) → before.length ≤ other.length

theorem dropStart?_eq_none_iff : dropStart? mark cs = none ↔ ¬ mark <+: cs := by
  constructor
  · rintro h ⟨rest, rfl⟩
    rw [dropStart?_append] at h
    cases h
  · intro h
    cases hd : dropStart? mark cs with
    | none => rfl
    | some rest => exact absurd ⟨rest, (eq_append_of_dropStart? hd).symm⟩ h

theorem followsFirst_of_start (h : cs = mark ++ rest) : FollowsFirst mark cs rest :=
  ⟨[], h, fun _ _ _ => Nat.zero_le _⟩

theorem FollowsFirst.cons (h : FollowsFirst mark cs rest) {c : Char} (hc : ¬ mark <+: c :: cs) :
    FollowsFirst mark (c :: cs) rest := by
  obtain ⟨before, hcs, hleast⟩ := h
  refine ⟨c :: before, by rw [hcs, List.cons_append], fun other after hother => ?_⟩
  cases other with
  | nil => exact absurd ⟨after, hother.symm⟩ hc
  | cons o other =>
    have hlength := hleast other after (List.cons.inj hother).2
    exact Nat.succ_le_succ hlength

theorem followsFirst_of_afterFirst (h : afterFirst mark cs = some rest) :
    FollowsFirst mark cs rest := by
  induction cs with
  | nil =>
    rw [afterFirst] at h
    split at h
    next hmark =>
      obtain rfl := Option.some.inj h
      exact followsFirst_of_start (by rw [hmark, List.append_nil])
    next => cases h
  | cons c cs ih =>
    rw [afterFirst] at h
    split at h
    next hdrop =>
      obtain rfl := Option.some.inj h
      exact followsFirst_of_start (eq_append_of_dropStart? hdrop)
    next hdrop => exact (ih h).cons (dropStart?_eq_none_iff.1 hdrop)

theorem afterFirst_eq_none_iff : afterFirst mark cs = none ↔ ¬ mark <:+: cs := by
  induction cs with
  | nil => by_cases h : mark = [] <;> simp [afterFirst, h]
  | cons c cs ih =>
    rw [List.infix_cons_iff, not_or, ← ih, ← dropStart?_eq_none_iff, afterFirst]
    cases dropStart? mark (c :: cs) <;> simp

/-- There is one text after the leftmost mark. -/
theorem FollowsFirst.unique {rest' : Chars} (h : FollowsFirst mark cs rest)
    (h' : FollowsFirst mark cs rest') : rest = rest' := by
  obtain ⟨before, hcs, hleast⟩ := h
  obtain ⟨before', hcs', hleast'⟩ := h'
  have hlength := Nat.le_antisymm (hleast _ _ hcs') (hleast' _ _ hcs)
  have hparts := List.append_inj (hcs.symm.trans hcs') hlength
  exact List.append_cancel_left hparts.2

theorem afterFirst_eq_some_iff : afterFirst mark cs = some rest ↔ FollowsFirst mark cs rest := by
  refine ⟨followsFirst_of_afterFirst, fun h => ?_⟩
  cases hafter : afterFirst mark cs with
  | none =>
    obtain ⟨before, hcs, -⟩ := h
    have hinfix : mark <:+: cs := ⟨before, rest, by rw [hcs, List.append_assoc]⟩
    exact absurd hinfix (afterFirst_eq_none_iff.1 hafter)
  | some found => rw [(followsFirst_of_afterFirst hafter).unique h]

end mark

end RigWarden.Text
