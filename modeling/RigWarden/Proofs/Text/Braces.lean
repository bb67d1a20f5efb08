import RigWarden.Text.Trim

/-!
# Texts between double braces

A class of texts is braced when each of them begins with two opening braces and ends with two
closing ones. Where such a text stands in a longer one can be told piece by piece: it does not begin
in a piece without opening braces, does not end in one without closing braces, and does not reach
beyond a character that none of the class has.
-/

namespace RigWarden.Text

/-- One of the texts `T` stands in `cs`. -/
def Holds (T : Chars → Prop) (cs : Chars) : Prop := ∃ t, T t ∧ t <:+: cs

def Braced (T : Chars → Prop) : Prop :=
  ∀ t, T t → ∃ inside, t = ['\x7b', '\x7b'] ++ inside ++ ['\x7d', '\x7d']

/-- No text of the class has the character. -/
def Lacks (T : Chars → Prop) (c : Char) : Prop := ∀ t, T t → c ∉ t

variable {T : Chars → Prop} {as bs cs : Chars}

theorem Holds.mono (h : Holds T as) (hsub : as <:+: bs) : Holds T bs := by
  obtain ⟨t, ht, htas⟩ := h
  exact ⟨t, ht, htas.trans hsub⟩

theorem holds_append_sep {sep : Char} (hsep : Lacks T sep) (as bs : Chars) :
    Holds T (as ++ sep :: bs) ↔ Holds T as ∨ Holds T bs := by
  constructor
  · rintro ⟨t, ht, hin⟩
    have hno := hsep t ht
    have hstart {u : Chars} (hu : u <+: sep :: bs) (hmem : sep ∉ u) : u = [] := by
      rcases List.prefix_cons_iff.1 hu with rfl | ⟨v, rfl, -⟩
      · rfl
      · exact absurd List.mem_cons_self hmem
    rcases List.infix_append_iff.1 hin with hl | hr | ⟨u, v, rfl, hu, hv⟩
    · exact .inl ⟨t, ht, hl⟩
    · rcases List.infix_cons_iff.1 hr with hp | hr
      · obtain rfl := hstart hp hno
        exact .inr ⟨[], ht, List.nil_infix⟩
      · exact .inr ⟨t, ht, hr⟩
    · obtain rfl := hstart hv fun h => hno (List.mem_append_right u h)
      exact .inl ⟨u ++ [], ht, by simpa using hu.isInfix⟩
  · rintro (h | h)
    · exact h.mono (List.prefix_append as _).isInfix
    · exact h.mono ((List.suffix_cons sep bs).trans (List.suffix_append as _)).isInfix

section braced

variable (hT : Braced T)
include hT

theorem Braced.cons {c : Char} {t : Chars} (ht : T (c :: t)) :
    c = '\x7b' ∧ ∃ u, t = '\x7b' :: u := by
  obtain ⟨inside, h⟩ := hT _ ht
  obtain ⟨rfl, rfl⟩ := List.cons.inj h
  exact ⟨rfl, _, rfl⟩

theorem Braced.ne_nil {t : Chars} (ht : T t) : t ≠ [] := by
  obtain ⟨inside, rfl⟩ := hT t ht
  exact nofun

theorem holds_cons_of_not_begins {c : Char} (h : ∀ t, T (c :: t) → ¬ t <+: cs) :
    Holds T (c :: cs) ↔ Holds T cs := by
  refine ⟨fun ⟨t, ht, hin⟩ => ?_, fun hcs => hcs.mono (List.suffix_cons c cs).isInfix⟩
  rcases List.infix_cons_iff.1 hin with hp | hin
  · rcases List.prefix_cons_iff.1 hp with rfl | ⟨u, rfl, hu⟩
    · exact absurd rfl (hT.ne_nil ht)
    · exact absurd hu (h u ht)
  · exact ⟨t, ht, hin⟩

theorem holds_cons_of_ne {c : Char} (h : c ≠ '\x7b') : Holds T (c :: cs) ↔ Holds T cs :=
  holds_cons_of_not_begins hT fun _ ht => absurd (hT.cons ht).1 h

/-- A single brace begins nothing. -/
theorem holds_brace {c : Char} (h : c ≠ '\x7b') : Holds T ('\x7b' :: c :: cs) ↔ Holds T (c :: cs) :=
  holds_cons_of_not_begins hT fun t ht hp => by
    obtain ⟨-, u, rfl⟩ := hT.cons ht
    exact h (List.cons_prefix_cons.1 hp).1.symm

theorem holds_append_left (h : '\x7b' ∉ as) : Holds T (as ++ cs) ↔ Holds T cs := by
  induction as with
  | nil => rfl
  | cons a as ih =>
    rw [List.mem_cons, not_or] at h
    rw [List.cons_append, holds_cons_of_ne hT (Ne.symm h.1), ih h.2]

theorem holds_append_right (h : '\x7d' ∉ bs) : Holds T (as ++ bs) ↔ Holds T as := by
  refine ⟨fun ⟨t, ht, hin⟩ => ?_, fun has => has.mono (List.prefix_append as bs).isInfix⟩
  obtain ⟨inside, hinside⟩ := hT t ht
  have hlast : t.getLast? = some '\x7d' := by
    rw [hinside, List.getLast?_append]
    rfl
  have hclose {u : Chars} (hu : u.getLast? = some '\x7d') (hin : u <:+: bs) : False :=
    h (hin.mem (List.mem_of_getLast? hu))
  rcases List.infix_append_iff.1 hin with hl | hr | ⟨u, v, rfl, hu, hv⟩
  · exact ⟨t, ht, hl⟩
  · exact (hclose hlast hr).elim
  · cases v with
    | nil => exact ⟨u ++ [], ht, by simpa using hu.isInfix⟩
    | cons c v =>
      have hend : (c :: v).getLast? = some '\x7d' := by
        simpa [List.getLast?_append, List.getLast?_cons] using hlast
      exact (hclose hend hv.isInfix).elim

/-- A text is apart from what follows it if something stands between them that ends nothing, and a
character that none of the class has. -/
theorem holds_cell {sep : Char} (hsep : Lacks T sep) (as cs : Chars) (h : '\x7d' ∉ bs) :
    Holds T (as ++ bs ++ sep :: cs) ↔ Holds T as ∨ Holds T cs := by
  rw [holds_append_sep hsep, holds_append_right hT h]

theorem not_holds_of_notMem (h : '\x7b' ∉ as) : ¬ Holds T as := by
  rw [← List.append_nil as, holds_append_left hT h]
  rintro ⟨t, ht, hin⟩
  exact hT.ne_nil ht (List.infix_nil.1 hin)

end braced

end RigWarden.Text
