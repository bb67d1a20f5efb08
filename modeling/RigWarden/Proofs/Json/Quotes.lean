import RigWarden.Json.Writer
import RigWarden.Proofs.Text.Braces

/-!
# Texts inside JSON strings

Braces and line feeds have a place of their own in a written string: braces are never escaped, and
no escape brings any in. So what stands between braces in a string stands there, escaped, in the
JSON text, and does not get mixed up with the braces of the layout.
-/

namespace RigWarden.Json

open Text

def escape (cs : Chars) : Chars := cs.flatMap escapeChar

theorem escape_cons (c : Char) (cs : Chars) : escape (c :: cs) = escapeChar c ++ escape cs := rfl

theorem escape_append (as bs : Chars) : escape (as ++ bs) = escape as ++ escape bs :=
  List.flatMap_append

theorem hexDigit_plain : ∀ n < 16, hexDigit n ≠ '\x7b' ∧ hexDigit n ≠ '\x7d' ∧ hexDigit n ≠ '\n' := by
  decide

/-- A character stands for itself, or is escaped without braces and line feeds. -/
theorem escapeChar_cases (c : Char) : escapeChar c = [c] ∧ 32 ≤ c.toNat ∨
    escapeChar c ≠ [] ∧ ∀ x ∈ escapeChar c, x ≠ '\x7b' ∧ x ≠ '\x7d' ∧ x ≠ '\n' := by
  rw [escapeChar]
  split
  next => exact .inr (by simp)
  split
  next => exact .inr (by simp)
  split
  next => exact .inr (by simp)
  split
  next => exact .inr (by simp)
  split
  next => exact .inr (by simp)
  split
  next => exact .inr (by simp)
  split
  next => exact .inr (by simp)
  split
  next hlow =>
    have hhigh := hexDigit_plain (c.toNat / 16) (by omega)
    have hrest := hexDigit_plain (c.toNat % 16) (by omega)
    exact .inr (by simp [hhigh, hrest])
  next hlow => exact .inl ⟨rfl, by omega⟩

theorem escapeChar_self {c : Char} (hquote : c ≠ '"') (hslash : c ≠ '\\') (hlow : 32 ≤ c.toNat) :
    escapeChar c = [c] := by
  have hne {x : Char} (hx : x.toNat < 32) : c ≠ x := by
    rintro rfl
    omega
  rw [escapeChar, if_neg hquote, if_neg hslash, if_neg (hne (by decide)), if_neg (hne (by decide)),
    if_neg (hne (by decide)), if_neg (hne (by decide)), if_neg (hne (by decide)), if_neg (by omega)]

/-- A character that only stands for itself. -/
def IsBare (c : Char) : Prop := escapeChar c = [c] ∧ ∀ x, c ∈ escapeChar x → x = c

theorem isBare_of {c : Char} (hself : escapeChar c = [c]) (h : c = '\x7b' ∨ c = '\x7d') : IsBare c := by
  refine ⟨hself, fun x hx => ?_⟩
  rcases escapeChar_cases x with ⟨he, -⟩ | ⟨-, hno⟩
  · rw [he, List.mem_singleton] at hx
    exact hx.symm
  · rcases h with rfl | rfl
    · exact absurd rfl (hno _ hx).1
    · exact absurd rfl (hno _ hx).2.1

theorem isBare_open : IsBare '\x7b' := isBare_of (by decide) (.inl rfl)

theorem isBare_close : IsBare '\x7d' := isBare_of (by decide) (.inr rfl)

theorem lineFeed_notMem_escape (cs : Chars) : '\n' ∉ escape cs := by
  intro h
  obtain ⟨c, -, hc⟩ := List.mem_flatMap.1 h
  rcases escapeChar_cases c with ⟨he, hlow⟩ | ⟨-, hno⟩
  · rw [he, List.mem_singleton] at hc
    subst hc
    exact absurd hlow (by decide)
  · exact (hno _ hc).2.2 rfl

theorem IsBare.notMem_escape {c : Char} (h : IsBare c) {cs : Chars} (hc : c ∉ cs) :
    c ∉ escape cs := by
  intro hmem
  obtain ⟨x, hx, hcx⟩ := List.mem_flatMap.1 hmem
  exact hc (h.2 x hcx ▸ hx)

/-- What stands around a bare character in a written text stands around it in the text. -/
theorem IsBare.split {c : Char} (h : IsBare c) {cs bs : Chars} (as : Chars) (he : escape cs = as ++ c :: bs) :
    ∃ front back, cs = front ++ c :: back ∧ escape front = as ∧ escape back = bs := by
  induction cs generalizing as with
  | nil => simp [escape] at he
  | cons x cs ih =>
    have hlater (as' : Chars) (hx : as = escapeChar x ++ as') (hcs : escape cs = as' ++ c :: bs) :
        ∃ front back, x :: cs = front ++ c :: back ∧ escape front = as ∧ escape back = bs := by
      obtain ⟨front, back, rfl, hfront, hback⟩ := ih as' hcs
      exact ⟨x :: front, back, rfl, by rw [escape_cons, hfront, hx], hback⟩
    rw [escape_cons] at he
    rcases List.append_eq_append_iff.1 he with ⟨as', hx, hcs⟩ | ⟨bs', hx, hcs⟩
    · exact hlater as' hx hcs
    · cases bs' with
      | nil => exact hlater [] (by simpa using hx.symm) hcs.symm
      | cons b bs' =>
        obtain ⟨rfl, hbs⟩ := List.cons.inj hcs
        obtain rfl : x = c := h.2 x (by simp [hx])
        rw [h.1] at hx
        obtain ⟨rfl, -⟩ | ⟨_, -, hno⟩ := List.append_eq_cons_iff.1 hx.symm
        · simp only [List.nil_append, List.cons.injEq, true_and] at hx
          subst hx
          exact ⟨[], cs, rfl, rfl, hbs.symm⟩
        · simp at hno

theorem eq_nil_of_escape {cs : Chars} (h : escape cs = []) : cs = [] := by
  cases cs with
  | nil => rfl
  | cons c cs =>
    rw [escape_cons, List.append_eq_nil_iff] at h
    rcases escapeChar_cases c with ⟨he, -⟩ | ⟨hne, -⟩
    · simp [he] at h
    · exact absurd h.1 hne

/-! Classes of texts -/

variable {T : Chars → Prop} {cs rest : Chars}

/-- Escaping a text of `kept` characters does not change whether it belongs to the class. -/
def Lasts (T : Chars → Prop) (kept : Char → Prop) : Prop :=
  ∀ t, (∀ c ∈ t, kept c) → (T (escape t) ↔ T t)

theorem holds_escape (hT : Braced T) {kept : Char → Prop} (hlasts : Lasts T kept)
    (hcs : ∀ c ∈ cs, kept c) : Holds T (escape cs) ↔ Holds T cs := by
  constructor
  · rintro ⟨t, ht, front, back, hin⟩
    obtain ⟨inside, rfl⟩ := hT t ht
    have htext : escape cs = front ++ '\x7b' :: (('\x7b' :: inside ++ ['\x7d']) ++ '\x7d' :: back) := by
      rw [← hin]
      simp
    obtain ⟨before, tail, rfl, -, htail⟩ := isBare_open.split _ htext
    obtain ⟨middle, after, rfl, hmiddle, -⟩ := isBare_close.split _ htail
    have hin : '\x7b' :: middle ++ ['\x7d'] <:+: before ++ '\x7b' :: (middle ++ '\x7d' :: after) :=
      ⟨before, after, by simp⟩
    have hescape : escape ('\x7b' :: middle ++ ['\x7d']) =
        ['\x7b', '\x7b'] ++ inside ++ ['\x7d', '\x7d'] := by
      rw [escape_append, escape_cons, hmiddle, isBare_open.1, ← List.singleton_append]
      simp [escape, isBare_close.1]
    exact ⟨_, (hlasts _ fun c hc => hcs c (hin.mem hc)).1 (hescape ▸ ht), hin⟩
  · rintro ⟨t, ht, hin⟩
    have hin' : escape t <:+: escape cs := by
      obtain ⟨front, back, rfl⟩ := hin
      exact ⟨escape front, escape back, by rw [escape_append, escape_append]⟩
    exact ⟨escape t, (hlasts t fun c hc => hcs c (hin.mem hc)).2 ht, hin'⟩

/-- The texts of the class stay inside a string or on a line. -/
def Cut (T : Chars → Prop) : Prop := Lacks T '"' ∨ Lacks T '\n'

/-- Up to the end of the line there are no braces. -/
def EndsLine (cs : Chars) : Prop :=
  ∃ as bs, cs = as ++ '\n' :: bs ∧ '\x7b' ∉ as ∧ '\x7d' ∉ as

theorem endsLine_newline (depth : Nat) (cs : Chars) : EndsLine (newline depth ++ cs) :=
  ⟨[], _, rfl, List.not_mem_nil, List.not_mem_nil⟩

theorem EndsLine.cons {c : Char} (h : EndsLine cs) (hopen : c ≠ '\x7b') (hclose : c ≠ '\x7d') :
    EndsLine (c :: cs) := by
  obtain ⟨as, bs, rfl, has, has'⟩ := h
  exact ⟨c :: as, bs, rfl, by simp [has, hopen.symm], by simp [has', hclose.symm]⟩

theorem EndsLine.append {as : Chars} (h : EndsLine cs) (hopen : '\x7b' ∉ as) (hclose : '\x7d' ∉ as) :
    EndsLine (as ++ cs) := by
  obtain ⟨as', bs, rfl, has, has'⟩ := h
  exact ⟨as ++ as', bs, by simp, by simp [has, hopen], by simp [has', hclose]⟩

section layout

variable (hT : Braced T)
include hT

theorem holds_newline (depth : Nat) : Holds T (newline depth ++ cs) ↔ Holds T cs :=
  holds_append_left hT (by simp [newline])

theorem holds_name {name : String} (h : '\x7b' ∉ name.toList) :
    Holds T (quote name ++ cs) ↔ Holds T cs :=
  holds_append_left hT (by
    simpa [quote, escape] using isBare_open.notMem_escape h)

/-- What a string holds is apart from what follows it. -/
theorem holds_quote (hcut : Cut T) (s : String) (hrest : EndsLine rest) :
    Holds T (quote s ++ rest) ↔ Holds T (escape s.toList) ∨ Holds T rest := by
  have htext : quote s ++ rest = '"' :: (escape s.toList ++ '"' :: rest) := by
    simp [quote, escape]
  rw [htext, holds_cons_of_ne hT (by decide)]
  rcases hcut with hquote | hline
  · exact holds_append_sep hquote _ _
  · obtain ⟨as, bs, rfl, hopen, hclose⟩ := hrest
    have hclose' : '\x7d' ∉ '"' :: as := by simp [hclose]
    have hcell := holds_cell hT hline (escape s.toList) bs hclose'
    rw [holds_append_left hT hopen, holds_cons_of_ne hT (by decide), ← hcell]
    simp

end layout

end RigWarden.Json
