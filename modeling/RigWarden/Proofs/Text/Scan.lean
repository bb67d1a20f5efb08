import Mathlib.Data.List.TakeWhile
import RigWarden.Text.Scan

/-!
# What scanners read

A run ends at the first character outside its class. A search passes over a part of a text in which
its scanner can start nowhere.
-/

namespace RigWarden.Text

theorem skip_append {p : Char → Bool} {as : Chars} (has : ∀ c ∈ as, p c = true) {c : Char}
    (hc : p c = false) (cs : Chars) : skip p (as ++ c :: cs) = c :: cs := by
  rw [skip, List.dropWhile_append_of_pos has, List.dropWhile_cons, if_neg (by simp [hc])]

theorem skip_cases (p : Char → Bool) (cs : Chars) :
    ∃ skipped, (∀ c ∈ skipped, p c = true) ∧ cs = skipped ++ skip p cs :=
  ⟨cs.takeWhile p, List.all_eq_true.1 List.all_takeWhile, List.takeWhile_append_dropWhile.symm⟩

theorem run1_append {p : Char → Bool} {as : Chars} (hne : as ≠ []) (has : ∀ c ∈ as, p c = true)
    {c : Char} (hc : p c = false) (cs : Chars) : run1 p (as ++ c :: cs) = some (as, c :: cs) := by
  obtain ⟨a, as, rfl⟩ := List.exists_cons_of_ne_nil hne
  rw [run1, List.takeWhile_append_of_pos has, List.dropWhile_append_of_pos has]
  simp [hc]

theorem run1_all {p : Char → Bool} {as : Chars} (hne : as ≠ []) (has : ∀ c ∈ as, p c = true) :
    run1 p as = some (as, []) := by
  obtain ⟨a, as, rfl⟩ := List.exists_cons_of_ne_nil hne
  rw [run1, List.takeWhile_eq_self_iff.2 has, List.dropWhile_eq_nil_iff.2 has]

theorem run1_append_of_head {p : Char → Bool} {as rest : Chars} (hne : as ≠ [])
    (has : ∀ c ∈ as, p c = true) (hrest : ∀ c ∈ rest.head?, p c = false) :
    run1 p (as ++ rest) = some (as, rest) := by
  cases rest with
  | nil => rw [List.append_nil, run1_all hne has]
  | cons c rest => exact run1_append hne has (hrest c rfl) rest

theorem run1_cases {p : Char → Bool} {cs found rest : Chars} (h : run1 p cs = some (found, rest)) :
    found ≠ [] ∧ (∀ c ∈ found, p c = true) ∧ cs = found ++ rest := by
  rw [run1] at h
  split at h
  next => cases h
  next c cs' hfound =>
    obtain ⟨rfl, rfl⟩ := Prod.mk.inj (Option.some.inj h)
    refine ⟨nofun, fun c hc => ?_, ?_⟩
    · exact List.all_eq_true.1 (List.all_takeWhile (p := p)) c (hfound ▸ hc)
    · rw [← hfound, List.takeWhile_append_dropWhile]

theorem dropStart?_append (start rest : Chars) : dropStart? start (start ++ rest) = some rest := by
  induction start with
  | nil => cases rest <;> rfl
  | cons c start ih => simp [dropStart?, ih]

theorem eq_append_of_dropStart? {start cs rest : Chars} (h : dropStart? start cs = some rest) :
    cs = start ++ rest := by
  induction start generalizing cs with
  | nil => simpa [dropStart?] using h
  | cons s start ih =>
    cases cs with
    | nil => cases h
    | cons c cs =>
      rw [dropStart?] at h
      split at h
      next hs => rw [hs, ih h, List.cons_append]
      next => cases h

theorem foldWord_cases {word cs rest : Chars} (h : foldWord word cs = some rest) :
    ∃ found, cs = found ++ rest ∧ ∀ c ∈ found, word.any (foldsTo · c) = true := by
  induction word generalizing cs with
  | nil =>
    obtain rfl := Option.some.inj h
    exact ⟨[], rfl, nofun⟩
  | cons w word ih =>
    cases cs with
    | nil => cases h
    | cons c cs =>
      rw [foldWord] at h
      split at h
      next hc =>
        obtain ⟨found, rfl, hfound⟩ := ih h
        refine ⟨c :: found, rfl, List.forall_mem_cons.2 ⟨?_, fun d hd => ?_⟩⟩
        · rw [List.any_cons, hc, Bool.true_or]
        · rw [List.any_cons, hfound d hd, Bool.or_true]
      next => cases h

theorem exists_of_foldWord {word cs rest : Chars} (h : foldWord word cs = some rest) {w : Char}
    (hw : w ∈ word) : ∃ c ∈ cs, foldsTo w c = true := by
  induction word generalizing cs with
  | nil => cases hw
  | cons v word ih =>
    cases cs with
    | nil => cases h
    | cons c cs =>
      rw [foldWord] at h
      split at h
      next hc =>
        rcases List.mem_cons.1 hw with rfl | hw
        · exact ⟨c, List.mem_cons_self, hc⟩
        · obtain ⟨d, hd, hfold⟩ := ih h hw
          exact ⟨d, List.mem_cons_of_mem c hd, hfold⟩
      next => cases h

theorem findSome?_cons_or {α β : Type} (f : α → Option β) (a : α) (as : List α) :
    (a :: as).findSome? f = (f a).or (as.findSome? f) := by
  rw [← List.singleton_append, List.findSome?_append, List.findSome?_singleton]

section searches

variable {α : Type} {s : Scanner α} {as bs cs : Chars}

theorem searchFrom_nil (afterWord : Bool) : searchFrom s afterWord [] = none := by
  cases afterWord <;> rfl

theorem searchFrom_eq_none (h : ∀ t, t <:+ cs → s t = none) (afterWord : Bool) :
    searchFrom s afterWord cs = none := by
  induction cs generalizing afterWord with
  | nil => cases afterWord <;> rfl
  | cons c cs ih =>
    have hrest := ih fun t ht => h t (ht.trans (List.suffix_cons c cs))
    cases afterWord with
    | true => exact hrest (isWord c)
    | false => rw [searchFrom_false_cons, h _ List.suffix_rfl, hrest]

/-- Only the places that no word character precedes count. -/
theorem searchFrom_eq_none_of_starts {afterWord : Bool}
    (h : ∀ front t, cs = front ++ t → t ≠ [] →
      front.foldl (fun _ c => isWord c) afterWord = false → s t = none) :
    searchFrom s afterWord cs = none := by
  induction cs generalizing afterWord with
  | nil => exact searchFrom_nil afterWord
  | cons c cs ih =>
    have hrest : searchFrom s (isWord c) cs = none := by
      refine ih fun front t hcs hne hstart => h (c :: front) t ?_ hne hstart
      rw [hcs, List.cons_append]
    cases afterWord with
    | true => exact hrest
    | false => rw [searchFrom_false_cons, h [] (c :: cs) rfl (List.cons_ne_nil c cs) rfl, hrest]

/-- A search finds what stands at the places, and not what is left behind it. -/
theorem searchFrom_congr {s' : Scanner α}
    (h : ∀ t, t <:+ cs → (s t).map Prod.fst = (s' t).map Prod.fst) (afterWord : Bool) :
    searchFrom s afterWord cs = searchFrom s' afterWord cs := by
  induction cs generalizing afterWord with
  | nil => rw [searchFrom_nil, searchFrom_nil]
  | cons c cs ih =>
    have hrest := ih fun t ht => h t (ht.trans (List.suffix_cons c cs))
    have hhere := h (c :: cs) List.suffix_rfl
    cases afterWord with
    | true => exact hrest (isWord c)
    | false =>
      rw [searchFrom_false_cons, searchFrom_false_cons, hrest]
      cases hs : s (c :: cs) <;> cases hs' : s' (c :: cs) <;> simp_all

/-- What is found in `as` when `bs` follows there comes before what is found in `bs`. -/
theorem searchFrom_append (s : Scanner α) (afterWord : Bool) (as bs : Chars) :
    searchFrom s afterWord (as ++ bs) = (searchFrom (fun t => s (t ++ bs)) afterWord as).or
      (searchFrom s (as.foldl (fun _ c => isWord c) afterWord) bs) := by
  induction as generalizing afterWord with
  | nil => rw [searchFrom_nil, Option.none_or]; rfl
  | cons a as ih =>
    cases afterWord with
    | true => exact ih (isWord a)
    | false =>
      rw [List.cons_append, searchFrom_false_cons, searchFrom_false_cons, ih, List.cons_append]
      cases s (a :: (as ++ bs)) <;> rfl

theorem searchFrom_append_of_fst (h : ∀ t, (s (t ++ bs)).map Prod.fst = (s t).map Prod.fst)
    (afterWord : Bool) (as : Chars) :
    searchFrom s afterWord (as ++ bs) = (searchFrom s afterWord as).or
      (searchFrom s (as.foldl (fun _ c => isWord c) afterWord) bs) := by
  rw [searchFrom_append, searchFrom_congr fun t _ => h t]

theorem searchFrom_cons_of_none {c : Char} (h : s (c :: cs) = none) (afterWord : Bool) :
    searchFrom s afterWord (c :: cs) = searchFrom s (isWord c) cs := by
  cases afterWord with
  | true => rfl
  | false => rw [searchFrom_false_cons, h]

theorem foldl_isWord_eq_false_iff :
    as.foldl (fun _ c => isWord c) false = false ↔ ∀ c ∈ as.getLast?, isWord c = false := by
  rcases List.eq_nil_or_concat as with rfl | ⟨front, c, rfl⟩
  · simp
  · simp

theorem search_eq_some {a : α} {rest : Chars} (h : s cs = some (a, rest)) (hne : cs ≠ []) :
    search s cs = some a := by
  obtain ⟨c, cs, rfl⟩ := List.exists_cons_of_ne_nil hne
  rw [search, searchFrom_false_cons, h]

/-- A search passes over `as`, and what comes then tells whether it goes on. -/
def Silent (s : Scanner α) (as : Chars) : Prop :=
  ∀ afterWord cs, searchFrom s afterWord (as ++ cs) =
    searchFrom s (as.foldl (fun _ c => isWord c) afterWord) cs

theorem Silent.append (ha : Silent s as) (hb : Silent s bs) : Silent s (as ++ bs) := by
  intro afterWord cs
  rw [List.append_assoc, ha, hb, List.foldl_append]

theorem silent_singleton {c : Char} (h : ∀ rest, s (c :: rest) = none) : Silent s [c] :=
  fun afterWord cs => searchFrom_cons_of_none (h cs) afterWord

theorem silent_nil : Silent s [] := fun _ _ => rfl

theorem silent_of_forall (h : ∀ c ∈ as, ∀ rest, s (c :: rest) = none) : Silent s as := by
  induction as with
  | nil => exact silent_nil
  | cons c as ih =>
    obtain ⟨hc, has⟩ := List.forall_mem_cons.1 h
    exact (silent_singleton hc).append (ih has)

theorem Silent.search_blank (h : Silent s as) {c : Char} (hc : isWord c = false)
    (hs : ∀ rest, s (c :: rest) = none) (cs : Chars) : search s (as ++ c :: cs) = search s cs := by
  rw [search, ← List.singleton_append, ← List.append_assoc, h.append (silent_singleton hs),
    List.foldl_append, List.foldl_cons, List.foldl_nil, hc]
  rfl

theorem Silent.search_append (h : Silent s as) (hend : as.foldl (fun _ c => isWord c) false = false)
    (cs : Chars) : search s (as ++ cs) = search s cs := by
  rw [search, h, hend, search]

theorem Silent.search_eq_none (h : Silent s as) : search s as = none := by
  have hend := h false []
  rwa [List.append_nil, searchFrom_nil] at hend

end searches

theorem isWord_of_isBlank {c : Char} (h : isBlank c = true) : isWord c = false := by
  have hblanks : ∀ n ∈ [9, 10, 11, 12, 13, 32, 0x85, 0xA0, 0x1680, 0x2000, 0x2001, 0x2002, 0x2003,
      0x2004, 0x2005, 0x2006, 0x2007, 0x2008, 0x2009, 0x200A, 0x2028, 0x2029, 0x202F, 0x205F,
      0x3000], isWord (Char.ofNat n) = false := by decide +kernel
  rw [← Char.ofNat_toNat c]
  refine hblanks c.toNat ?_
  simp only [isBlank, within, List.any_cons, List.any_nil, Bool.or_false, Bool.or_eq_true,
    Bool.and_eq_true, decide_eq_true_eq] at h
  simp only [List.mem_cons, List.not_mem_nil, or_false]
  omega

/-! Readings that end before a mark -/

section marks

variable {mark : Char}

theorem foldWord_append_mark {word : Chars} (h : word.any (foldsTo · mark) = false)
    (as cs : Chars) :
    foldWord word (as ++ mark :: cs) = (foldWord word as).map (· ++ mark :: cs) := by
  induction word generalizing as with
  | nil => rfl
  | cons w word ih =>
    rw [List.any_cons, Bool.or_eq_false_iff] at h
    obtain ⟨hw, hword⟩ := h
    cases as with
    | nil => simp [foldWord, hw]
    | cons a as =>
      rw [List.cons_append, foldWord, foldWord]
      split
      · exact ih hword as
      · rfl

theorem dropStart?_append_mark {start : Chars} (h : mark ∉ start) (as cs : Chars) :
    dropStart? start (as ++ mark :: cs) = (dropStart? start as).map (· ++ mark :: cs) := by
  induction start generalizing as with
  | nil => cases as <;> rfl
  | cons c start ih =>
    rw [List.mem_cons, not_or] at h
    cases as with
    | nil => simp [dropStart?, Ne.symm h.1]
    | cons a as =>
      rw [List.cons_append, dropStart?, dropStart?]
      split
      · exact ih h.2 as
      · rfl

theorem skip_append_mark {p : Char → Bool} (h : p mark = false) (as cs : Chars) :
    skip p (as ++ mark :: cs) = skip p as ++ mark :: cs := by
  rw [skip, skip, List.dropWhile_append]
  split
  · next hnil => rw [List.isEmpty_iff.1 hnil, List.dropWhile_cons, h, if_neg (by simp)]; rfl
  · rfl

theorem run1_append_mark {p : Char → Bool} (h : p mark = false) (as cs : Chars) :
    run1 p (as ++ mark :: cs) =
      (run1 p as).map fun found => (found.1, found.2 ++ mark :: cs) := by
  have htake : (as ++ mark :: cs).takeWhile p = as.takeWhile p := by
    rw [List.takeWhile_append, List.takeWhile_cons, h]
    split
    · next hall =>
      rw [if_neg (by simp), List.append_nil]
      exact ((List.takeWhile_prefix p).eq_of_length hall).symm
    · rfl
  have hdrop : (as ++ mark :: cs).dropWhile p = as.dropWhile p ++ mark :: cs :=
    skip_append_mark h as cs
  rw [run1, run1, htake, hdrop]
  cases as.takeWhile p <;> rfl

theorem skip1_append_mark {p : Char → Bool} (h : p mark = false) (as cs : Chars) :
    skip1 p (as ++ mark :: cs) = (skip1 p as).map (· ++ mark :: cs) := by
  rw [skip1, skip1, run1_append_mark h, Option.map_map, Option.map_map]
  rfl

end marks

/-- Nothing is read across a mark, and what follows there does not matter. -/
def ClosedBy {α : Type} (mark : Char) (s : Scanner α) : Prop :=
  ∀ as cs, s (as ++ mark :: cs) = (s as).map fun found => (found.1, found.2 ++ mark :: cs)

theorem closedBy_pure {α : Type} (mark : Char) (a : α) : ClosedBy mark fun cs => some (a, cs) :=
  fun _ _ => rfl

theorem ClosedBy.bind {α β : Type} {mark : Char} {s : Scanner α} {f : α → Scanner β}
    (hs : ClosedBy mark s) (hf : ∀ a, ClosedBy mark (f a)) :
    ClosedBy mark fun cs => (s cs).bind fun found => f found.1 found.2 := by
  intro as cs
  simp only [hs as cs]
  cases s as with
  | none => rfl
  | some found => exact hf found.1 found.2 cs

theorem ClosedBy.after {α : Type} {mark : Char} {s : Scanner α} {g : Chars → Option Chars}
    (hs : ClosedBy mark s)
    (hg : ∀ as cs, g (as ++ mark :: cs) = (g as).map (· ++ mark :: cs)) :
    ClosedBy mark fun cs => (g cs).bind s := by
  intro as cs
  simp only [hg as cs]
  cases g as with
  | none => rfl
  | some rest => exact hs rest cs

theorem ClosedBy.search_append {α : Type} {mark : Char} {s : Scanner α} (hs : ClosedBy mark s)
    (hnil : s [] = none) (hword : isWord mark = false) (as cs : Chars) :
    search s (as ++ mark :: cs) = (search s as).or (search s cs) := by
  have hmark : s (mark :: cs) = none := by
    have hclosed := hs [] cs
    rwa [hnil] at hclosed
  rw [search, searchFrom_append_of_fst fun t => by rw [hs, Option.map_map]; rfl,
    searchFrom_cons_of_none hmark, hword]
  rfl

/-! Texts between bars -/

section fences

variable {α : Type} {s : Scanner α}

/-- Nothing is read across a bar with a blank in front, and what follows there does not matter. -/
def Fenced (s : Scanner α) : Prop :=
  ∀ as cs, s (as ++ ' ' :: '|' :: cs) =
    (s as).map fun found => (found.1, found.2 ++ ' ' :: '|' :: cs)

theorem ClosedBy.fenced (hs : ClosedBy ' ' s) : Fenced s := fun as cs => hs as ('|' :: cs)

/-- Blanks before a reading may reach the bar, where it then finds nothing. -/
theorem Fenced.after_skip (hs : Fenced s) (hnil : s [] = none) (hbar : ∀ cs, s ('|' :: cs) = none) :
    Fenced fun cs => s (skip isBlank cs) := by
  intro as cs
  have hblank : isBlank ' ' = true := by decide
  have hmark : isBlank '|' = false := by decide
  simp only [skip, List.dropWhile_append]
  split
  · next hall =>
    rw [List.isEmpty_iff.1 hall, hnil, List.dropWhile_cons, hblank, if_pos rfl,
      List.dropWhile_cons, hmark, if_neg (by simp), hbar]
    rfl
  · exact hs _ cs

theorem skip1_cons (p : Char → Bool) (c : Char) (cs : Chars) :
    skip1 p (c :: cs) = if p c then some (skip p cs) else none := by
  rw [skip1, run1, List.takeWhile_cons, List.dropWhile_cons]
  by_cases h : p c <;> simp [h, skip]

theorem Fenced.after_skip1 (hs : Fenced s) (hnil : s [] = none)
    (hbar : ∀ cs, s ('|' :: cs) = none) : Fenced fun cs => (skip1 isBlank cs).bind s := by
  intro as cs
  dsimp only
  cases as with
  | nil =>
    have hskip : skip1 isBlank (' ' :: '|' :: cs) = some ('|' :: cs) := by
      rw [skip1_cons, if_pos (by decide), skip, List.dropWhile_cons, if_neg (by decide)]
    rw [List.nil_append, hskip]
    exact hbar cs
  | cons a as =>
    rw [List.cons_append, skip1_cons, skip1_cons]
    split
    · exact hs.after_skip hnil hbar as cs
    · rfl

/-- A search up to a bar, and on behind it. -/
theorem Fenced.searchFrom_append (hs : Fenced s) (hnil : s [] = none) (afterWord : Bool)
    (as cs : Chars) :
    searchFrom s afterWord (as ++ ' ' :: '|' :: cs) =
      (searchFrom s afterWord as).or (search s ('|' :: cs)) := by
  have hblank : s (' ' :: '|' :: cs) = none := by
    have hfence := hs [] cs
    rwa [hnil] at hfence
  rw [searchFrom_append_of_fst fun t => by rw [hs, Option.map_map]; rfl,
    searchFrom_cons_of_none hblank, search, show isWord ' ' = false by decide]

theorem Fenced.search_append (hs : Fenced s) (hnil : s [] = none) (as cs : Chars) :
    search s (as ++ ' ' :: '|' :: cs) = (search s as).or (search s ('|' :: cs)) :=
  hs.searchFrom_append hnil false as cs

end fences

end RigWarden.Text
