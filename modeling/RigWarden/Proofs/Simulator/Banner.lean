import RigWarden.Proofs.Config.Settings
import RigWarden.Proofs.Log.Rates
import RigWarden.Proofs.Simulator.Lines

/-!
# What a banner says

The texts of a profile stand between bars in the banner, and no reading goes across a bar. So a
banner says what the first text says in which a rate is found, or counters. A masked wallet says
nothing: any ten characters in a row of it hold two dots.
-/

namespace RigWarden

open Text Number

namespace Log

/-! Readings between bars -/

theorem fenced_numeral : Fenced numeral := (closedBy_numeral (by decide) (by decide)).fenced

theorem fenced_unit : Fenced unit := (closedBy_unit (by decide) (by decide)).fenced

namespace Simulated

theorem fenced_speed : Fenced speed := by
  intro as cs
  have hword : ['s', 'p', 'e', 'e', 'd', ':'].any (foldsTo · ' ') = false := by decide
  have hvalue (bs : Chars) := fenced_numeral.after_skip rfl (fun _ => rfl) bs cs
  have hunit (bs : Chars) := fenced_unit.after_skip rfl (fun _ => rfl) bs cs
  dsimp only at hvalue hunit
  simp only [speed, foldWord_append_mark hword, Option.bind_eq_bind]
  cases foldWord ['s', 'p', 'e', 'e', 'd', ':'] as with
  | none => rfl
  | some bs =>
    simp only [Option.map_some, Option.bind_some, hvalue]
    cases numeral (skip isBlank bs) with
    | none => rfl
    | some found =>
      simp only [Option.map_some, Option.bind_some, hunit]
      cases unit (skip isBlank found.2) <;> rfl

theorem fenced_counters : Fenced counters := by
  intro as cs
  have hdigit : isDigit ' ' = false := by decide
  have hfirst : ' ' ∉ ['a', 'c', 'c', 'e', 'p', 't', 'e', 'd', '='] := by decide
  have hsecond : ' ' ∉ ['r', 'e', 'j', 'e', 'c', 't', 'e', 'd', '='] := by decide
  have hrejected (accepted : Chars) : Fenced fun cs =>
      (dropStart? ['r', 'e', 'j', 'e', 'c', 't', 'e', 'd', '='] cs).bind fun cs =>
        (run1 isDigit cs).bind fun found => some ((accepted, found.1), found.2) := by
    intro as cs
    simp only [dropStart?_append_mark hsecond]
    cases dropStart? ['r', 'e', 'j', 'e', 'c', 't', 'e', 'd', '='] as with
    | none => rfl
    | some bs =>
      simp only [Option.map_some, Option.bind_some, run1_append_mark hdigit]
      cases run1 isDigit bs <;> rfl
  simp only [counters, Option.bind_eq_bind, dropStart?_append_mark hfirst]
  cases dropStart? ['a', 'c', 'c', 'e', 'p', 't', 'e', 'd', '='] as with
  | none => rfl
  | some bs =>
    simp only [Option.map_some, Option.bind_some, run1_append_mark hdigit]
    cases run1 isDigit bs with
    | none => rfl
    | some found => exact (hrejected found.1).after_skip1 rfl (fun _ => rfl) found.2 cs

end Simulated

/-! How much a reading takes up -/

/-- From `cs` to `rest` at least `n` characters are read, and at most `dots` dots. -/
def Takes (n dots : Nat) (cs rest : Chars) : Prop :=
  ∃ m, cs = m ++ rest ∧ n ≤ m.length ∧ m.count '.' ≤ dots

theorem Takes.trans {n n' dots dots' : Nat} {cs bs rest : Chars} (h : Takes n dots cs bs)
    (h' : Takes n' dots' bs rest) : Takes (n + n') (dots + dots') cs rest := by
  obtain ⟨m, rfl, hlength, hcount⟩ := h
  obtain ⟨m', rfl, hlength', hcount'⟩ := h'
  refine ⟨m ++ m', (List.append_assoc m m' rest).symm, ?_, ?_⟩
  · rw [List.length_append]
    exact Nat.add_le_add hlength hlength'
  · rw [List.count_append]
    exact Nat.add_le_add hcount hcount'

theorem Takes.weaken {n n' dots dots' : Nat} {cs rest : Chars} (h : Takes n dots cs rest)
    (hn : n' ≤ n) (hdots : dots ≤ dots') : Takes n' dots' cs rest := by
  obtain ⟨m, hm, hlength, hcount⟩ := h
  exact ⟨m, hm, Nat.le_trans hn hlength, Nat.le_trans hcount hdots⟩

theorem takes_nil (cs : Chars) : Takes 0 0 cs cs := ⟨[], rfl, Nat.le_refl 0, Nat.le_refl 0⟩

theorem takes_cons {c : Char} (h : c ≠ '.') (cs : Chars) : Takes 1 0 (c :: cs) cs :=
  ⟨[c], rfl, Nat.le_refl 1, by simp [h]⟩

theorem takes_of_all {p : Char → Bool} (h : p '.' = false) {m : Chars} (hm : ∀ c ∈ m, p c = true)
    (rest : Chars) : Takes m.length 0 (m ++ rest) rest := by
  refine ⟨m, rfl, Nat.le_refl _, Nat.le_of_eq (List.count_eq_zero.2 fun hdot => ?_)⟩
  rw [hm _ hdot] at h
  cases h

theorem takes_skip (cs : Chars) : Takes 0 0 cs (skip isBlank cs) := by
  obtain ⟨m, hm, hcs⟩ := skip_cases isBlank cs
  have htakes := takes_of_all (by decide) hm (skip isBlank cs)
  rw [← hcs] at htakes
  exact htakes.weaken (Nat.zero_le _) (Nat.le_refl 0)

theorem takes_run1 {p : Char → Bool} (h : p '.' = false) {cs found rest : Chars}
    (hrun : run1 p cs = some (found, rest)) : Takes 1 0 cs rest := by
  obtain ⟨hne, hfound, rfl⟩ := run1_cases hrun
  exact (takes_of_all h hfound rest).weaken (List.length_pos_iff.2 hne) (Nat.le_refl 0)

theorem takes_foldWord {word : Chars} (h : word.any (foldsTo · '.') = false) {cs rest : Chars}
    (hfold : foldWord word cs = some rest) : Takes word.length 0 cs rest := by
  induction word generalizing cs with
  | nil =>
    obtain rfl := Option.some.inj hfold
    exact takes_nil cs
  | cons w word ih =>
    rw [List.any_cons, Bool.or_eq_false_iff] at h
    obtain ⟨hw, hword⟩ := h
    cases cs with
    | nil => cases hfold
    | cons c cs =>
      rw [foldWord] at hfold
      split at hfold
      next hc =>
        have hdot : c ≠ '.' := by
          rintro rfl
          rw [hw] at hc
          cases hc
        rw [List.length_cons, Nat.add_comm]
        exact (takes_cons hdot cs).trans (ih hword hfold)
      next => cases hfold

theorem takes_dropStart? {start : Chars} (h : '.' ∉ start) {cs rest : Chars}
    (hdrop : dropStart? start cs = some rest) : Takes start.length 0 cs rest :=
  ⟨start, eq_append_of_dropStart? hdrop, Nat.le_refl _, Nat.le_of_eq (List.count_eq_zero.2 h)⟩

theorem takes_numeral {cs value rest : Chars} (h : numeral cs = some (value, rest)) :
    Takes 1 1 cs rest := by
  have hdigit : isAsciiDigit '.' = false := by decide
  simp only [numeral, Option.bind_eq_bind, Option.bind_eq_some_iff, Prod.exists] at h
  obtain ⟨whole, tail, hwhole, h⟩ := h
  have hfront := takes_run1 hdigit hwhole
  have hmore : Takes 0 1 tail rest := by
    split at h
    next tail =>
      have hpoint : Takes 0 1 ('.' :: tail) tail := ⟨['.'], rfl, Nat.zero_le _, Nat.le_refl 1⟩
      split at h
      next fraction rest' hfraction =>
        obtain ⟨-, rfl⟩ := Prod.mk.inj (Option.some.inj h)
        exact (hpoint.trans (takes_run1 hdigit hfraction)).weaken (Nat.zero_le _) (Nat.le_refl 1)
      next =>
        obtain ⟨-, rfl⟩ := Prod.mk.inj (Option.some.inj h)
        exact (takes_nil _).weaken (Nat.le_refl 0) (Nat.zero_le 1)
    next =>
      obtain ⟨-, rfl⟩ := Prod.mk.inj (Option.some.inj h)
      exact (takes_nil _).weaken (Nat.le_refl 0) (Nat.zero_le 1)
  exact hfront.trans hmore

theorem takes_unit {cs rest : Chars} {scale : Option Char} (h : unit cs = some (scale, rest)) :
    Takes 3 0 cs rest := by
  have hrate {bs : Chars} (hfold : foldWord ['h', '/', 's'] bs = some rest) : Takes 3 0 bs rest :=
    takes_foldWord (by decide) hfold
  cases cs with
  | nil => cases h
  | cons c cs =>
    rw [unit] at h
    split at h
    next hscale =>
      obtain ⟨rest', hfold, heq⟩ := Option.map_eq_some_iff.1 h
      obtain ⟨-, rfl⟩ := Prod.mk.inj heq
      have hdot : c ≠ '.' := by
        rintro rfl
        exact absurd hscale (by decide)
      exact ((takes_cons hdot cs).trans (hrate hfold)).weaken (by decide) (Nat.le_refl 0)
    next =>
      obtain ⟨rest', hfold, heq⟩ := Option.map_eq_some_iff.1 h
      obtain ⟨-, rfl⟩ := Prod.mk.inj heq
      exact hrate hfold

namespace Simulated

theorem takes_speed {cs rest : Chars} {found : Chars × Option Char}
    (h : speed cs = some (found, rest)) : Takes 10 1 cs rest := by
  simp only [speed, Option.bind_eq_bind, Option.bind_eq_some_iff, Prod.exists] at h
  obtain ⟨bs, hword, value, tail, hvalue, scale, rest', hunit, heq⟩ := h
  obtain ⟨-, rfl⟩ := Prod.mk.inj (Option.some.inj heq)
  have hname : Takes 6 0 cs bs := takes_foldWord (by decide) hword
  exact ((hname.trans (takes_skip bs)).trans (takes_numeral hvalue)).trans
    ((takes_skip tail).trans (takes_unit hunit))

theorem takes_counters {cs rest : Chars} {found : Chars × Chars}
    (h : counters cs = some (found, rest)) : Takes 10 1 cs rest := by
  have hdigit : isDigit '.' = false := by decide
  simp only [counters, Option.bind_eq_bind, Option.bind_eq_some_iff, Prod.exists] at h
  obtain ⟨bs, hname, accepted, tail, haccepted, cs', hblank, bs', hname', rejected, rest', hrejected,
    heq⟩ := h
  obtain ⟨-, rfl⟩ := Prod.mk.inj (Option.some.inj heq)
  obtain ⟨⟨blanks, more⟩, hblanks, rfl⟩ := Option.map_eq_some_iff.1 hblank
  have hfirst : Takes 9 0 cs bs := takes_dropStart? (by decide) hname
  have hsecond : Takes 9 0 _ bs' := takes_dropStart? (by decide) hname'
  have hfront := (hfirst.trans (takes_run1 hdigit haccepted)).trans (takes_run1 (by decide) hblanks)
  exact (hfront.trans (hsecond.trans (takes_run1 hdigit hrejected))).weaken (by decide) (by decide)

end Simulated

end Log

/-! Masked wallets -/

theorem two_le_count_of_append {as m after rest : Chars}
    (h : m ++ after = as ++ '.' :: '.' :: rest) (hlength : as.length + 2 ≤ m.length) :
    2 ≤ m.count '.' := by
  have htext : m ++ after = (as ++ ['.', '.']) ++ rest := by simp [h]
  have hprefix : as ++ ['.', '.'] <+: m :=
    List.prefix_of_prefix_length_le ⟨rest, htext.symm⟩ (List.prefix_append m after)
      (by simpa using hlength)
  have hcount := hprefix.sublist.count_le '.'
  rw [List.count_append] at hcount
  exact Nat.le_trans (Nat.le_add_left 2 _) hcount

theorem maskWallet_of_short {wallet : String} (h : wallet.toList.length ≤ 16) :
    maskWallet wallet = wallet := by
  rw [maskWallet]
  exact if_pos h

/-- Ten characters in a row of a masked text hold two of its dots. -/
theorem two_le_count_dots {front back m : Chars} (hfront : front.length = 8)
    (hback : back.length = 8) (hm : m <:+: front ++ ['.', '.', '.'] ++ back)
    (hlength : 10 ≤ m.length) : 2 ≤ m.count '.' := by
  obtain ⟨before, after, htext⟩ := hm
  have htotal := congrArg List.length htext
  simp only [List.length_append, List.length_cons, List.length_nil, hfront, hback] at htotal
  rw [List.append_assoc, List.append_assoc] at htext
  rcases List.append_eq_append_iff.1 htext with ⟨cut, hcut, hrest⟩ | ⟨cut, hcut, hrest⟩
  · exact two_le_count_of_append hrest (by rw [hcut, List.length_append] at hfront; omega)
  · have hshort : cut.length ≤ 1 := by
      rw [hcut, List.length_append] at htotal
      omega
    cases cut with
    | nil =>
      have hdots : m ++ after = [] ++ '.' :: '.' :: '.' :: back := hrest.symm
      exact two_le_count_of_append hdots (Nat.le_trans (by decide) hlength)
    | cons c cut =>
      obtain rfl := List.eq_nil_of_length_eq_zero (Nat.le_zero.1 (Nat.le_of_succ_le_succ hshort))
      have hdots : m ++ after = [] ++ '.' :: '.' :: back := (List.cons.inj hrest).2.symm
      exact two_le_count_of_append hdots (Nat.le_trans (by decide) hlength)

section frames

variable {α : Type} {s : Scanner α}

theorem search_masked (hs : ∀ cs found rest, s cs = some (found, rest) → Log.Takes 10 1 cs rest)
    {wallet : String} (hlong : 16 < wallet.toList.length) :
    search s (maskWallet wallet).toList = none := by
  have htext : (maskWallet wallet).toList = wallet.toList.take 8 ++ ['.', '.', '.'] ++
      wallet.toList.drop (wallet.toList.length - 8) := by
    rw [maskWallet]
    simp only [if_neg (Nat.not_le.2 hlong), String.toList_ofList]
  have hfront : (wallet.toList.take 8).length = 8 := by
    rw [List.length_take]
    omega
  have hback : (wallet.toList.drop (wallet.toList.length - 8)).length = 8 := by
    rw [List.length_drop]
    omega
  have hnone : ∀ t, t <:+ (maskWallet wallet).toList → s t = none := by
    intro t ht
    cases hfound : s t with
    | none => rfl
    | some found =>
      obtain ⟨m, rfl, hlength, hcount⟩ := hs t found.1 found.2 hfound
      have hinfix : m <:+: (maskWallet wallet).toList :=
        (List.prefix_append m found.2).isInfix.trans ht.isInfix
      rw [htext] at hinfix
      exact absurd (two_le_count_dots hfront hback hinfix hlength) (by omega)
  exact searchFrom_eq_none hnone false

/-! The banner -/

/-- A scanner that finds nothing in the frame of a banner and reads no text past its bar. -/
structure Framed (s : Scanner α) : Prop where
  fenced : Fenced s
  nil : s [] = none
  opening : Silent s "Simulated miner starting | pool ".toList
  worker : Silent s ('|' :: " worker ".toList)
  wallet : Silent s ('|' :: " wallet ".toList)
  threads : Silent s ('|' :: " threads ".toList)
  digit : ∀ c, isAsciiDigit c = true → ∀ rest, s (c :: rest) = none
  takes : ∀ cs found rest, s cs = some (found, rest) → Log.Takes 10 1 cs rest

theorem Framed.search_field (hs : Framed s) {mark : Chars} (hmark : Silent s ('|' :: mark))
    (hend : ('|' :: mark).foldl (fun _ c => isWord c) false = false) (field cs : Chars) :
    search s (field ++ ' ' :: '|' :: (mark ++ cs)) = (search s field).or (search s cs) := by
  rw [hs.fenced.search_append hs.nil, ← List.cons_append, hmark.search_append hend]

/-- A banner with these texts in it. -/
def bannerChars (pool worker wallet : Chars) (threads : Nat) : Chars :=
  "Simulated miner starting | pool ".toList ++ (pool ++ ' ' :: '|' :: (" worker ".toList ++
    (worker ++ ' ' :: '|' :: (" wallet ".toList ++
      (wallet ++ ' ' :: '|' :: (" threads ".toList ++ digits threads))))))

theorem Framed.search_banner (hs : Framed s) (pool worker wallet : Chars) (threads : Nat) :
    search s (bannerChars pool worker wallet threads) =
      (search s pool).or ((search s worker).or (search s wallet)) := by
  have hdigits : Silent s (digits threads) := silent_of_forall fun c hc =>
    hs.digit c (isAsciiDigit_of_mem_digits hc)
  have hthreads : search s ('|' :: (" threads ".toList ++ digits threads)) = none :=
    (hs.threads.append hdigits).search_eq_none
  have hopening : "Simulated miner starting | pool ".toList.foldl (fun _ c => isWord c) false =
      false := by decide
  have hworker : ('|' :: " worker ".toList).foldl (fun _ c => isWord c) false = false := by decide
  have hwallet : ('|' :: " wallet ".toList).foldl (fun _ c => isWord c) false = false := by decide
  have hlast : search s (wallet ++ ' ' :: '|' :: (" threads ".toList ++ digits threads)) =
      search s wallet := by
    rw [hs.fenced.search_append hs.nil, hthreads, Option.or_none]
  calc search s (bannerChars pool worker wallet threads)
      = search s (pool ++ ' ' :: '|' :: (" worker ".toList ++ (worker ++ ' ' :: '|' ::
          (" wallet ".toList ++ (wallet ++ ' ' :: '|' ::
            (" threads ".toList ++ digits threads)))))) := hs.opening.search_append hopening _
    _ = (search s pool).or (search s (worker ++ ' ' :: '|' :: (" wallet ".toList ++
          (wallet ++ ' ' :: '|' :: (" threads ".toList ++ digits threads))))) :=
        hs.search_field hs.worker hworker pool _
    _ = (search s pool).or ((search s worker).or (search s (wallet ++ ' ' :: '|' ::
          (" threads ".toList ++ digits threads)))) :=
        congrArg _ (hs.search_field hs.wallet hwallet worker _)
    _ = (search s pool).or ((search s worker).or (search s wallet)) := by rw [hlast]

end frames

namespace Simulator

open Log.Simulated

theorem speed_digit {c : Char} (h : isAsciiDigit c = true) (rest : Chars) :
    speed (c :: rest) = none := by
  have hfold : foldsTo 's' c = false := foldsTo_of_isAsciiDigit (by decide) h
  simp [speed, foldWord, hfold]

theorem framed_speed : Framed speed where
  fenced := fenced_speed
  nil := rfl
  opening := fun afterWord _ => by cases afterWord <;> rfl
  worker := fun afterWord _ => by cases afterWord <;> rfl
  wallet := fun afterWord _ => by cases afterWord <;> rfl
  threads := fun afterWord _ => by cases afterWord <;> rfl
  digit := fun _ => speed_digit
  takes := fun _ _ _ => takes_speed

theorem framed_counters : Framed counters where
  fenced := fenced_counters
  nil := rfl
  opening := fun afterWord _ => by cases afterWord <;> rfl
  worker := fun afterWord _ => by cases afterWord <;> rfl
  wallet := fun afterWord _ => by cases afterWord <;> rfl
  threads := fun afterWord _ => by cases afterWord <;> rfl
  digit := fun c hc => counters_of_ne (by rintro rfl; exact absurd hc (by decide))
  takes := fun _ _ _ => takes_counters

end Simulator

/-- The texts of a profile that a banner shows as they are: a wallet of more than sixteen
characters is masked. -/
def Profile.shown (p : Profile) : List Chars :=
  [(trim p.pool).toList, (trim p.worker).toList] ++
    if (trim p.wallet).toList.length ≤ 16 then [(trim p.wallet).toList] else []

namespace Simulator

open Log Log.Simulated

theorem toList_banner (processors : Nat) {p : Profile} (h : p.check = .ok ()) :
    (banner (KeyValue.parse (configText processors p))).toList =
      bannerChars (trim p.pool).toList (trim p.worker).toList
        (maskWallet (trim p.wallet)).toList (p.effectiveThreads processors) := by
  have hpool : (KeyMap.ofList (settings processors p)).get? "pool" = some (trim p.pool) := by
    simp [settings, KeyMap.ofList, KeyMap.get?_insert_of_ne]
  have hworker : (KeyMap.ofList (settings processors p)).get? "worker" = some (trim p.worker) := by
    simp [settings, KeyMap.ofList, KeyMap.get?_insert_of_ne]
  have hwallet : (KeyMap.ofList (settings processors p)).get? "wallet" = some (trim p.wallet) := by
    simp [settings, KeyMap.ofList, KeyMap.get?_insert_of_ne]
  have hthreads : (KeyMap.ofList (settings processors p)).get? "threads" =
      some (decimal (p.effectiveThreads processors)) := by
    simp [settings, KeyMap.ofList, KeyMap.get?_insert_of_ne]
  have hmarks : " | worker ".toList = ' ' :: '|' :: " worker ".toList ∧
      " | wallet ".toList = ' ' :: '|' :: " wallet ".toList ∧
      " | threads ".toList = ' ' :: '|' :: " threads ".toList := ⟨rfl, rfl, rfl⟩
  rw [parse_configText processors h]
  -- Unfolded without their equations, which would be checked by spelling out the long literal.
  unfold banner bannerChars
  simp only [hpool, hworker, hwallet, hthreads, Option.getD_some, String.toList_append,
    toList_decimal, hmarks, List.append_assoc, List.cons_append]

theorem findSome?_shown {α : Type} (f : Chars → Option α) (p : Profile) :
    p.shown.findSome? f =
      (f (trim p.pool).toList).or ((f (trim p.worker).toList).or
        (if (trim p.wallet).toList.length ≤ 16 then f (trim p.wallet).toList else none)) := by
  rw [Profile.shown, List.cons_append, List.cons_append, List.nil_append, findSome?_cons_or,
    findSome?_cons_or]
  split
  · rw [findSome?_cons_or, List.findSome?_nil, Option.or_none]
  · rfl

/-- A banner says what the first text says in which something is found. -/
theorem search_banner {α : Type} {s : Scanner α} (hs : Framed s) (processors : Nat) {p : Profile}
    (h : p.check = .ok ()) :
    search s (banner (KeyValue.parse (configText processors p))).toList =
      p.shown.findSome? (search s) := by
  have hwallet : search s (maskWallet (trim p.wallet)).toList =
      if (trim p.wallet).toList.length ≤ 16 then search s (trim p.wallet).toList else none := by
    split
    next hshort => rw [maskWallet_of_short hshort]
    next hlong => exact search_masked hs.takes (Nat.not_le.1 hlong)
  rw [toList_banner processors h, hs.search_banner, hwallet, findSome?_shown]

/-- The value of a rate as it was found. -/
def rate? (found : Chars × Option Char) : Option Float := (decimal? found.1).bind (scaled? · found.2)

theorem read_eq_none_iff (line : Chars) :
    Log.Simulated.read line = none ↔
      (∀ found, search speed line = some found → rate? found = none) ∧
        ∀ found, search counters line = some found →
          count? found.1 = none ∧ count? found.2 = none := by
  have hempty : Log.Simulated.read line = none ↔ (sample line).isEmpty = true := by
    rw [Log.Simulated.read, Sample.nonEmpty?]
    cases (sample line).isEmpty <;> simp
  have hfields : (sample line).isEmpty = true ↔ (search speed line).bind rate? = none ∧
      ((search counters line).bind fun found => count? found.1) = none ∧
        ((search counters line).bind fun found => count? found.2) = none := by
    simp only [Sample.isEmpty, sample, Bool.and_eq_true, Option.isNone_iff_eq_none,
      and_true, and_assoc]
    exact Iff.rfl
  rw [hempty, hfields]
  simp only [Option.bind_eq_none_iff, imp_and, forall_and]

/-- The last line of a run says nothing. Its banner says nothing if and only if the first rate that
the shown texts of the profile hold has no value, and the first counters they hold have none. -/
theorem banners_read_none_iff {processors : Nat} {p : Profile} (h : p.check = .ok ())
    {install : Path} {r : RenderedConfig}
    (hr : Backend.simulated.render processors p install = .ok r) (elapsed : Duration) :
    Log.Simulated.read (lastLine elapsed).toList = none ∧
      (Log.Simulated.read (banner (KeyValue.parse r.contents)).toList = none ↔
        (∀ found, p.shown.findSome? (search speed) = some found → rate? found = none) ∧
          ∀ found, p.shown.findSome? (search counters) = some found →
            count? found.1 = none ∧ count? found.2 = none) := by
  have hcontents : r.contents = configText processors p := by
    rw [Backend.render, Backend.renderContents, Except.map] at hr
    rw [← Except.ok.inj hr]
  refine ⟨read_lastLine elapsed, ?_⟩
  rw [hcontents, read_eq_none_iff, search_banner framed_speed processors h,
    search_banner framed_counters processors h]

theorem banners_read_none_sample :
    (Profile.sample "randomx").check = .ok () ∧
      ∃ r, Backend.simulated.render 4 (Profile.sample "randomx") "/opt/m" = .ok r ∧
        Log.Simulated.read (lastLine .zero).toList = none ∧
          Log.Simulated.read (banner (KeyValue.parse r.contents)).toList = none := by
  have hcheck : (Profile.sample "randomx").check = .ok () := rfl
  have hspeed : (Profile.sample "randomx").shown.findSome? (search speed) = none := by decide
  have hcounters : (Profile.sample "randomx").shown.findSome? (search counters) = none := by decide
  have hboth := @banners_read_none_iff 4 _ hcheck "/opt/m" _ rfl .zero
  refine ⟨hcheck, _, rfl, hboth.1, hboth.2.2 ⟨fun found h => ?_, fun found h => ?_⟩⟩
  · rw [hspeed] at h
    cases h
  · rw [hcounters] at h
    cases h

/-- A worker whose name reads like the end of a line of the simulator. -/
def countingWorker : Profile := { Profile.sample "randomx" with worker := "accepted=5 rejected=6" }

theorem not_always_silent : ¬ ∀ (processors : Nat) (p : Profile) (install : Path)
    (r : RenderedConfig) (elapsed : Duration), p.check = .ok () →
      Backend.simulated.render processors p install = .ok r →
        Log.Simulated.read (banner (KeyValue.parse r.contents)).toList = none ∧
          Log.Simulated.read (lastLine elapsed).toList = none := by
  intro hall
  have hcheck : countingWorker.check = .ok () := rfl
  have hfound : countingWorker.shown.findSome? (search counters) = some (['5'], ['6']) := by decide
  have hread := (hall 4 countingWorker "/opt/m" _ .zero hcheck rfl).1
  have hcounts := ((read_eq_none_iff _).1 hread).2 (['5'], ['6'])
  rw [search_banner framed_counters 4 hcheck] at hcounts
  exact absurd (hcounts hfound).1 (by decide)

end Simulator

end RigWarden
