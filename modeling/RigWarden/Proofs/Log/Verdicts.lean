import RigWarden.Log.Xmrig
import RigWarden.Proofs.Log.Rates
import RigWarden.Proofs.Number.Numerals

/-!
# Verdicts on shares

A verdict of the XMRig log is read behind any preamble that ends in a blank and holds no other
verdict, whatever follows it. The rate and the pool of such a line do not depend on the two numbers
of the verdict, since neither is read across its bracket.
-/

namespace RigWarden.Log.Xmrig

open Text Number

def verdictWord : (isRejection : Bool) → Chars
  | false => ['a', 'c', 'c', 'e', 'p', 't', 'e', 'd']
  | true => ['r', 'e', 'j', 'e', 'c', 't', 'e', 'd']

/-- The numbers of a verdict in brackets. -/
def bracket (a r : Chars) : Chars := '(' :: (a ++ '/' :: (r ++ [')']))

def shareText (isRejection : Bool) (a r : Chars) : Chars :=
  verdictWord isRejection ++ ' ' :: bracket a r

/-- The word stands in the text with no word character at either end. -/
def HasWord (word text : Chars) : Prop :=
  ∃ front back, text = front ++ (word ++ back) ∧ (∀ c ∈ front.getLast?, isWord c = false) ∧
    ∀ c ∈ back.head?, isWord c = false

/-- What may stand in front of a verdict. -/
structure Preamble (text : Chars) : Prop where
  blank : ∀ c ∈ text.getLast?, isBlank c = true
  unjudged : ∀ isRejection, ¬ HasWord (verdictWord isRejection) text

/-! The verdict -/

theorem verdict_cases {cs rest : Chars} {isRejection : Bool}
    (h : verdict cs = some (isRejection, rest)) : cs = verdictWord isRejection ++ rest := by
  rw [verdict] at h
  split at h
  next found hfound =>
    obtain ⟨rfl, rfl⟩ := Prod.mk.inj (Option.some.inj h)
    exact eq_append_of_dropStart? hfound
  next =>
    obtain ⟨found, hfound, heq⟩ := Option.map_eq_some_iff.1 h
    obtain ⟨rfl, rfl⟩ := Prod.mk.inj heq
    exact eq_append_of_dropStart? hfound

theorem verdict_append (isRejection : Bool) (rest : Chars) :
    verdict (verdictWord isRejection ++ rest) = some (isRejection, rest) := by
  cases isRejection with
  | false => rw [verdict, verdictWord, dropStart?_append]
  | true =>
    have hother : dropStart? ['a', 'c', 'c', 'e', 'p', 't', 'e', 'd'] (verdictWord true ++ rest) =
        none := rfl
    rw [verdict, hother, verdictWord, dropStart?_append]
    rfl

theorem share_shareText (isRejection : Bool) {a r : Chars} {n m : Nat} (ha : Denotes a n)
    (hr : Denotes r m) (rest : Chars) :
    share (shareText isRejection a r ++ rest) =
      some (⟨isRejection, a, r, quoted? rest⟩, rest) := by
  have hslash : isDigit '/' = false := by decide
  have hclose : isDigit ')' = false := by decide
  have hskip (cs : Chars) : skip1 isBlank (' ' :: '(' :: cs) = some ('(' :: cs) := by
    rw [skip1_cons, if_pos (by decide), skip, List.dropWhile_cons, if_neg (by decide)]
  have hmark (c : Char) (cs : Chars) : mark c (c :: cs) = some cs := dropStart?_append [c] cs
  have htext : shareText isRejection a r ++ rest = verdictWord isRejection ++
      ' ' :: '(' :: (a ++ '/' :: (r ++ ')' :: rest)) := by
    simp [shareText, bracket]
  rw [htext, share]
  simp only [Option.bind_eq_bind, verdict_append, Option.bind_some, hskip, hmark,
    run1_append ha.ne_nil ha.isDigit hslash, run1_append hr.ne_nil hr.isDigit hclose]
  rfl

theorem not_blank_of_mem_verdictWord {isRejection : Bool} {c : Char}
    (h : c ∈ verdictWord isRejection) : isBlank c = false := by
  have hall : (verdictWord isRejection).any isBlank = false := by cases isRejection <;> decide
  exact Bool.eq_false_iff.2 (List.any_eq_false.1 hall c h)

/-- A verdict that starts in a preamble would be one of its words: the preamble ends in a blank, so
the word does not reach over its end, and a blank follows the word. -/
theorem share_append_eq_none {front cs rest : Chars} (h : Preamble (front ++ cs)) (hne : cs ≠ [])
    (hfront : ∀ c ∈ front.getLast?, isWord c = false) : share (cs ++ rest) = none := by
  refine Option.eq_none_iff_forall_ne_some.2 fun found hfound => ?_
  simp only [share, Option.bind_eq_bind, Option.bind_eq_some_iff, Prod.exists] at hfound
  obtain ⟨isRejection, tail, hverdict, cs', hblanks, -⟩ := hfound
  have hlast : ∃ c ∈ cs, isBlank c = true := by
    obtain ⟨c, hc⟩ := Option.ne_none_iff_exists'.1 (mt List.getLast?_eq_none_iff.1 hne)
    refine ⟨c, List.mem_of_getLast? hc, h.blank c ?_⟩
    rw [List.getLast?_append, hc]
    rfl
  obtain ⟨blank, hmem, hblank⟩ := hlast
  have hword : blank ∉ verdictWord isRejection := fun hin => by
    rw [not_blank_of_mem_verdictWord hin] at hblank
    cases hblank
  have hsplit := List.append_eq_append_iff.1 (verdict_cases hverdict)
  rcases hsplit with ⟨more, hcut, -⟩ | ⟨back, hcs, htail⟩
  · exact hword (hcut ▸ List.mem_append_left more hmem)
  · have hback : ∀ c ∈ back.head?, isWord c = false := by
      intro c hc
      obtain ⟨back', rfl⟩ := List.head?_eq_some_iff.1 hc
      rw [htail, List.cons_append, skip1_cons, Option.ite_none_right_eq_some] at hblanks
      exact isWord_of_isBlank hblanks.1
    exact h.unjudged isRejection ⟨front, back, by rw [hcs], hfront, hback⟩

theorem search_share {preamble : Chars} (h : Preamble preamble) (isRejection : Bool) {a r : Chars}
    {n m : Nat} (ha : Denotes a n) (hr : Denotes r m) (rest : Chars) :
    search share (preamble ++ (shareText isRejection a r ++ rest)) =
      some ⟨isRejection, a, r, quoted? rest⟩ := by
  have hnone : searchFrom (fun cs => share (cs ++ (shareText isRejection a r ++ rest))) false
      preamble = none := by
    refine searchFrom_eq_none_of_starts fun front cs hcs hne hstart => ?_
    exact share_append_eq_none (hcs ▸ h) hne (foldl_isWord_eq_false_iff.1 hstart)
  have hend : preamble.foldl (fun _ c => isWord c) false = false :=
    foldl_isWord_eq_false_iff.2 fun c hc => isWord_of_isBlank (h.blank c hc)
  have hne : shareText isRejection a r ++ rest ≠ [] := by simp [shareText]
  rw [search, searchFrom_append, hnone, hend, Option.none_or]
  exact search_eq_some (share_shareText isRejection ha hr rest) hne

/-! Readings around a verdict -/

/-- The letters and marks of a verdict. -/
def frame : Chars := ['a', 'c', 'e', 'p', 't', 'd', 'r', 'j', ' ', '(', '/', ')']

theorem mem_frame_of_mem_verdictWord {isRejection : Bool} {c : Char}
    (h : c ∈ verdictWord isRejection) : c ∈ frame := by
  cases isRejection <;> revert c <;> simp [verdictWord, frame]

/-- A scanner that starts with a letter outside the frame, and that reads the word in front of a
bracket, but nothing across the bracket. -/
structure Halting {α : Type} (letter : Char) (s : Scanner α) : Prop where
  nil : s [] = none
  starts : ∀ c, foldsTo letter c = false → ∀ cs, s (c :: cs) = none
  stops : ∀ as cs, 'c' ∈ as →
    (s (as ++ ' ' :: '(' :: cs)).map Prod.fst = (s (as ++ [' '])).map Prod.fst
  digit : isAsciiDigit letter = false
  frame : frame.any (foldsTo letter) = false

namespace Halting

variable {α : Type} {letter : Char} {s : Scanner α}

theorem none_of_mem_frame (hs : Halting letter s) {c : Char} (h : c ∈ Xmrig.frame) (cs : Chars) :
    s (c :: cs) = none :=
  hs.starts c (Bool.eq_false_iff.2 (List.any_eq_false.1 hs.frame c h)) cs

theorem silent_bracket (hs : Halting letter s) {a r : Chars} {n m : Nat} (ha : Denotes a n)
    (hr : Denotes r m) : Silent s (bracket a r) := by
  have hdigits {ds : Chars} {n : Nat} (hds : Denotes ds n) : Silent s ds :=
    silent_of_forall fun c hc => hs.starts c
      (foldsTo_of_isAsciiDigit hs.digit (isAsciiDigit_of_isDigit (hds.digits c hc)))
  have hmark {c : Char} (hc : c ∈ Xmrig.frame) : Silent s [c] :=
    silent_singleton (hs.none_of_mem_frame hc)
  have hopen : Silent s ['('] := hmark (by decide)
  have hslash : Silent s ['/'] := hmark (by decide)
  have hclose : Silent s [')'] := hmark (by decide)
  exact hopen.append ((hdigits ha).append (hslash.append ((hdigits hr).append hclose)))

/-- At no place in front of a bracket does it matter what the bracket holds. A place in the verdict
itself is none where the scanner starts. -/
theorem fst_append_bracket (hs : Halting letter s) {preamble a r rest t : Chars}
    {isRejection : Bool} (ht : t <:+ preamble ++ (verdictWord isRejection ++ [' '])) :
    (s (t ++ (bracket a r ++ rest))).map Prod.fst = (s t).map Prod.fst := by
  rcases List.suffix_or_suffix_of_suffix ht (List.suffix_append _ _) with h | ⟨z, rfl⟩
  · cases t with
    | nil =>
      have hbracket : s (bracket a r ++ rest) = none := hs.none_of_mem_frame (by decide) _
      rw [List.nil_append, hbracket, hs.nil]
    | cons c t =>
      have hc : c ∈ Xmrig.frame := by
        rcases List.mem_append.1 (h.subset List.mem_cons_self) with hc | hc
        · exact mem_frame_of_mem_verdictWord hc
        · rw [List.eq_of_mem_singleton hc]
          decide
      rw [List.cons_append, hs.none_of_mem_frame hc, hs.none_of_mem_frame hc]
  · have hletter : 'c' ∈ z ++ verdictWord isRejection :=
      List.mem_append_right z (by cases isRejection <;> simp [verdictWord])
    have hline : (z ++ (verdictWord isRejection ++ [' '])) ++ (bracket a r ++ rest) =
        (z ++ verdictWord isRejection) ++ ' ' :: '(' :: (a ++ '/' :: (r ++ [')']) ++ rest) := by
      simp [bracket]
    rw [hline, ← List.append_assoc]
    exact hs.stops _ _ hletter

/-- What is found in a line with a verdict is found up to the bracket or behind it. -/
theorem search_shareText (hs : Halting letter s) (preamble : Chars) (isRejection : Bool)
    {a r : Chars} {n m : Nat} (ha : Denotes a n) (hr : Denotes r m) (rest : Chars) :
    search s (preamble ++ (shareText isRejection a r ++ rest)) =
      (search s (preamble ++ (verdictWord isRejection ++ [' ']))).or (search s rest) := by
  have htext : preamble ++ (shareText isRejection a r ++ rest) =
      (preamble ++ (verdictWord isRejection ++ [' '])) ++ (bracket a r ++ rest) := by
    simp [shareText]
  have hend : (preamble ++ (verdictWord isRejection ++ [' '])).foldl (fun _ c => isWord c) false =
      false := by
    rw [← List.append_assoc, List.foldl_concat]
    decide
  have hbracket : (bracket a r).foldl (fun _ c => isWord c) false = false := by
    have hclose : bracket a r = ('(' :: (a ++ '/' :: r)) ++ [')'] := by simp [bracket]
    rw [hclose, List.foldl_concat]
    decide
  rw [htext, search, searchFrom_append, searchFrom_congr fun t => hs.fst_append_bracket,
    hend]
  exact congrArg _ ((hs.silent_bracket ha hr).search_append hbracket rest)

end Halting

/-- Behind a name and blanks the letter `c` is still to come. -/
theorem mem_of_name {name : Chars → Option Chars}
    (hname : ∀ as bs, name as = some bs → ∃ found, as = found ++ bs ∧ 'c' ∉ found)
    {as bs : Chars} (h : (name as).bind (skip1 isBlank) = some bs) (hc : 'c' ∈ as) :
    bs <:+ as ∧ 'c' ∈ bs := by
  obtain ⟨cs, hcs, hblanks⟩ := Option.bind_eq_some_iff.1 h
  obtain ⟨found, rfl, hfound⟩ := hname as cs hcs
  obtain ⟨⟨blanks, rest⟩, hrun, rfl⟩ := Option.map_eq_some_iff.1 hblanks
  obtain ⟨-, hall, rfl⟩ := run1_cases hrun
  refine ⟨⟨found ++ blanks, List.append_assoc _ _ _⟩, ?_⟩
  rcases List.mem_append.1 hc with hc | hc
  · exact absurd hc hfound
  · rcases List.mem_append.1 hc with hc | hc
    · exact absurd (hall _ hc) (by decide)
    · exact hc

/-- What a scanner with a name reads in front of a bracket, when a letter outside its name comes
there and a blank. -/
theorem stops_of_name {α : Type} {name : Chars → Option Chars} {s : Scanner α}
    (hclosed : ∀ as cs, name (as ++ '(' :: cs) = (name as).map (· ++ '(' :: cs))
    (hname : ∀ as bs, name as = some bs → ∃ found, as = found ++ bs ∧ 'c' ∉ found)
    (hs : ∀ as cs, (s (as ++ ' ' :: '(' :: cs)).map Prod.fst = (s (as ++ [' '])).map Prod.fst)
    (as cs : Chars) (hc : 'c' ∈ as) :
    ((name (as ++ ' ' :: '(' :: cs)).bind fun bs => (skip1 isBlank bs).bind s).map Prod.fst =
      ((name (as ++ [' '])).bind fun bs => (skip1 isBlank bs).bind s).map Prod.fst := by
  have hlead : (name (as ++ ' ' :: '(' :: cs)).bind (skip1 isBlank) =
      ((name (as ++ [' '])).bind (skip1 isBlank)).map (· ++ '(' :: cs) := by
    rw [← List.singleton_append, ← List.append_assoc, hclosed]
    cases name (as ++ [' ']) with
    | none => rfl
    | some bs => exact skip1_append_mark (by decide) bs cs
  rw [← Option.bind_assoc, ← Option.bind_assoc, hlead]
  cases hrest : (name (as ++ [' '])).bind (skip1 isBlank) with
  | none => rfl
  | some bs =>
    obtain ⟨hsuffix, hmem⟩ := mem_of_name hname hrest (List.mem_append_left _ hc)
    rcases List.suffix_concat_iff.1 hsuffix with rfl | ⟨front, rfl, -⟩
    · cases hmem
    · simp only [Option.map_some, Option.bind_some, List.append_assoc, List.singleton_append]
      exact hs front cs

theorem halting_usePool : Halting 'u' usePool where
  nil := rfl
  starts := by
    intro c hc cs
    have hne : 'u' ≠ c := by
      rintro rfl
      exact absurd hc (by decide)
    simp [usePool, dropStart?, hne]
  stops := by
    have hbracket : '(' ∉ ['u', 's', 'e', ' ', 'p', 'o', 'o', 'l'] := by decide
    have hname : ∀ as bs, dropStart? ['u', 's', 'e', ' ', 'p', 'o', 'o', 'l'] as = some bs →
        ∃ found, as = found ++ bs ∧ 'c' ∉ found := fun as bs h =>
      ⟨_, eq_append_of_dropStart? h, by decide⟩
    refine stops_of_name (dropStart?_append_mark hbracket) hname fun as cs => ?_
    rw [run1_append_mark (by decide), run1_append_mark (by decide), Option.map_map, Option.map_map]
    rfl
  digit := by decide
  frame := by decide

/-- What is read behind the name of a rate and the text of its windows. -/
def readings : Scanner Speed := fun cs => do
  let cs ← skip1 isBlank cs
  let (first, cs) ← window cs
  let cs ← skip1 isBlank cs
  let (second, cs) ← window cs
  let cs ← skip1 isBlank cs
  let (third, cs) ← window cs
  let cs ← skip1 isBlank cs
  let (scale, cs) ← unit cs
  return (⟨[first, second, third], scale⟩, cs)

theorem closedBy_window : ClosedBy '(' window := by
  intro as cs
  have hrate : ['n', '/', 'a'].any (foldsTo · '(') = false := by decide
  rw [window, window, foldWord_append_mark hrate]
  cases foldWord ['n', '/', 'a'] as with
  | none => exact run1_append_mark (by decide) as cs
  | some rest => rfl

theorem closedBy_readings : ClosedBy '(' readings := by
  have hblank : ∀ as cs, skip1 isBlank (as ++ '(' :: cs) =
      (skip1 isBlank as).map (· ++ '(' :: cs) := skip1_append_mark (by decide)
  have hunit : ClosedBy '(' unit := closedBy_unit (by decide) (by decide)
  exact (closedBy_window.bind fun first => (closedBy_window.bind fun second =>
    (closedBy_window.bind fun third => (hunit.bind fun scale =>
      closedBy_pure '(' (⟨[first, second, third], scale⟩ : Speed)).after hblank).after
        hblank).after hblank).after hblank

theorem halting_speed : Halting 's' speed where
  nil := rfl
  starts := by
    intro c hc cs
    simp [speed, foldWord, hc]
  stops := by
    have hbracket : ['s', 'p', 'e', 'e', 'd'].any (foldsTo · '(') = false := by decide
    have hname : ∀ as bs, foldWord ['s', 'p', 'e', 'e', 'd'] as = some bs →
        ∃ found, as = found ++ bs ∧ 'c' ∉ found := by
      intro as bs h
      obtain ⟨found, hsplit, hfound⟩ := foldWord_cases h
      exact ⟨found, hsplit, fun hc => absurd (hfound 'c' hc) (by decide)⟩
    refine @stops_of_name _ _ (fun cs => (skip1 (!isBlank ·) cs).bind readings)
      (foldWord_append_mark hbracket) hname fun as cs => ?_
    rw [skip1_append_mark (by decide), skip1_append_mark (by decide)]
    cases skip1 (!isBlank ·) as with
    | none => rfl
    | some bs =>
      have hclosed := closedBy_readings (bs ++ [' ']) cs
      rw [List.append_assoc, List.singleton_append] at hclosed
      simp only [Option.map_some, Option.bind_some, hclosed, Option.map_map]
      rfl
  digit := by decide
  frame := by decide

/-! The status -/

theorem quoted?_append {as reason : Chars} (has : '"' ∉ as) (hne : reason ≠ [])
    (hreason : '"' ∉ reason) (rest : Chars) :
    quoted? (as ++ '"' :: (reason ++ '"' :: rest)) = some reason := by
  have hplain {cs : Chars} (hcs : '"' ∉ cs) : ∀ c ∈ cs, (c != '"') = true := fun c hc => by
    simpa using ne_of_mem_of_not_mem hc hcs
  obtain ⟨c, cs, rfl⟩ := List.exists_cons_of_ne_nil hne
  rw [quoted?, skip_append (hplain has) (by decide)]
  simp only [run, List.takeWhile_append_of_pos (hplain hreason),
    List.dropWhile_append_of_pos (hplain hreason)]
  simp

theorem usePool_cases {cs rest pool : Chars} (h : usePool cs = some (pool, rest)) :
    ∃ more, cs = "use pool".toList ++ more := by
  simp only [usePool, Option.bind_eq_bind, Option.bind_eq_some_iff] at h
  obtain ⟨more, hmore, -⟩ := h
  exact ⟨more, eq_append_of_dropStart? hmore⟩

theorem search_usePool_eq_none {cs : Chars} (h : ¬ "use pool".toList <:+: cs) :
    search usePool cs = none := by
  refine searchFrom_eq_none (fun t ht => ?_) false
  refine Option.eq_none_iff_forall_ne_some.2 fun found hfound => h ?_
  obtain ⟨more, rfl⟩ := usePool_cases hfound
  exact (List.prefix_append _ more).isInfix.trans ht.isInfix

/-- A verdict does not complete the name of a pool: no verdict begins with one of its letters. -/
theorem not_infix_verdict {preamble : Chars} (h : ¬ "use pool".toList <:+: preamble)
    (isRejection : Bool) :
    ¬ "use pool".toList <:+: preamble ++ (verdictWord isRejection ++ [' ']) := by
  have hletter : 'u' ∉ verdictWord isRejection ++ [' '] := by cases isRejection <;> decide
  have hhead : ∀ c cs, verdictWord isRejection ++ [' '] = c :: cs → c ∉ "use pool".toList := by
    cases isRejection <;> rintro c cs ⟨⟩ <;> decide
  rintro ⟨before, after, heq⟩
  rw [List.append_assoc] at heq
  rcases List.append_eq_append_iff.1 heq with ⟨cut, rfl, hcut⟩ | ⟨cut, -, hcut⟩
  · rcases List.append_eq_append_iff.1 hcut with ⟨cut', rfl, -⟩ | ⟨cut', hname, hverdict⟩
    · exact h ⟨before, cut', List.append_assoc _ _ _⟩
    · cases cut' with
      | nil => exact h ⟨before, [], by rw [hname]; simp⟩
      | cons c cut' =>
        exact hhead c _ hverdict (hname ▸ List.mem_append_right cut List.mem_cons_self)
  · exact hletter (hcut ▸ List.mem_append_right cut (List.mem_append_left after (by decide)))

/-! Lines -/

theorem nonEmpty?_counts (hashrate : Option Float) (status : Option String) (n m : Nat) :
    (Sample.mk hashrate (if n < limit64 then some n else none)
      (if m < limit64 then some m else none) status).nonEmpty? =
      if limit64 ≤ n ∧ limit64 ≤ m ∧ hashrate = none ∧ status = none then none
      else some ⟨hashrate, if n < limit64 then some n else none,
        if m < limit64 then some m else none, status⟩ := by
  rw [Sample.nonEmpty?]
  refine if_congr ?_ rfl rfl
  simp only [Sample.isEmpty, Bool.and_eq_true, Option.isNone_iff_eq_none, ite_eq_right_iff,
    reduceCtorEq, imp_false, Nat.not_lt]
  tauto

/-- A verdict is read behind every preamble and whatever follows. Its numbers are the counters, one
that is too large being left out, and the rest of the reading does not depend on them. The reason of
a rejected share is the status if the line names no pool. -/
theorem read_shareText {preamble : Chars} (h : Preamble preamble) (isRejection : Bool)
    (rest : Chars) :
    ∃ (hashrate : Option Float) (status : Option String),
      (∀ a r n m, Denotes a n → Denotes r m →
        read (preamble ++ (shareText isRejection a r ++ rest)) =
          if limit64 ≤ n ∧ limit64 ≤ m ∧ hashrate = none ∧ status = none then none
          else some ⟨hashrate, if n < limit64 then some n else none,
            if m < limit64 then some m else none, status⟩) ∧
      ∀ difficulty reason,
        rest = " diff ".toList ++ (difficulty ++ ' ' :: '"' :: (reason ++ ['"'])) →
          '"' ∉ difficulty → reason ≠ [] → '"' ∉ reason →
            ¬ "use pool".toList <:+: preamble → ¬ "use pool".toList <:+: rest →
              status = if isRejection then some ("share rejected: " ++ String.ofList reason)
                else none := by
  refine ⟨((search speed (preamble ++ (verdictWord isRejection ++ [' ']))).or
      (search speed rest)).bind Speed.hashrate?,
    (((search usePool (preamble ++ (verdictWord isRejection ++ [' ']))).or
      (search usePool rest)).map fun p => "connected to " ++ String.ofList p).or
        (Share.mk isRejection [] [] (quoted? rest)).status?, ?_, ?_⟩
  · intro a r n m ha hr
    rw [read, sample, search_share h isRejection ha hr,
      halting_speed.search_shareText preamble isRejection ha hr,
      halting_usePool.search_shareText preamble isRejection ha hr]
    simp only [Option.bind_some, ha.count?_eq, hr.count?_eq]
    exact nonEmpty?_counts _ _ n m
  · rintro difficulty reason rfl hdifficulty hne hreason hpreamble hrest
    have hpool := search_usePool_eq_none (not_infix_verdict hpreamble isRejection)
    have hquoted : quoted? (" diff ".toList ++ (difficulty ++ ' ' :: '"' :: (reason ++ ['"']))) =
        some reason := by
      have htext : " diff ".toList ++ (difficulty ++ ' ' :: '"' :: (reason ++ ['"'])) =
          (" diff ".toList ++ (difficulty ++ [' '])) ++ '"' :: (reason ++ '"' :: []) := by simp
      rw [htext]
      exact quoted?_append (by simp [hdifficulty]) hne hreason []
    rw [hpool, search_usePool_eq_none hrest, hquoted]
    cases isRejection <;> rfl

theorem preamble_of_short {preamble : Chars} (hblank : ∀ c ∈ preamble.getLast?, isBlank c = true)
    (hshort : preamble.length < 8) : Preamble preamble := by
  refine ⟨hblank, fun isRejection => ?_⟩
  rintro ⟨front, back, rfl, -, -⟩
  have hword : (verdictWord isRejection).length = 8 := by cases isRejection <;> rfl
  simp only [List.length_append, hword] at hshort
  omega

theorem read_shareText_lowDifficulty :
    Preamble "net ".toList ∧ ∃ hashrate,
      read ("net ".toList ++ (shareText true (digits 12) (digits 2) ++ (" diff ".toList ++
        ("100001".toList ++ ' ' :: '"' :: ("low difficulty share".toList ++ ['"']))))) =
          some ⟨hashrate, some 12, some 2,
            some ("share rejected: " ++ String.ofList "low difficulty share".toList)⟩ := by
  have hpreamble : Preamble "net ".toList :=
    preamble_of_short (fun c hc => Option.some.inj hc ▸ by decide) (by decide)
  obtain ⟨hashrate, status, hread, hstatus⟩ := read_shareText hpreamble true (" diff ".toList ++
    ("100001".toList ++ ' ' :: '"' :: ("low difficulty share".toList ++ ['"'])))
  have hpool {cs : Chars} (h : 'p' ∉ cs) : ¬ "use pool".toList <:+: cs := fun hin =>
    h (hin.subset (by decide))
  have hreason := hstatus _ _ rfl (by decide) (by decide) (by decide) (hpool (by decide))
    (hpool (by decide))
  refine ⟨hpreamble, hashrate, ?_⟩
  rw [hread _ _ 12 2 (denotes_digits 12) (denotes_digits 2),
    if_neg fun hlarge => absurd hlarge.1 (by decide), hreason]
  rfl

end RigWarden.Log.Xmrig
