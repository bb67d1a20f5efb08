import RigWarden.Log.SrbMiner
import RigWarden.Proofs.Log.Rates
import RigWarden.Proofs.Log.Totals
import RigWarden.Proofs.Number.Numerals

/-!
# Lines of tokens

A line of the SRBMiner log is put together from tokens with a blank between them, no two with the
same name. What a search finds in the line is what it finds in the first of the tokens that hold
anything for it: the token of its own name or a status, whose text is searched like the rest of the
line. So the line gives the values of its tokens unless the text of a status in front of a token, or
on its own, gives another one.
-/

namespace RigWarden.Log

open Text Number

attribute [ext] Sample

namespace Sample

theorem eq_of_isEmpty {s : Sample} (h : s.isEmpty = true) : s = {} := by
  simp only [isEmpty, Bool.and_eq_true, Option.isNone_iff_eq_none] at h
  obtain ⟨⟨⟨hrate, haccepted⟩, hrejected⟩, hstatus⟩ := h
  exact Sample.ext hrate haccepted hrejected hstatus

theorem nonEmpty?_inj {s t : Sample} : s.nonEmpty? = t.nonEmpty? ↔ s = t := by
  constructor
  · intro h
    rw [nonEmpty?, nonEmpty?] at h
    cases hs : s.isEmpty <;> cases ht : t.isEmpty <;> simp only [hs, ht] at h
    · exact Option.some.inj h
    · cases h
    · cases h
    · rw [eq_of_isEmpty hs, eq_of_isEmpty ht]
  · rintro rfl
    rfl

end Sample

def Counter.word : Counter → Chars
  | accepted => ['a', 'c', 'c', 'e', 'p', 't', 'e', 'd']
  | rejected => ['r', 'e', 'j', 'e', 'c', 't', 'e', 'd']

namespace SrbMiner

/-! Tokens -/

structure Rate where
  whole : Chars
  fraction : Chars
  scale : Scale
  unit : Chars
  ne_nil : whole ≠ []
  digits : ∀ c ∈ whole ++ fraction, isAsciiDigit c = true
  lower_unit : unit.map lower = scale.unitText

namespace Rate

theorem skip_unit (r : Rate) (rest : Chars) :
    skip isBlank (' ' :: (r.unit ++ rest)) = r.unit ++ rest := by
  have hhead : ∃ w ws, r.scale.unitText = w :: ws ∧ isBlank w = false := by
    cases r.scale <;> exact ⟨_, _, rfl, by decide⟩
  obtain ⟨w, ws, htext, hw⟩ := hhead
  obtain ⟨c, cs, hunit, hc, -⟩ := List.map_eq_cons_iff.1 (r.lower_unit.trans htext)
  have hblank : isBlank ' ' = true := by decide
  simp [skip, hunit, hblank, not_blank_of_lower hc hw]

end Rate

structure Count where
  number : Nat
  text : Chars
  denotes : Denotes text number
  lt : number < limit64

structure StatusText where
  text : Chars
  ne_nil : text ≠ []
  unquoted : '"' ∉ text

inductive Token where
  | rate (r : Rate)
  | count (c : Counter) (n : Count)
  | status (s : StatusText)

namespace Token

def name : Token → Chars
  | rate _ => ['h', 'a', 's', 'h', 'r', 'a', 't', 'e']
  | count c _ => c.word
  | status _ => ['s', 't', 'a', 't', 'u', 's']

def body : Token → Chars
  | rate r => numeralText r.whole r.fraction ++ ' ' :: r.unit
  | count _ n => n.text
  | status s => '"' :: (s.text ++ ['"'])

def text (t : Token) : Chars := t.name ++ '=' :: t.body

/-- The value of a rate in hashes per second. A numeral that is too large for a number has none. -/
def rate? : Token → Option Float
  | rate r =>
    let value := ofDecimal (ofDigits (r.whole ++ r.fraction)) r.fraction.length
    if value.isFinite then some (value * r.scale.factor) else none
  | _ => none

def count? (c : Counter) : Token → Option Nat
  | count c' n => if c' = c then some n.number else none
  | _ => none

def status? : Token → Option String
  | status s => some (.ofList s.text)
  | _ => none

end Token

def line (ts : List Token) : Chars := [' '].intercalate (ts.map Token.text)

def fields (ts : List Token) : Sample where
  hashrate := ts.findSome? Token.rate?
  accepted := ts.findSome? (Token.count? .accepted)
  rejected := ts.findSome? (Token.count? .rejected)
  status := ts.findSome? Token.status?

/-! Searches of a line -/

/-- What is found in a text does not depend on what stands behind a blank. -/
def Separate {α : Type} (s : Scanner α) (as : Chars) : Prop :=
  ∀ cs, search s (as ++ ' ' :: cs) = (search s as).or (search s cs)

section searches

variable {α : Type} {s : Scanner α} {word as : Chars}

theorem search_line {ts : List Token} (h : ∀ t ∈ ts, Separate s t.text) :
    search s (line ts) = ts.findSome? fun t => search s t.text := by
  induction ts with
  | nil => rfl
  | cons t ts ih =>
    obtain ⟨ht, hts⟩ := List.forall_mem_cons.1 h
    cases ts with
    | nil => simp [line, findSome?_cons_or]
    | cons u us =>
      have hline : line (t :: u :: us) = t.text ++ ' ' :: line (u :: us) := rfl
      rw [hline, ht, findSome?_cons_or, ih hts]

/-- The end of a line or a blank. -/
def Ends (rest : Chars) : Prop := ∀ c ∈ rest.head?, c = ' '

theorem separate_of_reads {a : α} (hne : as ≠ [])
    (h : ∀ rest, Ends rest → ∃ left, s (as ++ rest) = some (a, left)) :
    search s as = some a ∧ Separate s as := by
  have hfound (rest : Chars) (hrest : Ends rest) : search s (as ++ rest) = some a := by
    obtain ⟨left, hleft⟩ := h rest hrest
    exact search_eq_some hleft (List.append_ne_nil_of_left_ne_nil hne rest)
  have hhere : search s as = some a := by
    have hend := hfound [] nofun
    rwa [List.append_nil] at hend
  refine ⟨hhere, fun cs => ?_⟩
  rw [hhere, hfound (' ' :: cs) (by simp [Ends])]
  rfl

/-- A scanner that begins with a word finds nothing where a letter of the word is missing. -/
theorem separate_of_missing (hs : ∀ cs, foldWord word cs = none → s cs = none)
    (hblank : word.any (foldsTo · ' ') = false) {w : Char} (hw : w ∈ word)
    (has : ∀ c ∈ as, foldsTo w c = false) : search s as = none ∧ Separate s as := by
  have hmissing {t : Chars} (ht : ∀ c ∈ t, foldsTo w c = false) : foldWord word t = none := by
    refine Option.eq_none_iff_forall_ne_some.2 fun rest hrest => ?_
    obtain ⟨c, hc, hfold⟩ := exists_of_foldWord hrest hw
    rw [ht c hc] at hfold
    cases hfold
  have hclosed {t : Chars} (ht : t <:+ as) (cs : Chars) : s (t ++ ' ' :: cs) = none := by
    apply hs
    rw [foldWord_append_mark hblank, hmissing fun c hc => has c (ht.subset hc)]
    rfl
  have hhere : search s as = none :=
    searchFrom_eq_none (fun t ht => hs t (hmissing fun c hc => has c (ht.subset hc))) false
  refine ⟨hhere, fun cs => ?_⟩
  have hword : isWord ' ' = false := by decide
  have hnone : searchFrom (fun t => s (t ++ ' ' :: cs)) false as = none :=
    searchFrom_eq_none (fun t ht => hclosed ht cs) false
  rw [search, searchFrom_append, hnone, searchFrom_cons_of_none (hclosed (List.nil_suffix) cs),
    hword, hhere]
  rfl

end searches

/-! Readings in a quoted text -/

theorem assign_append_quote (as cs : Chars) :
    assign (as ++ '"' :: cs) = (assign as).map (· ++ '"' :: cs) := by
  have hskip (bs : Chars) : skip isBlank (bs ++ '"' :: cs) = skip isBlank bs ++ '"' :: cs :=
    skip_append_mark (by decide) bs cs
  rw [assign, assign, hskip]
  cases skip isBlank as with
  | nil => simp
  | cons c bs =>
    by_cases hequals : c = '='
    · subst hequals
      simp [hskip]
    · by_cases hcolon : c = ':'
      · subst hcolon
        simp [hskip]
      · simp [hequals, hcolon]

theorem closedBy_counter (c : Counter) : ClosedBy '"' (counter c.word) := by
  have hword : c.word.any (foldsTo · '"') = false := by cases c <;> decide
  have hdigits : ClosedBy '"' (run1 isDigit) := run1_append_mark (by decide)
  exact (hdigits.after assign_append_quote).after (foldWord_append_mark hword)

theorem closedBy_hashrate : ClosedBy '"' hashrate := by
  intro as cs
  have hword : ['h', 'a', 's', 'h', 'r', 'a', 't', 'e'].any (foldsTo · '"') = false := by decide
  have hblank : isBlank '"' = false := by decide
  have hnumeral : ClosedBy '"' numeral := closedBy_numeral (by decide) (by decide)
  have hunit : ClosedBy '"' unit := closedBy_unit (by decide) (by decide)
  simp only [hashrate, Option.bind_eq_bind, foldWord_append_mark hword]
  cases foldWord ['h', 'a', 's', 'h', 'r', 'a', 't', 'e'] as with
  | none => rfl
  | some bs =>
    simp only [Option.map_some, Option.bind_some, assign_append_quote]
    cases assign bs with
    | none => rfl
    | some bs =>
      simp only [Option.map_some, Option.bind_some, hnumeral bs cs]
      cases numeral bs with
      | none => rfl
      | some found =>
        simp only [Option.map_some, Option.bind_some, skip_append_mark hblank, hunit _ cs]
        cases unit (skip isBlank found.2) <;> rfl

/-! What a token gives to the scanner of its name -/

namespace Token

theorem foldWord_name (t : Token) (rest : Chars) :
    foldWord t.name (t.text ++ rest) = some ('=' :: (t.body ++ rest)) := by
  have hlower : t.name.map lower = t.name := by
    rcases t with r | ⟨_ | _, n⟩ | q <;> rfl
  rw [text, List.append_assoc, foldWord_of_lower hlower, List.cons_append]

theorem name_eq_hashrate_iff {t : Token} :
    t.name = ['h', 'a', 's', 'h', 'r', 'a', 't', 'e'] ↔ ∃ r, t = rate r := by
  constructor
  · intro h
    cases t with
    | rate r => exact ⟨r, rfl⟩
    | count c n => cases c <;> cases h
    | status q => cases h
  · rintro ⟨r, rfl⟩
    rfl

theorem name_eq_word_iff {t : Token} {c : Counter} : t.name = c.word ↔ ∃ n, t = count c n := by
  constructor
  · intro h
    cases t with
    | rate r => cases c <;> cases h
    | count c' n =>
      obtain rfl : c' = c := by cases c <;> cases c' <;> first | rfl | cases h
      exact ⟨n, rfl⟩
    | status q => cases c <;> cases h
  · rintro ⟨n, rfl⟩
    rfl

theorem rate_notMem_iff {ts : List Token} : (∀ r, rate r ∉ ts) ↔
    ∀ t ∈ ts, t.name ≠ ['h', 'a', 's', 'h', 'r', 'a', 't', 'e'] := by
  simp only [ne_eq, name_eq_hashrate_iff, not_exists]
  exact ⟨fun hno t ht r hr => hno r (hr ▸ ht), fun hno r hr => hno _ hr r rfl⟩

theorem count_notMem_iff {ts : List Token} {c : Counter} : (∀ n, count c n ∉ ts) ↔
    ∀ t ∈ ts, t.name ≠ c.word := by
  simp only [ne_eq, name_eq_word_iff, not_exists]
  exact ⟨fun hno t ht n hn => hno n (hn ▸ ht), fun hno n hn => hno _ hn n rfl⟩

theorem text_ne_nil (t : Token) : t.text ≠ [] := by simp [text]

theorem exists_body (t : Token) : ∃ c cs, t.body = c :: cs ∧ isBlank c = false := by
  cases t with
  | rate r =>
    obtain ⟨d, ds, hds⟩ := List.exists_cons_of_ne_nil r.ne_nil
    have hdigit : isAsciiDigit d = true := r.digits d (by simp [hds])
    have hbody : ∃ cs, (rate r).body = d :: cs := by
      rw [body, hds, numeralText.eq_def]
      cases r.fraction <;> exact ⟨_, rfl⟩
    obtain ⟨cs, hcs⟩ := hbody
    exact ⟨d, cs, hcs, not_blank_of_isAsciiDigit hdigit⟩
  | count c n =>
    obtain ⟨d, ds, hds⟩ := List.exists_cons_of_ne_nil n.denotes.ne_nil
    have hdigit : d.isDigit = true := n.denotes.digits d (hds ▸ List.mem_cons_self)
    exact ⟨d, ds, hds, not_blank_of_isAsciiDigit (isAsciiDigit_of_isDigit hdigit)⟩
  | status q => exact ⟨'"', q.text ++ ['"'], rfl, by decide⟩

theorem assign_body (t : Token) (rest : Chars) :
    assign ('=' :: (t.body ++ rest)) = some (t.body ++ rest) := by
  obtain ⟨c, cs, hbody, hblank⟩ := t.exists_body
  have hequals : skip isBlank ('=' :: (t.body ++ rest)) = '=' :: (t.body ++ rest) := rfl
  rw [assign, hequals, hbody]
  simp [skip, hblank]

end Token

theorem hashrate_rate (r : Rate) :
    ∃ scale, factor? scale = some r.scale.factor ∧
      ∀ rest, hashrate ((Token.rate r).text ++ rest) =
        some ((numeralText r.whole r.fraction, scale), rest) := by
  obtain ⟨scale, hfactor, hunit⟩ := unit_of_lower r.lower_unit
  refine ⟨scale, hfactor, fun rest => ?_⟩
  have hname : foldWord ['h', 'a', 's', 'h', 'r', 'a', 't', 'e'] ((Token.rate r).text ++ rest) =
      some ('=' :: ((Token.rate r).body ++ rest)) := (Token.rate r).foldWord_name rest
  have hbody : (Token.rate r).body ++ rest =
      numeralText r.whole r.fraction ++ ' ' :: (r.unit ++ rest) := by simp [Token.body]
  rw [hashrate, hname]
  simp only [Option.bind_eq_bind, Option.bind_some, Token.assign_body]
  simp only [hbody, numeral_numeralText r.ne_nil r.digits, Option.bind_some, r.skip_unit, hunit]
  rfl

theorem counter_count (c : Counter) (n : Count) {rest : Chars} (hrest : Ends rest) :
    counter c.word ((Token.count c n).text ++ rest) = some (n.text, rest) := by
  have hname : foldWord c.word ((Token.count c n).text ++ rest) =
      some ('=' :: (n.text ++ rest)) := (Token.count c n).foldWord_name rest
  have hassign : assign ('=' :: (n.text ++ rest)) = some (n.text ++ rest) :=
    (Token.count c n).assign_body rest
  have hend : ∀ d ∈ rest.head?, isDigit d = false := by
    intro d hd
    rw [hrest d hd]
    decide
  rw [counter, hname]
  simp only [Option.bind_eq_bind, Option.bind_some, hassign]
  exact run1_append_of_head n.denotes.ne_nil n.denotes.isDigit hend

theorem status_status (q : StatusText) (rest : Chars) :
    status ((Token.status q).text ++ rest) = some (q.text, rest) := by
  have hplain : ∀ c ∈ q.text, (c != '"') = true := fun c hc => by
    simpa using ne_of_mem_of_not_mem hc q.unquoted
  have hname : foldWord ['s', 't', 'a', 't', 'u', 's'] ((Token.status q).text ++ rest) =
      some ('=' :: ((Token.status q).body ++ rest)) := (Token.status q).foldWord_name rest
  have hbody : (Token.status q).body ++ rest = '"' :: (q.text ++ '"' :: rest) := by
    simp [Token.body]
  have hmark (cs : Chars) : mark '=' (skip isBlank ('=' :: cs)) = some cs := by
    simp [mark, skip, dropStart?, isBlank, within]
  have hskip (cs : Chars) : skip isBlank ('"' :: cs) = '"' :: cs := rfl
  have hquoted : quoted ('"' :: (q.text ++ '"' :: rest)) = some (q.text, rest) := by
    simp [quoted, run, List.takeWhile_append_of_pos hplain, List.dropWhile_append_of_pos hplain]
  rw [status, hname]
  simp only [Option.bind_eq_bind, Option.bind_some, hmark, hbody, hskip, hquoted]

/-! What a token gives to the other scanners -/

theorem count_missing (c : Counter) (n : Count) {w : Char} (hw : isAsciiDigit w = false)
    (hname : (c.word ++ ['=']).any (foldsTo w) = false) :
    ∀ d ∈ (Token.count c n).text, foldsTo w d = false := by
  intro d hd
  have htext : (Token.count c n).text = (c.word ++ ['=']) ++ n.text := by
    simp [Token.text, Token.name, Token.body]
  rw [htext, List.mem_append] at hd
  rcases hd with hd | hd
  · exact Bool.eq_false_iff.2 (List.any_eq_false.1 hname d hd)
  · exact foldsTo_of_isAsciiDigit hw (isAsciiDigit_of_isDigit (n.denotes.digits d hd))

theorem foldsTo_of_lower_ne {w d : Char} (hk : w ≠ 'k') (hs : w ≠ 's') (h : lower d ≠ w) :
    foldsTo w d = false := by
  simp [foldsTo, hk, hs, h]

theorem rate_missing (r : Rate) {w : Char} (hdigit : isAsciiDigit w = false)
    (hplain : ['h', 'a', 's', 'h', 'r', 'a', 't', 'e', '=', '.', ' '].any (foldsTo w) = false)
    (hunit : w ∉ ['h', '/', 's', 'k', 'm', 'g']) :
    ∀ d ∈ (Token.rate r).text, foldsTo w d = false := by
  intro d hd
  have hplain {d : Char} (hd : d ∈ ['h', 'a', 's', 'h', 'r', 'a', 't', 'e', '=', '.', ' ']) :
      foldsTo w d = false := Bool.eq_false_iff.2 (List.any_eq_false.1 hplain d hd)
  have hletters : ∀ l ∈ r.scale.unitText, l ∈ ['h', '/', 's', 'k', 'm', 'g'] := by
    cases r.scale <;> simp [Scale.unitText]
  have htext : (Token.rate r).text = ['h', 'a', 's', 'h', 'r', 'a', 't', 'e', '='] ++
      (numeralText r.whole r.fraction ++ ([' '] ++ r.unit)) := rfl
  rw [htext, List.mem_append, List.mem_append, List.mem_append] at hd
  rcases hd with hd | hd | hd | hd
  · exact hplain (List.mem_append_left ['.', ' '] hd)
  · rcases mem_numeralText hd with hd | rfl
    · exact foldsTo_of_isAsciiDigit hdigit (r.digits d hd)
    · exact hplain (by simp)
  · exact hplain (by simp [List.eq_of_mem_singleton hd])
  · have hlower : lower d ∈ r.scale.unitText := r.lower_unit ▸ List.mem_map_of_mem hd
    have hother {l : Char} (hl : l ∈ ['h', '/', 's', 'k', 'm', 'g']) : l ≠ w :=
      ne_of_mem_of_not_mem hl hunit
    exact foldsTo_of_lower_ne (hother (by simp)).symm (hother (by simp)).symm
      (hother (hletters _ hlower))

/-! Readers -/

/-- Of tokens with different names, one alone has the field of its name. -/
theorem findSome?_eq_of_mem {β : Type} {word : Chars} {field : Token → Option β}
    (hfield : ∀ t, t.name ≠ word → field t = none) {ts : List Token}
    (hts : (ts.map Token.name).Nodup) {t : Token} (ht : t ∈ ts) (hname : t.name = word) :
    ts.findSome? field = field t := by
  have hother : ∀ u ∈ ts, u = t ∨ field u = none := by
    intro u hu
    by_cases hsame : u.name = word
    · exact .inl (List.inj_on_of_nodup_map hts hu ht (hsame.trans hname.symm))
    · exact .inr (hfield u hsame)
  cases hfirst : ts.findSome? field with
  | none => exact (List.findSome?_eq_none_iff.1 hfirst t ht).symm
  | some b =>
    obtain ⟨u, hu, hb⟩ := List.exists_of_findSome?_eq_some hfirst
    rcases hother u hu with rfl | hnone
    · exact hb.symm
    · rw [hnone] at hb
      cases hb

/-- A scanner of the tokens of one name, with the value it gets from what it finds. -/
structure Reader {α β : Type} (word : Chars) (s : Scanner α) (value : α → Option β)
    (field : Token → Option β) : Prop where
  starts : ∀ cs, foldWord word cs = none → s cs = none
  ne_nil : word ≠ []
  unblank : word.any (foldsTo · ' ') = false
  closed : ClosedBy '"' s
  silent : search s ['s', 't', 'a', 't', 'u', 's', '='] = none
  own : ∀ t : Token, t.name = word → ∃ a, value a = field t ∧
    ∀ rest, Ends rest → ∃ left, s (t.text ++ rest) = some (a, left)
  missing : ∀ t : Token, t.name ≠ word → (∀ q, t ≠ .status q) →
    ∃ w ∈ word, ∀ d ∈ t.text, foldsTo w d = false
  field_other : ∀ t : Token, t.name ≠ word → field t = none

namespace Reader

variable {α β : Type} {word : Chars} {s : Scanner α} {value : α → Option β}
  {field : Token → Option β} {ts : List Token}

theorem search_own (hs : Reader word s value field) {t : Token} (h : t.name = word) :
    ∃ a, value a = field t ∧ search s t.text = some a ∧ Separate s t.text := by
  obtain ⟨a, hvalue, hread⟩ := hs.own t h
  exact ⟨a, hvalue, separate_of_reads t.text_ne_nil hread⟩

theorem search_other (hs : Reader word s value field) {t : Token} (h : t.name ≠ word)
    (hstatus : ∀ q, t ≠ .status q) : search s t.text = none ∧ Separate s t.text := by
  obtain ⟨w, hw, hmissing⟩ := hs.missing t h hstatus
  exact separate_of_missing hs.starts hs.unblank hw hmissing

theorem search_status (hs : Reader word s value field) (q : StatusText) :
    search s (Token.status q).text = search s q.text ∧ Separate s (Token.status q).text := by
  have hquote : isWord '"' = false := by decide
  have hfold : foldWord word [] = none := by
    obtain ⟨w, ws, hword⟩ := List.exists_cons_of_ne_nil hs.ne_nil
    rw [hword]
    rfl
  have hblank (cs : Chars) : foldWord word (' ' :: cs) = none := by
    have hclosed := foldWord_append_mark hs.unblank [] cs
    rwa [hfold] at hclosed
  have hnil : s [] = none := hs.starts [] hfold
  have hread (rest : Chars) :
      search s ((Token.status q).text ++ rest) = (search s q.text).or (search s rest) := by
    have htext : (Token.status q).text ++ rest = ['s', 't', 'a', 't', 'u', 's', '='] ++
        '"' :: (q.text ++ '"' :: rest) := by simp [Token.text, Token.name, Token.body]
    rw [htext, hs.closed.search_append hnil hquote, hs.silent, Option.none_or,
      hs.closed.search_append hnil hquote]
  have hhere : search s (Token.status q).text = search s q.text := by
    have hend := hread []
    rwa [List.append_nil, search_nil, Option.or_none] at hend
  refine ⟨hhere, fun cs => ?_⟩
  have hskip : search s (' ' :: cs) = search s cs :=
    searchFrom_cons_of_none (hs.starts _ (hblank cs)) false
  rw [hread, hhere, hskip]

theorem separate (hs : Reader word s value field) (t : Token) : Separate s t.text := by
  by_cases hown : t.name = word
  · obtain ⟨a, -, -, h⟩ := hs.search_own hown
    exact h
  · by_cases hstatus : ∃ q, t = .status q
    · obtain ⟨q, rfl⟩ := hstatus
      exact (hs.search_status q).2
    · exact (hs.search_other hown fun q hq => hstatus ⟨q, hq⟩).2

/-- Where no token of its name stands before a status, a reader takes what the status gives. -/
theorem search_of_status (hs : Reader word s value field) {before after : List Token}
    {q : StatusText} (hname : ∀ t ∈ before, t.name ≠ word)
    (hstatus : ∀ t ∈ before, t.name ≠ (Token.status q).name) (hfound : search s q.text ≠ none) :
    search s (line (before ++ .status q :: after)) = search s q.text := by
  obtain ⟨a, ha⟩ := Option.ne_none_iff_exists'.1 hfound
  have hbefore : before.findSome? (fun t => search s t.text) = none :=
    List.findSome?_eq_none_iff.2 fun t ht =>
      (hs.search_other (hname t ht) fun q' hq => hstatus t ht (by rw [hq]; rfl)).1
  rw [search_line fun t _ => hs.separate t, List.findSome?_append, hbefore, Option.none_or,
    findSome?_cons_or, (hs.search_status q).1, ha]
  rfl

/-- A reader gives the field of its name unless the text of a status, with no token of the name in
front of it, gives another value. -/
theorem bind_search_eq_iff (hs : Reader word s value field) (hts : (ts.map Token.name).Nodup) :
    (search s (line ts)).bind value = ts.findSome? field ↔
      ∀ before q after, ts = before ++ .status q :: after → (∀ t ∈ before, t.name ≠ word) →
        search s q.text ≠ none → (search s q.text).bind value = ts.findSome? field := by
  constructor
  · rintro h before q after rfl hname hfound
    rw [hs.search_of_status hname ?_ hfound] at h
    · exact h
    · intro t ht hsame
      rw [List.map_append, List.map_cons, List.nodup_append] at hts
      exact hts.2.2 _ (List.mem_map_of_mem ht) _ List.mem_cons_self hsame
  · intro h
    rw [search_line fun t _ => hs.separate t]
    cases hfirst : ts.findSome? fun t => search s t.text with
    | none =>
      refine (List.findSome?_eq_none_iff.2 fun t ht => hs.field_other t fun hname => ?_).symm
      obtain ⟨a, -, ha, -⟩ := hs.search_own hname
      rw [List.findSome?_eq_none_iff.1 hfirst t ht] at ha
      cases ha
    | some a =>
      obtain ⟨before, t, after, rfl, ha, hbefore⟩ := List.findSome?_eq_some_iff.1 hfirst
      have hname : ∀ u ∈ before, u.name ≠ word := by
        intro u hu hname
        obtain ⟨b, -, hb, -⟩ := hs.search_own hname
        rw [hbefore u hu] at hb
        cases hb
      by_cases hown : t.name = word
      · obtain ⟨b, hvalue, hb, -⟩ := hs.search_own hown
        obtain rfl : a = b := Option.some.inj (ha.symm.trans hb)
        have hmem : t ∈ before ++ t :: after := List.mem_append_right before List.mem_cons_self
        rw [findSome?_eq_of_mem hs.field_other hts hmem hown]
        exact hvalue
      · by_cases hstatus : ∃ q, t = .status q
        · obtain ⟨q, rfl⟩ := hstatus
          rw [(hs.search_status q).1] at ha
          have hsame := h before q after rfl hname (by simp [ha])
          rwa [ha] at hsame
        · rw [(hs.search_other hown fun q hq => hstatus ⟨q, hq⟩).1] at ha
          cases ha

end Reader

theorem reader_hashrate : Reader ['h', 'a', 's', 'h', 'r', 'a', 't', 'e'] hashrate
    (fun found => (decimal? found.1).bind (scaled? · found.2)) Token.rate? where
  starts := fun cs h => by rw [hashrate, h]; rfl
  ne_nil := nofun
  unblank := by decide
  closed := closedBy_hashrate
  silent := rfl
  own := by
    intro t ht
    obtain ⟨r, rfl⟩ := Token.name_eq_hashrate_iff.1 ht
    obtain ⟨scale, hfactor, hread⟩ := hashrate_rate r
    refine ⟨_, ?_, fun rest _ => ⟨rest, hread rest⟩⟩
    rw [decimal?_numeralText r.ne_nil r.digits, Option.bind_some, scaled?_ofDecimal hfactor]
    rfl
  missing := by
    intro t ht hstatus
    cases t with
    | rate r => exact absurd rfl ht
    | count c n =>
      refine ⟨'h', by decide, count_missing c n (by decide) ?_⟩
      cases c <;> decide
    | status q => exact absurd rfl (hstatus q)
  field_other := by
    intro t ht
    cases t with
    | rate r => exact absurd rfl ht
    | count c n => rfl
    | status q => rfl

theorem reader_counter (c : Counter) :
    Reader c.word (counter c.word) Number.count? (Token.count? c) where
  starts := fun cs h => by rw [counter, h]; rfl
  ne_nil := by cases c <;> nofun
  unblank := by cases c <;> decide
  closed := closedBy_counter c
  silent := by cases c <;> rfl
  own := by
    intro t ht
    obtain ⟨n, rfl⟩ := Token.name_eq_word_iff.1 ht
    refine ⟨n.text, ?_, fun rest hrest => ⟨rest, counter_count c n hrest⟩⟩
    rw [n.denotes.count?_eq, if_pos n.lt, Token.count?, if_pos rfl]
  missing := by
    intro t ht hstatus
    cases t with
    | rate r =>
      cases c with
      | accepted => exact ⟨'p', by decide, rate_missing r (by decide) (by decide) (by decide)⟩
      | rejected => exact ⟨'j', by decide, rate_missing r (by decide) (by decide) (by decide)⟩
    | count c' n =>
      cases c with
      | accepted =>
        cases c' with
        | accepted => exact absurd rfl ht
        | rejected => exact ⟨'p', by decide, count_missing .rejected n (by decide) (by decide)⟩
      | rejected =>
        cases c' with
        | accepted => exact ⟨'j', by decide, count_missing .accepted n (by decide) (by decide)⟩
        | rejected => exact absurd rfl ht
    | status q => exact absurd rfl (hstatus q)
  field_other := by
    intro t ht
    cases t with
    | rate r => rfl
    | count c' n =>
      have hne : c' ≠ c := by
        rintro rfl
        exact ht rfl
      exact if_neg hne
    | status q => rfl

theorem search_status_text (t : Token) :
    (search status t.text).map String.ofList = t.status? ∧ Separate status t.text := by
  have hstarts : ∀ cs, foldWord ['s', 't', 'a', 't', 'u', 's'] cs = none → status cs = none :=
    fun cs h => by rw [status, h]; rfl
  have hmissing {as : Chars} (has : ∀ d ∈ as, foldsTo 'u' d = false) :
      search status as = none ∧ Separate status as :=
    separate_of_missing hstarts (by decide) (by decide) has
  cases t with
  | rate r =>
    obtain ⟨hnone, hseparate⟩ := hmissing (rate_missing r (by decide) (by decide) (by decide))
    exact ⟨by rw [hnone]; rfl, hseparate⟩
  | count c n =>
    have hname : (c.word ++ ['=']).any (foldsTo 'u') = false := by cases c <;> decide
    obtain ⟨hnone, hseparate⟩ := hmissing (count_missing c n (by decide) hname)
    exact ⟨by rw [hnone]; rfl, hseparate⟩
  | status q =>
    have hread : ∀ rest, Ends rest →
        ∃ left, status ((Token.status q).text ++ rest) = some (q.text, left) :=
      fun rest _ => ⟨rest, status_status q rest⟩
    obtain ⟨hfound, hseparate⟩ := separate_of_reads (Token.status q).text_ne_nil hread
    exact ⟨by rw [hfound]; rfl, hseparate⟩

/-! Lines -/

section lines

variable {ts : List Token}

theorem status_line (ts : List Token) : (sample (line ts)).status = (fields ts).status := by
  have hsearch : search status (line ts) = ts.findSome? fun t => search status t.text :=
    search_line fun t _ => (search_status_text t).2
  calc (search status (line ts)).map String.ofList
      = ts.findSome? fun t => (search status t.text).map String.ofList := by
        rw [hsearch, List.map_findSome?]
        rfl
    _ = ts.findSome? Token.status? := by simp only [(search_status_text _).1]

theorem findSome?_eq_of_perm {β : Type} {word : Chars} {field : Token → Option β}
    (hfield : ∀ t, t.name ≠ word → field t = none) {us : List Token} (hperm : us.Perm ts)
    (h : (ts.map Token.name).Nodup) : us.findSome? field = ts.findSome? field := by
  have hus : (us.map Token.name).Nodup := (hperm.map Token.name).nodup_iff.2 h
  by_cases hown : ∃ t ∈ ts, t.name = word
  · obtain ⟨t, ht, hname⟩ := hown
    rw [findSome?_eq_of_mem hfield hus (hperm.mem_iff.2 ht) hname,
      findSome?_eq_of_mem hfield h ht hname]
  · have hnone : ∀ t ∈ ts, field t = none := fun t ht =>
      hfield t fun hname => hown ⟨t, ht, hname⟩
    rw [List.findSome?_eq_none_iff.2 hnone,
      List.findSome?_eq_none_iff.2 fun t ht => hnone t (hperm.mem_iff.1 ht)]

/-- The order of tokens with different names does not matter for what they say. -/
theorem fields_eq_of_perm {us : List Token} (hperm : us.Perm ts)
    (h : (ts.map Token.name).Nodup) : fields us = fields ts := by
  have hstatus : ∀ t : Token, t.name ≠ ['s', 't', 'a', 't', 'u', 's'] → t.status? = none := by
    intro t ht
    cases t with
    | rate r => rfl
    | count c n => rfl
    | status q => exact absurd rfl ht
  simp only [fields, findSome?_eq_of_perm reader_hashrate.field_other hperm h,
    findSome?_eq_of_perm (reader_counter _).field_other hperm h,
    findSome?_eq_of_perm hstatus hperm h]

theorem sample_line_eq_iff : sample (line ts) = fields ts ↔
    (sample (line ts)).hashrate = (fields ts).hashrate ∧
      ∀ c : Counter, c.said (sample (line ts)) = c.said (fields ts) := by
  constructor
  · intro h
    rw [h]
    exact ⟨rfl, fun _ => rfl⟩
  · rintro ⟨hrate, hcounts⟩
    exact Sample.ext hrate (hcounts .accepted) (hcounts .rejected) (status_line ts)

theorem hashrate_line_iff (h : (ts.map Token.name).Nodup) :
    (sample (line ts)).hashrate = (fields ts).hashrate ↔
      ∀ before q after, ts = before ++ .status q :: after → (∀ r, .rate r ∉ before) →
        search hashrate q.text ≠ none → (sample q.text).hashrate = (fields ts).hashrate := by
  simp only [Token.rate_notMem_iff]
  exact reader_hashrate.bind_search_eq_iff h

theorem said_line_iff (h : (ts.map Token.name).Nodup) (c : Counter) :
    c.said (sample (line ts)) = c.said (fields ts) ↔
      ∀ before q after, ts = before ++ .status q :: after → (∀ n, .count c n ∉ before) →
        search (counter c.word) q.text ≠ none → c.said (sample q.text) = c.said (fields ts) := by
  simp only [Token.count_notMem_iff]
  cases c with
  | accepted => exact (reader_counter .accepted).bind_search_eq_iff h
  | rejected => exact (reader_counter .rejected).bind_search_eq_iff h

/-- A line of tokens says what its tokens say, in any order, if and only if no status whose text
holds a rate or a counter comes before the token of that name, or without it, and gives another
value. The text of the status itself is always told as it is. -/
theorem read_line_iff (h : (ts.map Token.name).Nodup) :
    (read (line ts) = (fields ts).nonEmpty? ↔
      ∀ before q after, ts = before ++ .status q :: after →
        ((∀ r, .rate r ∉ before) → search hashrate q.text ≠ none →
          (sample q.text).hashrate = (fields ts).hashrate) ∧
        ∀ c : Counter, (∀ n, .count c n ∉ before) → search (counter c.word) q.text ≠ none →
          c.said (sample q.text) = c.said (fields ts)) ∧
      (sample (line ts)).status = (fields ts).status ∧
      ∀ us : List Token, us.Perm ts → fields us = fields ts := by
  refine ⟨?_, status_line ts, fun us hperm => fields_eq_of_perm hperm h⟩
  rw [read, Sample.nonEmpty?_inj, sample_line_eq_iff, hashrate_line_iff h]
  simp only [said_line_iff h]
  constructor
  · rintro ⟨hrate, hcount⟩ before q after hts
    exact ⟨hrate before q after hts, fun c => hcount c before q after hts⟩
  · intro hall
    exact ⟨fun before q after hts => (hall before q after hts).1,
      fun c before q after hts => (hall before q after hts).2 c⟩

/-- Three tokens with a status in front that holds no reading. -/
def connectedTokens : List Token :=
  [.status ⟨"pool connected".toList, by decide, by decide⟩,
    .count .accepted ⟨12, digits 12, denotes_digits 12, by decide⟩,
    .rate ⟨['1'], ['5'], .kilo, ['K', 'H', '/', 's'], by decide,
      List.all_eq_true.1 (by decide), rfl⟩]

theorem read_line_iff_connected : (connectedTokens.map Token.name).Nodup ∧
    read (line connectedTokens) = (fields connectedTokens).nonEmpty? := by
  have hnames : (connectedTokens.map Token.name).Nodup := by decide
  refine ⟨hnames, (read_line_iff hnames).1.2 fun before q after hts => ?_⟩
  have hmem : Token.status q ∈ connectedTokens := by
    rw [hts]
    exact List.mem_append_right before List.mem_cons_self
  have htext : q.text = "pool connected".toList := by
    simp only [connectedTokens, List.mem_cons, Token.status.injEq, reduceCtorEq, List.not_mem_nil,
      or_false] at hmem
    rw [hmem]
  have hrate : search hashrate "pool connected".toList = none := by decide
  have hcount (c : Counter) : search (counter c.word) "pool connected".toList = none := by
    cases c <;> decide
  rw [htext, hrate]
  exact ⟨fun _ hfound => absurd rfl hfound, fun c _ hfound => absurd (hcount c) hfound⟩

/-- A status whose text reads like a counter. -/
def countingStatus : StatusText := ⟨"accepted=3".toList, by decide, by decide⟩

theorem not_always_fields : ¬ ∀ ts : List Token, (ts.map Token.name).Nodup →
    read (line ts) = (fields ts).nonEmpty? := by
  intro hall
  have hsame := Sample.nonEmpty?_inj.1 (hall [.status countingStatus] (by decide))
  have hcount : (sample (line [.status countingStatus])).accepted = some 3 := by decide
  rw [hsame] at hcount
  cases hcount

end lines

end SrbMiner
end RigWarden.Log
