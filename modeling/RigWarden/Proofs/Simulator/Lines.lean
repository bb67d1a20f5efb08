import RigWarden.Log.Simulated
import RigWarden.Proofs.Number.Digits
import RigWarden.Proofs.Text.Scan
import RigWarden.Simulator.Run

/-!
# What the simulator's lines say

The reader of the simulator's log finds the counters of a tick in the line of that tick, whatever
the time and the rate look like, and finds nothing in a last line or in the report of a
configuration that could not be read.
-/

namespace RigWarden

open Text Number

theorem Number.mem_padded {width n : Nat} {c : Char} (h : c ∈ padded width n) :
    isAsciiDigit c = true := by
  rcases List.mem_append.1 h with h | h
  · rw [List.eq_of_mem_replicate h]
    decide
  · exact isAsciiDigit_of_mem_digits h

theorem Number.toList_decimal (n : Nat) : (decimal n).toList = digits n := String.toList_ofList

/-- The marks that stand among the digits of times and rates. -/
def Simulator.marks : Chars := ['-', '+', ' ', ':', '.', 'i', 'n', 'f']

namespace Simulator

/-- A text of digits and marks. -/
def Figured (cs : Chars) : Prop := ∀ c ∈ cs, isAsciiDigit c = true ∨ c ∈ marks

theorem Figured.append {as bs : Chars} (ha : Figured as) (hb : Figured bs) : Figured (as ++ bs) :=
  fun c hc => (List.mem_append.1 hc).elim (ha c) (hb c)

theorem Figured.cons {c : Char} {cs : Chars} (hc : c ∈ marks) (h : Figured cs) : Figured (c :: cs) :=
  List.forall_mem_cons.2 ⟨.inr hc, h⟩

theorem figured_padded (width n : Nat) : Figured (padded width n) := fun _ hc => .inl (mem_padded hc)

theorem figured_yearText (year : Int) : Figured (yearText year) := by
  rw [yearText]
  split
  · exact figured_padded _ _
  · split
    · exact (figured_padded _ _).cons (by decide)
    · exact (figured_padded _ _).cons (by decide)

theorem figured_logText (now : Instant) : Figured now.logText.toList := by
  rw [Instant.logText, String.toList_ofList]
  simp only [List.append_assoc, List.cons_append]
  refine (figured_yearText _).append (.cons (by decide) ?_)
  refine (figured_padded _ _).append (.cons (by decide) ?_)
  refine (figured_padded _ _).append (.cons (by decide) ?_)
  refine (figured_padded _ _).append (.cons (by decide) ?_)
  exact (figured_padded _ _).append (.cons (by decide) (figured_padded _ _))

theorem figured_placePoint (places units : Nat) : Figured (placePoint places units) := by
  have hdigits := figured_padded (places + 1) units
  rw [placePoint]
  split
  · exact hdigits
  · refine Figured.append (fun c hc => hdigits c (List.mem_of_mem_take hc)) (.cons (by decide) ?_)
    exact fun c hc => hdigits c (List.mem_of_mem_drop hc)

/-- A rate is written in digits and marks, or as the text of no number. -/
theorem figured_fixed (places : Nat) (x : Float) :
    fixed places x = "NaN" ∨ Figured (fixed places x).toList := by
  rw [fixed]
  split
  · exact .inl rfl
  · have hbody : Figured (if x.isInf then "inf" else
        String.ofList (placePoint places (fixedUnits places x))).toList := by
      split
      · exact .cons (by decide) (.cons (by decide) (.cons (by decide) nofun))
      · rw [String.toList_ofList]
        exact figured_placePoint _ _
    right
    dsimp only
    split
    · rw [String.toList_append]
      exact .cons (by decide) hbody
    · exact hbody

/-! The counters -/

open Log.Simulated

theorem counters_of_ne {c : Char} (h : c ≠ 'a') (cs : Chars) : counters (c :: cs) = none := by
  simp [counters, dropStart?, Ne.symm h]

theorem Figured.silent {cs : Chars} (h : Figured cs) : Silent counters cs := by
  refine silent_of_forall fun c hc => counters_of_ne ?_
  rintro rfl
  exact absurd (h _ hc) (by decide)

/-- In the text of no number, the letter that could begin the counters stands inside a word. -/
theorem silent_fixed (places : Nat) (x : Float) : Silent counters (fixed places x).toList := by
  obtain h | h := figured_fixed places x
  · have hN : isWord 'N' = true := by decide
    have ha : isWord 'a' = true := by decide
    have hfirst : Silent counters ['N'] := silent_singleton (counters_of_ne (by decide))
    intro afterWord cs
    rw [h]
    change searchFrom counters afterWord (['N'] ++ 'a' :: 'N' :: cs) = _
    rw [hfirst, List.foldl_cons, List.foldl_nil, hN]
    change searchFrom counters (isWord 'a') ('N' :: cs) = _
    rw [ha]
    rfl
  · exact h.silent

theorem isDigit_of_mem_digits {n : Nat} : ∀ c ∈ digits n, isDigit c = true := fun _ hc =>
  isDigit_of_isAsciiDigit (isAsciiDigit_of_mem_digits hc)

/-- The end of the line of a tick. -/
def counts (a r : Nat) : Chars :=
  ['a', 'c', 'c', 'e', 'p', 't', 'e', 'd', '='] ++
    (digits a ++ ' ' :: (['r', 'e', 'j', 'e', 'c', 't', 'e', 'd', '='] ++ digits r))

theorem counters_counts (a r : Nat) : counters (counts a r) = some ((digits a, digits r), []) := by
  have haccepted (cs : Chars) : run1 isDigit (digits a ++ ' ' :: cs) = some (digits a, ' ' :: cs) :=
    run1_append (digits_ne_nil a) isDigit_of_mem_digits (by decide) cs
  have hskip (cs : Chars) : skip1 isBlank (' ' :: 'r' :: cs) = some ('r' :: cs) := by
    have hblank : ∀ c ∈ [' '], isBlank c = true := List.forall_mem_singleton.2 (by decide)
    have hrun : run1 isBlank ([' '] ++ 'r' :: cs) = some ([' '], 'r' :: cs) :=
      run1_append (List.cons_ne_nil _ _) hblank (by decide) cs
    exact congrArg (Option.map Prod.snd) hrun
  have hrejected : run1 isDigit (digits r) = some (digits r, []) :=
    run1_all (digits_ne_nil r) isDigit_of_mem_digits
  rw [counts, counters, dropStart?_append]
  simp only [Option.bind_eq_bind, Option.bind_some, haccepted, List.cons_append, hskip]
  rw [List.nil_append]
  simp only [dropStart?, if_true, Option.bind_some, hrejected]
  rfl

theorem count?_digits {n : Nat} (h : n < limit64) : count? (digits n) = some n := by
  rw [count?, unsigned?, if_pos ⟨digits_ne_nil n, all_digits n, by rwa [ofDigits_digits]⟩,
    ofDigits_digits]
  intro rest he
  have hplus : isAsciiDigit '+' = true := isAsciiDigit_of_mem_digits (he ▸ List.mem_cons_self)
  exact absurd hplus (by decide)

/-- What stands in front of the counters in the line of a tick. -/
def front (now : Instant) (rate : Float) : Chars :=
  '[' :: now.logText.toList ++ "] Speed: ".toList ++ (fixed 2 rate).toList ++ " H/s |".toList

theorem toList_speedLine (now : Instant) (c : Counters) :
    (speedLine now c).toList = front now c.hashrate ++ ' ' :: counts c.accepted c.rejected := by
  simp only [speedLine, String.toList_append, toList_decimal, front, counts]
  simp

theorem silent_front (now : Instant) (rate : Float) : Silent counters (front now rate) := by
  have hplain {cs : Chars} (h : 'a' ∉ cs) : Silent counters cs :=
    silent_of_forall fun c hc => counters_of_ne (ne_of_mem_of_not_mem hc h)
  have hbracket : Silent counters ['['] := hplain (by decide)
  have hopen : Silent counters ('[' :: now.logText.toList) :=
    hbracket.append (figured_logText now).silent
  have hspeed : Silent counters "] Speed: ".toList := hplain (by decide)
  have hunit : Silent counters " H/s |".toList := hplain (by decide)
  exact ((hopen.append hspeed).append (silent_fixed 2 rate)).append hunit

theorem search_speedLine (now : Instant) (c : Counters) :
    search counters (speedLine now c).toList = some (digits c.accepted, digits c.rejected) := by
  rw [toList_speedLine,
    (silent_front now c.hashrate).search_blank (by decide) (counters_of_ne (by decide))]
  exact search_eq_some (counters_counts _ _) nofun

/-- The line of a tick tells the counters of that tick. -/
theorem read_speedLine (now : Instant) {c : Counters} (ha : c.accepted < limit64)
    (hr : c.rejected < limit64) :
    ∃ s, read (speedLine now c).toList = some s ∧ s.accepted = some c.accepted ∧
      s.rejected = some c.rejected := by
  have haccepted : (sample (speedLine now c).toList).accepted = some c.accepted := by
    simp only [sample, search_speedLine, Option.bind_some, count?_digits ha]
  have hrejected : (sample (speedLine now c).toList).rejected = some c.rejected := by
    simp only [sample, search_speedLine, Option.bind_some, count?_digits hr]
  refine ⟨_, (Log.Sample.nonEmpty?_eq_some_iff _ _).2 ⟨?_, rfl⟩, haccepted, hrejected⟩
  simp [Log.Sample.isEmpty, haccepted]

/-! Lines that say nothing -/

theorem read_eq_none {cs : Chars} (hspeed : search speed cs = none)
    (hcounters : search counters cs = none) : read cs = none := by
  simp [Log.Simulated.read, sample, hspeed, hcounters, Log.Sample.nonEmpty?, Log.Sample.isEmpty]

theorem search_counters_eq_none {cs : Chars} (h : '=' ∉ cs) : search counters cs = none := by
  refine searchFrom_eq_none (fun t ht => ?_) false
  have hdrop : dropStart? ['a', 'c', 'c', 'e', 'p', 't', 'e', 'd', '='] t = none := by
    refine Option.eq_none_iff_forall_ne_some.2 fun rest hrest => h (ht.subset ?_)
    rw [eq_append_of_dropStart? hrest]
    simp
  simp [counters, hdrop]

theorem eq_of_foldsTo_colon {c : Char} (h : foldsTo ':' c = true) : c = ':' := by
  have hlower : lower c = ':' := by simpa [foldsTo] using h
  rw [lower] at hlower
  split at hlower
  · next hc =>
    have hcapital : ∀ n < 26, Char.ofNat (n + 65 + 32) ≠ ':' := by decide
    have hsub : c.toNat = (c.toNat - 65) + 65 := by omega
    rw [hsub] at hlower
    exact absurd hlower (hcapital _ (by omega))
  · exact hlower

theorem search_speed_eq_none {cs : Chars} (h : ':' ∉ cs) : search speed cs = none := by
  refine searchFrom_eq_none (fun t ht => ?_) false
  have hfold : foldWord ['s', 'p', 'e', 'e', 'd', ':'] t = none := by
    refine Option.eq_none_iff_forall_ne_some.2 fun rest hrest => ?_
    obtain ⟨c, hc, hcolon⟩ := exists_of_foldWord (w := ':') hrest (by decide)
    exact h (ht.subset (eq_of_foldsTo_colon hcolon ▸ hc))
  simp [speed, hfold]

theorem toList_around (a b : String) (n : Nat) :
    (a ++ decimal n ++ b).toList = a.toList ++ digits n ++ b.toList := by
  rw [String.toList_append, String.toList_append, toList_decimal]

theorem notMem_around {c : Char} (hdigit : isAsciiDigit c = false) {a b : String}
    (ha : c ∉ a.toList) (hb : c ∉ b.toList) (n : Nat) : c ∉ (a ++ decimal n ++ b).toList := by
  have hn : c ∉ digits n := fun hc => by
    rw [isAsciiDigit_of_mem_digits hc] at hdigit
    cases hdigit
  simp only [toList_around, List.mem_append, not_or]
  exact ⟨⟨ha, hn⟩, hb⟩

theorem notMem_lastLine {c : Char} (hdigit : isAsciiDigit c = false)
    (hopen : c ∉ "Simulated miner finished after ".toList) (hclose : c ∉ "s".toList)
    (elapsed : Duration) : c ∉ (lastLine elapsed).toList :=
  notMem_around hdigit hopen hclose elapsed.secs

theorem read_lastLine (elapsed : Duration) : Log.Simulated.read (lastLine elapsed).toList = none :=
  read_eq_none (search_speed_eq_none (notMem_lastLine (by decide) (by decide) (by decide) elapsed))
    (search_counters_eq_none (notMem_lastLine (by decide) (by decide) (by decide) elapsed))

/-- The line of a run that could not read its configuration. -/
def unreadable (cause : SystemError) : String :=
  "simulator error: cannot read config: " ++ cause.text

/-- A known cause, as the simulator shows it, holds no rate and no counters, and stays on its line. -/
theorem unreadable_known {cause : SystemError} (h : ∀ text, cause ≠ .other text) :
    search speed (unreadable cause).toList = none ∧ '=' ∉ (unreadable cause).toList ∧
      (unreadable cause).toList ≠ [] ∧ '\n' ∉ (unreadable cause).toList ∧
      (unreadable cause).toList.getLast? ≠ some '\r' := by
  cases cause
  case other text => exact absurd rfl (h text)
  all_goals decide +kernel

theorem read_unreadable {cause : SystemError} (h : ∀ text, cause ≠ .other text) :
    Log.Simulated.read (unreadable cause).toList = none :=
  read_eq_none (unreadable_known h).1 (search_counters_eq_none (unreadable_known h).2.1)

end Simulator
end RigWarden
