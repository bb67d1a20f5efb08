import Mathlib.Algebra.GroupWithZero.Nat
import Mathlib.Data.List.Induction
import RigWarden.Log.Tally

/-!
# Share totals over several workers

While one worker writes, a total is its base or the largest counter on top of the base, whichever
is more; the next worker starts from that total. So the totals are sums of largest counters, one for
each worker, and the last reading shows them.
-/

namespace RigWarden

open Text

/-- What a reading says apart from its time. -/
structure Log.Figures where
  hashrate : Float
  accepted : Nat
  rejected : Nat
  status : Option String

def Reading.figures (r : Reading) : Log.Figures := ⟨r.hashrate, r.accepted, r.rejected, r.status⟩

namespace Log

inductive Counter where
  | accepted
  | rejected
  deriving Repr, DecidableEq

namespace Counter

def said : Counter → Sample → Option Nat
  | accepted => Sample.accepted
  | rejected => Sample.rejected

def shown : Counter → Figures → Nat
  | accepted => Figures.accepted
  | rejected => Figures.rejected

def ofLine (c : Counter) (b : Backend) (line : Chars) : Option Nat := (b.readLine line).bind c.said

/-- The largest count in some lines, 0 if there is none. -/
def largest (c : Counter) (b : Backend) (lines : List Chars) : Nat :=
  (lines.filterMap (c.ofLine b)).foldr max 0

/-- The total that the last report shows. -/
def last (c : Counter) (fs : List Figures) : Nat := (fs.getLast?.map c.shown).getD 0

@[simp] theorem largest_nil (c : Counter) (b : Backend) : c.largest b [] = 0 := rfl

theorem largest_cons (c : Counter) (b : Backend) (line : Chars) (lines : List Chars) :
    c.largest b (line :: lines) = max ((c.ofLine b line).getD 0) (c.largest b lines) := by
  cases h : c.ofLine b line <;> simp [largest, h]

end Counter

namespace Tally

def total (t : Tally) : Counter → Nat
  | .accepted => t.accepted
  | .rejected => t.rejected

def base (t : Tally) : Counter → Nat
  | .accepted => t.baseAccepted
  | .rejected => t.baseRejected

variable (t : Tally) (c : Counter)

theorem total_add (s : Sample) : (t.add s).total c = raise (t.total c) (t.base c) (c.said s) := by
  cases c <;> rfl

@[simp] theorem base_add (s : Sample) : (t.add s).base c = t.base c := by
  cases c <;> rfl

@[simp] theorem total_restarted : t.restarted.total c = t.total c := by
  cases c <;> rfl

@[simp] theorem base_restarted : t.restarted.base c = t.total c := by
  cases c <;> rfl

@[simp] theorem total_new : ({} : Tally).total c = 0 := by
  cases c <;> rfl

theorem raise_eq_max {total base : Nat} (h : base ≤ total) (n : Option Nat) :
    raise total base n = max total (base + n.getD 0) := by
  cases n with
  | none => simp [raise, h]
  | some n => rfl

def figures (t : Tally) (status : Option String) : Figures :=
  ⟨t.hashrate, t.accepted, t.rejected, status⟩

theorem shown_figures (status : Option String) : c.shown (t.figures status) = t.total c := by
  cases c <;> rfl

/-- What some lines make the tally say and become, at whatever time. -/
def follow (b : Backend) (t : Tally) : List Chars → List Figures × Tally
  | [] => ([], t)
  | line :: lines =>
    match b.readLine line with
    | none => t.follow b lines
    | some s =>
      let (fs, t') := (t.add s).follow b lines
      ((t.add s).figures s.status :: fs, t')

variable (b : Backend)

@[simp] theorem follow_nil : t.follow b [] = ([], t) := rfl

theorem follow_cons_none {line : Chars} (h : b.readLine line = none) (lines : List Chars) :
    t.follow b (line :: lines) = t.follow b lines := by
  simp only [follow, h]

theorem follow_cons_some {line : Chars} {s : Sample} (h : b.readLine line = some s)
    (lines : List Chars) :
    t.follow b (line :: lines) =
      ((t.add s).figures s.status :: ((t.add s).follow b lines).1,
        ((t.add s).follow b lines).2) := by
  simp only [follow, h]

theorem follow_append (lines more : List Chars) :
    t.follow b (lines ++ more) =
      ((t.follow b lines).1 ++ ((t.follow b lines).2.follow b more).1,
        ((t.follow b lines).2.follow b more).2) := by
  induction lines generalizing t with
  | nil => rfl
  | cons line lines ih =>
    cases h : b.readLine line with
    | none => rw [List.cons_append, follow_cons_none t b h, ih, follow_cons_none t b h]
    | some s =>
      rw [List.cons_append, follow_cons_some t b h, ih, follow_cons_some t b h]
      rfl

/-- The time of reading shows in nothing but the time of the readings. -/
theorem ingestAll_eq_follow (now : Instant) (lines : List Chars) :
    ((t.ingestAll b now lines).1.map Reading.figures, (t.ingestAll b now lines).2) =
      t.follow b lines := by
  induction lines generalizing t with
  | nil => rfl
  | cons line lines ih =>
    cases h : b.readLine line with
    | none =>
      rw [follow_cons_none t b h, ← ih]
      simp [ingestAll, ingest, h]
    | some s =>
      rw [follow_cons_some t b h, ← ih]
      simp only [ingestAll, ingest, h]
      rfl

theorem total_follow (h : t.base c ≤ t.total c) (lines : List Chars) :
    (t.follow b lines).2.total c = max (t.total c) (t.base c + c.largest b lines) := by
  induction lines generalizing t with
  | nil => simp [h]
  | cons line lines ih =>
    cases hl : b.readLine line with
    | none =>
      rw [follow_cons_none t b hl, ih t h, Counter.largest_cons]
      simp [Counter.ofLine, hl]
    | some s =>
      have ht := (t.total_add c s).trans (raise_eq_max h (c.said s))
      have hle : (t.add s).base c ≤ (t.add s).total c := by
        rw [base_add, ht]
        exact Nat.le_trans h (Nat.le_max_left _ _)
      rw [follow_cons_some t b hl, ih _ hle, base_add, ht, Counter.largest_cons]
      simp [Counter.ofLine, hl, Nat.add_max_add_left]

end Tally

/-- What the lines of successive workers make a tally say and become. -/
def followEach (b : Backend) (stretches : List (List Chars)) : List Figures × Tally :=
  stretches.foldl
    (fun r lines => (r.1 ++ (r.2.restarted.follow b lines).1, (r.2.restarted.follow b lines).2))
    ([], {})

section followEach

variable (b : Backend) (stretches : List (List Chars))

theorem followEach_snoc (lines : List Chars) :
    followEach b (stretches ++ [lines]) =
      ((followEach b stretches).1 ++ ((followEach b stretches).2.restarted.follow b lines).1,
        ((followEach b stretches).2.restarted.follow b lines).2) := by
  simp [followEach]

theorem followEach_snoc_append (lines more : List Chars) :
    followEach b (stretches ++ [lines ++ more]) =
      ((followEach b (stretches ++ [lines])).1 ++
          ((followEach b (stretches ++ [lines])).2.follow b more).1,
        ((followEach b (stretches ++ [lines])).2.follow b more).2) := by
  simp [followEach_snoc, Tally.follow_append]

theorem followEach_snoc_nil :
    followEach b (stretches ++ [[]]) =
      ((followEach b stretches).1, (followEach b stretches).2.restarted) := by
  simp [followEach_snoc]

/-- The totals are sums over the workers. -/
theorem total_followEach (c : Counter) :
    (followEach b stretches).2.total c = (stretches.map (c.largest b)).sum := by
  induction stretches using List.reverseRecOn with
  | nil => exact Tally.total_new c
  | append_singleton stretches lines ih =>
    rw [followEach_snoc, Tally.total_follow _ _ _ (by simp), Tally.total_restarted,
      Tally.base_restarted, ih, List.map_append, List.sum_append]
    simp

end followEach

end Log
end RigWarden
