import Mathlib.Data.List.Forall2
import RigWarden.Proofs.Log.Lines

/-!
# Following a log that is replaced

A log is appended to, and now and then something shorter takes its place. A tailer looks at it
between these changes, and some of its looks fail. What the log holds from one replacement to the
next is a generation. The tailer gives out the lines of every generation once and in order, wherever
its looks have cut the bytes.
-/

namespace RigWarden.Log

open Text

/-- Some bytes are lines, each with the line feed that ends it, and a rest without one. -/
structure Divided (bs : Bytes) (lines : List Bytes) (rest : Bytes) : Prop where
  bytes : bs = lines.flatMap (· ++ [lineFeed]) ++ rest
  lines : ∀ line ∈ lines, lineFeed ∉ line
  rest : lineFeed ∉ rest

theorem Divided.cons_lineFeed {bs : Bytes} {lines : List Bytes} {rest : Bytes}
    (h : Divided bs lines rest) : Divided (lineFeed :: bs) ([] :: lines) rest :=
  ⟨by simp [h.bytes], by simpa using h.lines, h.rest⟩

theorem Divided.cons {b : UInt8} (hb : b ≠ lineFeed) {bs : Bytes} {lines : List Bytes}
    {rest : Bytes} (h : Divided bs lines rest) : ∃ lines rest, Divided (b :: bs) lines rest := by
  cases lines with
  | nil => exact ⟨[], b :: rest, by simp [h.bytes], by simp, by simp [Ne.symm hb, h.rest]⟩
  | cons line lines =>
    have hlines := List.forall_mem_cons.1 h.lines
    refine ⟨(b :: line) :: lines, rest, by simp [h.bytes], ?_, h.rest⟩
    exact List.forall_mem_cons.2 ⟨by simp [Ne.symm hb, hlines.1], hlines.2⟩

theorem exists_divided (bs : Bytes) : ∃ lines rest, Divided bs lines rest := by
  induction bs with
  | nil => exact ⟨[], [], rfl, by simp, by simp⟩
  | cons b bs ih =>
    obtain ⟨lines, rest, h⟩ := ih
    by_cases hb : b = lineFeed
    · subst hb
      exact ⟨_, _, h.cons_lineFeed⟩
    · exact h.cons hb

theorem Divided.splitOn {bs : Bytes} {lines : List Bytes} {rest : Bytes}
    (h : Divided bs lines rest) : splitOn lineFeed bs = lines ++ [rest] := by
  obtain ⟨rfl, hlines, hrest⟩ := h
  induction lines with
  | nil => exact splitOn_of_notMem hrest
  | cons line lines ih =>
    obtain ⟨hline, hlines⟩ := List.forall_mem_cons.1 hlines
    have hsplit := splitOn_append_cons hline (lines.flatMap (· ++ [lineFeed]) ++ rest)
    rw [ih hlines] at hsplit
    simpa using hsplit

/-- The texts of the lines that end within some bytes, the empty ones left out. -/
def Says (bs : Bytes) (texts : List Chars) : Prop :=
  ∃ lines rest, Divided bs lines rest ∧ texts = (lines.filter (· ≠ [])).map lineText

theorem Divided.completeLines {bs : Bytes} {lines : List Bytes} {rest : Bytes}
    (h : Divided bs lines rest) :
    completeLines bs = (lines.filter (· ≠ [])).map lineText := by
  rw [Log.completeLines, h.splitOn, List.dropLast_concat]

theorem says_completeLines (bs : Bytes) : Says bs (completeLines bs) := by
  obtain ⟨lines, rest, h⟩ := exists_divided bs
  exact ⟨lines, rest, h, h.completeLines⟩

theorem Says.eq {bs : Bytes} {texts : List Chars} (h : Says bs texts) :
    texts = completeLines bs := by
  obtain ⟨lines, rest, hd, rfl⟩ := h
  exact hd.completeLines.symm

theorem eq_of_forall₂_says {gens : List Bytes} {texts : List (List Chars)}
    (h : List.Forall₂ Says gens texts) : texts = gens.map completeLines := by
  induction h with
  | nil => rfl
  | cons hfirst _ ih => rw [ih, hfirst.eq, List.map_cons]

theorem completeLines_append (as bs : Bytes) :
    completeLines (as ++ bs) = completeLines as ++ completeLines (unfinished as ++ bs) := by
  rw [completeLines_eq, rawLines_append, List.map_append]
  rfl

/-- What a look at a log meets. -/
inductive Sight where
  | plain
  /-- Not even the length of the log can be asked for. -/
  | hidden (cause : SystemError)
  | unreadable (cause : SystemError)

def Sight.view (log : Option Bytes) : Sight → View
  | .hidden cause => .hidden cause
  | .plain => log.elim .absent .content
  | .unreadable cause => log.elim .absent fun bs => .unreadable bs.length cause

inductive Origin where
  | first
  | last (sight : Sight)

def Origin.tailer (log : Option Bytes) : Origin → Tailer
  | .first => .fromStart
  | .last sight => .fromEnd (sight.view log)

inductive Standing where
  /-- Nothing has changed since the last successful look. -/
  | settled
  | behind
  /-- Something shorter is there since the last successful look. -/
  | replaced
  deriving DecidableEq

/-- A log that may not be there yet, the tailer that looks at it, and what has become of both. -/
structure Follower where
  log : Option Bytes
  tailer : Tailer
  /-- All lines given out so far. -/
  lines : List Chars := []
  /-- The generations that are over, each from where its reading began. -/
  ended : List Bytes := []
  /-- Where the reading of the present generation begins. -/
  offset : Nat
  /-- The present generation from there on, as it was at the last successful look. -/
  seen : Bytes := []
  standing : Standing := .behind

namespace Tailer

theorem rewind_of_le {t : Tailer} {n : Nat} (h : t.position ≤ n) : t.rewind n = t :=
  if_neg (Nat.not_lt.2 h)

theorem rewind_of_lt {t : Tailer} {n : Nat} (h : n < t.position) : t.rewind n = .fromStart :=
  if_pos h

theorem position_rewind_le (t : Tailer) (n : Nat) : (t.rewind n).position ≤ n := by
  unfold rewind
  split
  · exact Nat.zero_le n
  · next h => exact Nat.le_of_not_lt h

theorem poll_rewind (t : Tailer) (bs : Bytes) :
    (t.rewind bs.length).poll (.content bs) = t.poll (.content bs) := by
  simp only [poll, rewind_of_le (t.position_rewind_le bs.length)]

end Tailer

namespace Follower

inductive Step where
  | append (bs : Bytes)
  | replace (bs : Bytes)
  | poll (sight : Sight)

def content (f : Follower) : Bytes := f.log.getD []

/-- The present generation, from where its reading begins. -/
def generation (f : Follower) : Bytes := f.content.drop f.offset

/-- What nobody has come to see before something else takes its place is no generation. -/
def endGeneration (f : Follower) : List Bytes :=
  match f.standing with
  | .replaced => f.ended
  | .settled | .behind => f.ended ++ [f.generation]

def step (f : Follower) : Step → Follower
  | .append bs => { f with log := some (f.content ++ bs), standing := .behind }
  | .replace bs =>
    { f with
      log := some bs
      ended := f.endGeneration
      offset := 0
      seen := []
      standing := .replaced }
  | .poll sight =>
    match f.tailer.poll (sight.view f.log) with
    | (.ok lines, tailer) =>
      { f with
        tailer := tailer
        lines := f.lines ++ lines
        seen := f.generation
        standing := .settled }
    | (.error _, tailer) => { f with tailer := tailer }

def run (f : Follower) (steps : List Step) : Follower := steps.foldl step f

@[simp] theorem run_nil (f : Follower) : f.run [] = f := rfl

@[simp] theorem run_cons (f : Follower) (a : Step) (steps : List Step) :
    f.run (a :: steps) = (f.step a).run steps := rfl

def start (log : Option Bytes) (origin : Origin) : Follower :=
  { log := log, tailer := origin.tailer log, offset := (origin.tailer log).position }

/-- The log is replaced by something shorter, when nothing was added since the last successful look;
before the next such look nothing is added to what replaced it. -/
def Allowed (f : Follower) : Step → Prop
  | .append _ => f.standing ≠ .replaced
  | .replace bs => f.standing ≠ .behind ∧ bs.length < f.content.length
  | .poll _ => True

def Lawful (f : Follower) : List Step → Prop
  | [] => True
  | a :: steps => f.Allowed a ∧ (f.step a).Lawful steps

instance (f : Follower) : DecidablePred f.Allowed
  | .append _ => inferInstanceAs (Decidable (_ ≠ _))
  | .replace _ => inferInstanceAs (Decidable (_ ∧ _))
  | .poll _ => .isTrue trivial

instance decidableLawful : (f : Follower) → (steps : List Step) → Decidable (f.Lawful steps)
  | _, [] => .isTrue trivial
  | f, a :: steps => @instDecidableAnd _ _ _ (decidableLawful (f.step a) steps)

/-- How the tailer stands to a log whose bytes it has read up to some place. -/
structure Placed (f : Follower) (before unread : Bytes) : Prop where
  content : f.content = before ++ (f.seen ++ unread)
  offset : before.length = f.offset
  absent : f.log = none → f.tailer = .fromStart
  settled : f.standing = .settled → unread = []
  reading : f.standing ≠ .replaced →
    f.tailer = ⟨(before ++ f.seen).length, unfinished f.seen⟩
  replaced : f.standing = .replaced →
    before = [] ∧ f.seen = [] ∧ (f.tailer = .fromStart ∨ f.content.length < f.tailer.position)

def Told (f : Follower) : Prop := f.lines = (f.ended ++ [f.seen]).flatMap completeLines

/-- What was given out is what was seen, and the tailer stands where that ends. -/
def Kept (f : Follower) : Prop := f.Told ∧ ∃ before unread, f.Placed before unread

namespace Placed

variable {f : Follower} {before unread : Bytes}

theorem rewind (h : f.Placed before unread) :
    f.tailer.rewind f.content.length = ⟨(before ++ f.seen).length, unfinished f.seen⟩ := by
  by_cases hs : f.standing = .replaced
  · obtain ⟨rfl, hseen, ht | ht⟩ := h.replaced hs
    · rw [ht, hseen, Tailer.rewind_of_le (Nat.zero_le _)]
      rfl
    · rw [Tailer.rewind_of_lt ht, hseen]
      rfl
  · rw [h.reading hs, Tailer.rewind_of_le]
    simp [h.content]

theorem generation (h : f.Placed before unread) : f.generation = f.seen ++ unread := by
  rw [Follower.generation, h.content, ← h.offset, List.drop_left]

theorem endGeneration (h : f.Placed before unread) (hb : f.standing ≠ .behind) :
    (f.endGeneration ++ [[]]).flatMap completeLines =
      (f.ended ++ [f.seen]).flatMap completeLines := by
  cases hs : f.standing with
  | settled => simp [Follower.endGeneration, hs, h.generation, h.settled hs]
  | behind => exact absurd hs hb
  | replaced => simp [Follower.endGeneration, hs, (h.replaced hs).2.1]

theorem append (h : f.Placed before unread) {bs : Bytes} (ha : f.Allowed (.append bs)) :
    (f.step (.append bs)).Placed before (unread ++ bs) where
  content := by
    change f.content ++ bs = _
    rw [h.content]
    simp [step]
  offset := h.offset
  absent := nofun
  settled := nofun
  reading := fun _ => h.reading ha
  replaced := nofun

theorem replace (h : f.Placed before unread) {bs : Bytes} (ha : f.Allowed (.replace bs)) :
    (f.step (.replace bs)).Placed [] bs where
  content := rfl
  offset := rfl
  absent := nofun
  settled := nofun
  reading := fun hn => absurd rfl hn
  replaced := fun _ => by
    obtain ⟨hs, hlt⟩ := ha
    refine ⟨rfl, rfl, ?_⟩
    by_cases hr : f.standing = .replaced
    · exact (h.replaced hr).2.2.imp_right (Nat.lt_trans hlt)
    · have hsettled : f.standing = .settled := by cases he : f.standing <;> simp_all
      have hc := h.content
      rw [h.settled hsettled, List.append_nil] at hc
      have hp : f.tailer.position = f.content.length := by rw [h.reading hr, hc]
      exact .inr (hp ▸ hlt)

/-- A look that fails leaves the tailer where it was, or sends it back to where it has to go on. -/
theorem poll_error (h : f.Placed before unread) {sight : Sight} {cause : SystemError} {t : Tailer}
    (hp : f.tailer.poll (sight.view f.log) = (.error cause, t))
    (ht : t = f.tailer ∨ t = f.tailer.rewind f.content.length) (htold : f.Told) :
    (f.step (.poll sight)).Kept := by
  have hstep : f.step (.poll sight) = { f with tailer := t } := by simp only [step, hp]
  rw [hstep]
  refine ⟨htold, before, unread, ?_⟩
  rcases ht with rfl | rfl
  · exact h
  · refine ⟨h.content, h.offset, fun hn => ?_, h.settled, fun _ => h.rewind, fun hs => ?_⟩
    · change f.tailer.rewind _ = _
      rw [h.absent hn, Tailer.rewind_of_le (Nat.zero_le _)]
    · obtain ⟨hb, hseen, -⟩ := h.replaced hs
      refine ⟨hb, hseen, .inl ?_⟩
      change f.tailer.rewind _ = _
      rw [h.rewind, hb, hseen]
      rfl

theorem poll_ok (h : f.Placed before unread) {sight : Sight} {lines : List Chars} {t : Tailer}
    (hp : f.tailer.poll (sight.view f.log) = (.ok lines, t))
    (hl : lines = completeLines (unfinished f.seen ++ unread))
    (ht : t = ⟨f.content.length, unfinished f.generation⟩) (ha : f.log = none → t = .fromStart)
    (htold : f.Told) : (f.step (.poll sight)).Kept := by
  have hstep : f.step (.poll sight) =
      { f with
        tailer := t
        lines := f.lines ++ lines
        seen := f.generation
        standing := .settled } := by simp only [step, hp]
  have hc : f.content = before ++ f.generation := by rw [h.generation, ← h.content]
  rw [hstep]
  refine ⟨?_, before, [], ?_, h.offset, ha, fun _ => rfl, fun _ => ?_, nofun⟩
  · change f.lines ++ lines = (f.ended ++ [f.generation]).flatMap completeLines
    rw [htold, hl, h.generation, List.flatMap_append, List.flatMap_append, List.flatMap_singleton,
      List.flatMap_singleton, completeLines_append f.seen, List.append_assoc]
  · rw [List.append_nil]
    exact hc
  · rw [ht, hc]

theorem poll_absent (h : f.Placed before unread) (hlog : f.log = none) {sight : Sight}
    (hv : sight.view f.log = .absent) (htold : f.Told) : (f.step (.poll sight)).Kept := by
  have hc : f.content = [] := by rw [Follower.content, hlog]; rfl
  obtain ⟨rfl, hnil⟩ := List.append_eq_nil_iff.1 (h.content.symm.trans hc)
  obtain ⟨hseen, rfl⟩ := List.append_eq_nil_iff.1 hnil
  have hp : f.tailer.poll (sight.view f.log) = (.ok [], f.tailer) := by rw [hv]; rfl
  refine h.poll_ok hp (by simp [hseen]) ?_ h.absent htold
  rw [h.absent hlog, hc, h.generation, hseen]
  rfl

theorem poll_plain (h : f.Placed before unread) {bs : Bytes} (hlog : f.log = some bs)
    (htold : f.Told) : (f.step (.poll .plain)).Kept := by
  have hc : f.content = bs := by rw [Follower.content, hlog]; rfl
  have hbs : bs = (before ++ f.seen) ++ unread := by rw [← hc, h.content, List.append_assoc]
  have hr := h.rewind
  rw [hc] at hr
  have hp : f.tailer.poll (Sight.plain.view f.log) =
      (.ok (completeLines (unfinished f.seen ++ unread)),
        ⟨f.content.length, unfinished (unfinished f.seen ++ unread)⟩) := by
    rw [hlog]
    change f.tailer.poll (.content bs) = _
    rw [← Tailer.poll_rewind, hr, hc, hbs]
    exact Tailer.poll_append rfl unread
  refine h.poll_ok hp rfl ?_ (fun hn => by simp [hlog] at hn) htold
  rw [h.generation, unfinished_append f.seen]

theorem poll_unreadable (h : f.Placed before unread) {bs : Bytes} (hlog : f.log = some bs)
    (cause : SystemError) (htold : f.Told) : (f.step (.poll (.unreadable cause))).Kept := by
  have hc : f.content = bs := by rw [Follower.content, hlog]; rfl
  have hsome : f.log ≠ none := by simp [hlog]
  have hp : f.tailer.poll ((Sight.unreadable cause).view f.log) =
      if f.content.length = (before ++ f.seen).length then
        (.ok [], f.tailer.rewind f.content.length)
      else (.error cause, f.tailer.rewind f.content.length) := by
    rw [hlog, hc]
    change f.tailer.poll (.unreadable bs.length cause) = _
    simp only [Tailer.poll, ← hc, h.rewind]
  split at hp
  next heq =>
    have hu : unread = [] := by
      have hlen := congrArg List.length h.content
      rw [heq] at hlen
      simpa using hlen
    refine h.poll_ok hp ?_ ?_ (absurd · hsome) htold
    · rw [hu, List.append_nil, completeLines_eq,
        rawLines_of_notMem (lineFeed_notMem_unfinished f.seen)]
      rfl
    · rw [h.rewind, h.generation, hu, List.append_nil, heq]
  next => exact h.poll_error hp (.inr rfl) htold

theorem poll (h : f.Placed before unread) (htold : f.Told) (sight : Sight) :
    (f.step (.poll sight)).Kept := by
  cases sight with
  | hidden cause => exact h.poll_error rfl (.inl rfl) htold
  | plain =>
    cases hlog : f.log with
    | none => exact h.poll_absent hlog (by rw [hlog]; rfl) htold
    | some bs => exact h.poll_plain hlog htold
  | unreadable cause =>
    cases hlog : f.log with
    | none => exact h.poll_absent hlog (by rw [hlog]; rfl) htold
    | some bs => exact h.poll_unreadable hlog cause htold

end Placed

theorem Kept.step {f : Follower} (h : f.Kept) {a : Step} (ha : f.Allowed a) : (f.step a).Kept := by
  obtain ⟨htold, before, unread, hp⟩ := h
  cases a with
  | append bs => exact ⟨htold, _, _, hp.append ha⟩
  | replace bs => exact ⟨htold.trans (hp.endGeneration ha.1).symm, _, _, hp.replace ha⟩
  | poll sight => exact hp.poll htold sight

theorem Kept.run {f : Follower} (h : f.Kept) {steps : List Step} (hl : f.Lawful steps) :
    (f.run steps).Kept := by
  induction steps generalizing f with
  | nil => exact h
  | cons a steps ih => exact ih (h.step hl.1) hl.2

theorem tailer_origin (log : Option Bytes) (origin : Origin) :
    ∃ n, n ≤ (log.getD []).length ∧ origin.tailer log = ⟨n, []⟩ := by
  cases origin with
  | first => exact ⟨0, Nat.zero_le _, rfl⟩
  | last sight =>
    cases sight with
    | hidden cause => exact ⟨0, Nat.zero_le _, rfl⟩
    | plain | unreadable cause => cases log <;> exact ⟨_, Nat.le_refl _, rfl⟩

theorem kept_start (log : Option Bytes) (origin : Origin) : (start log origin).Kept := by
  obtain ⟨n, hn, ht⟩ := tailer_origin log origin
  have hlength : ((log.getD []).take n).length = n := by simp [hn]
  refine ⟨rfl, (log.getD []).take n, (log.getD []).drop n, ?_, ?_, fun hlog => ?_, nofun,
    fun _ => ?_, nofun⟩
  · exact (List.take_append_drop n _).symm
  · rw [hlength, start, ht]
  · change log = none at hlog
    subst hlog
    change origin.tailer none = _
    rw [ht, Nat.le_zero.1 hn]
    rfl
  · change origin.tailer log = _
    rw [ht, start, List.append_nil, hlength]
    rfl

/-- A plain look succeeds. -/
theorem step_poll_plain (f : Follower) :
    ∃ lines tailer, f.step (.poll .plain) =
      { f with
        tailer := tailer
        lines := f.lines ++ lines
        seen := f.generation
        standing := .settled } := by
  cases hlog : f.log with
  | none => exact ⟨[], f.tailer, by simp [step, Sight.view, hlog, Tailer.poll]⟩
  | some bs => exact ⟨_, _, by simp only [step, Sight.view, hlog, Option.elim, Tailer.poll]; rfl⟩

/-- What is given out are the lines of the generations that are over and of what was seen of the
present one, which is all of it after a successful look. -/
theorem lines_of_generations (log : Option Bytes) (origin : Origin) {steps : List Step}
    (h : (start log origin).Lawful steps) :
    (∃ texts, List.Forall₂ Says
        (((start log origin).run steps).ended ++ [((start log origin).run steps).seen]) texts ∧
      ((start log origin).run steps).lines = texts.flatten) ∧
    (((start log origin).run steps).standing = .settled →
      ((start log origin).run steps).seen = ((start log origin).run steps).generation) ∧
    (((start log origin).run steps).step (.poll .plain)).seen =
      ((start log origin).run steps).generation := by
  have hkept := (kept_start log origin).run h
  generalize (start log origin).run steps = f at hkept
  obtain ⟨htold, before, unread, hp⟩ := hkept
  refine ⟨⟨(f.ended ++ [f.seen]).map completeLines, ?_, ?_⟩, fun hs => ?_, ?_⟩
  · exact List.forall₂_map_right_iff.2 (List.forall₂_same.2 fun g _ => says_completeLines g)
  · rw [htold, List.flatMap_def]
  · rw [hp.generation, hp.settled hs, List.append_nil]
  · obtain ⟨lines, tailer, hstep⟩ := f.step_poll_plain
    rw [hstep]

/-- A letter and a line end are cut in two, an empty line follows, and a look fails after the log
was replaced. -/
def interrupted : List Step :=
  [.append [195], .poll .plain, .poll (.hidden .permissionDenied), .append [169, 13], .poll .plain,
    .append [10, 10], .poll .plain, .replace [97, 10], .poll (.unreadable .permissionDenied),
    .poll .plain]

theorem lines_of_generations_interrupted :
    (start (some [120]) (.last .plain)).Lawful interrupted ∧
      ((start (some [120]) (.last .plain)).run interrupted).lines = [['é'], ['a']] := by
  have hl : (start (some [120]) (.last .plain)).Lawful interrupted := by decide
  refine ⟨hl, ?_⟩
  obtain ⟨⟨texts, hsays, hlines⟩, -⟩ := lines_of_generations (some [120]) (.last .plain) hl
  change List.Forall₂ Says [[195, 169, 13, 10, 10], [97, 10]] texts at hsays
  rw [hlines, eq_of_forall₂_says hsays]
  decide

end Follower
end RigWarden.Log
