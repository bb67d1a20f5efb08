import RigWarden.Proofs.Log.Following

/-!
# Following a log that is deleted and made anew

A log is appended to, and now and then it is deleted, and another file takes its name. A tailer takes
no notice of a log that is gone. It goes on in the new file where it stood in the old one, with the
unfinished line it had kept, unless it first sees the new file while that is shorter. Only then, or
if nothing had been read before, are the lines of the new file given out from its beginning.
-/

namespace RigWarden.Log

open Text

/-- One file that had the name of the log, and what came of following it. -/
structure Edition where
  /-- The tailer as it was when the file came up. -/
  opening : Tailer
  bytes : Bytes
  /-- The length of the file when it was first seen. -/
  met : Option Nat := none
  /-- What was in the file at the last successful look. -/
  seen : Bytes := []
  /-- All lines given out while the file was there. -/
  lines : List Chars := []

/-- Whoever follows the log, the file that is there now, and those that were deleted. -/
structure Rotation where
  tailer : Tailer
  edition : Option Edition
  past : List Edition := []
  /-- All lines given out so far. -/
  lines : List Chars := []
  /-- A look has succeeded since the last file was deleted. -/
  noticed : Bool := true

namespace Edition

/-- A look gets to know the length of the file. -/
def meet (e : Edition) : Edition := { e with met := e.met.or (some e.bytes.length) }

def look (e : Edition) (sight : Sight) (result : Except SystemError (List Chars)) : Edition :=
  let e := match sight with
    | .hidden _ => e
    | .plain | .unreadable _ => e.meet
  match result with
  | .ok lines => { e with seen := e.bytes, lines := e.lines ++ lines }
  | .error _ => e

/-- The file was first seen while it was shorter than what had been read before it. -/
def FoundShort (e : Edition) : Prop := ∃ n, e.met = some n ∧ n < e.opening.position

/-- Where the reading of the file begins. -/
def origin (e : Edition) : Tailer := e.met.elim e.opening e.opening.rewind

/-- What is read of a file that begins with some bytes. -/
def text (e : Edition) (bs : Bytes) : Bytes := e.origin.pending ++ bs.drop e.origin.position

theorem origin_of_foundShort {e : Edition} (h : e.FoundShort) : e.origin = .fromStart := by
  obtain ⟨n, hn, hlt⟩ := h
  rw [origin, hn]
  exact Tailer.rewind_of_lt hlt

theorem origin_of_not_foundShort {e : Edition} (h : ¬ e.FoundShort) : e.origin = e.opening := by
  cases hn : e.met with
  | none => rw [origin, hn, Option.elim]
  | some n =>
    rw [origin, hn]
    exact Tailer.rewind_of_le (Nat.not_lt.1 fun hlt => h ⟨n, hn, hlt⟩)

end Edition

namespace Rotation

inductive Step where
  /-- Makes the file if there is none. -/
  | append (bs : Bytes)
  | delete
  | poll (sight : Sight)

def log (r : Rotation) : Option Bytes := r.edition.map Edition.bytes

def step (r : Rotation) : Step → Rotation
  | .append bs =>
    match r.edition with
    | none => { r with edition := some { opening := r.tailer, bytes := bs } }
    | some e => { r with edition := some { e with bytes := e.bytes ++ bs } }
  | .delete =>
    { r with
      edition := none
      past := r.past ++ r.edition.toList
      noticed := r.edition.isNone && r.noticed }
  | .poll sight =>
    let (result, tailer) := r.tailer.poll (sight.view r.log)
    { r with
      tailer := tailer
      edition := r.edition.map (·.look sight result)
      lines := r.lines ++ result.toOption.getD []
      noticed := r.noticed || result.toBool }

def run (r : Rotation) (steps : List Step) : Rotation := steps.foldl step r

@[simp] theorem run_nil (r : Rotation) : r.run [] = r := rfl

@[simp] theorem run_cons (r : Rotation) (a : Step) (steps : List Step) :
    r.run (a :: steps) = (r.step a).run steps := rfl

def start (log : Option Bytes) (origin : Origin) : Rotation :=
  { tailer := origin.tailer log
    edition := log.map fun bs => { opening := origin.tailer log, bytes := bs } }

/-- All files so far, in order. -/
def editions (r : Rotation) : List Edition := r.past ++ r.edition.toList

/-- Between every deletion and the new file a look succeeds. -/
def notices (r : Rotation) : List Step → Bool
  | [] => true
  | .append bs :: steps => (r.edition.isSome || r.noticed) && (r.step (.append bs)).notices steps
  | a :: steps => (r.step a).notices steps

end Rotation

namespace Tailer

/-- What is kept is a part of a line, and no more than was read. -/
structure Sane (t : Tailer) : Prop where
  lineFeed : lineFeed ∉ t.pending
  length_le : t.pending.length ≤ t.position

/-- A tailer that is known to have read so far. -/
theorem eq_of_position {t : Tailer} {n : Nat} (h : n = t.position) : t = ⟨n, t.pending⟩ := by rw [h]

theorem sane_fromStart : fromStart.Sane := ⟨List.not_mem_nil, Nat.le_refl _⟩

theorem Sane.rewind {t : Tailer} (h : t.Sane) (n : Nat) : (t.rewind n).Sane := by
  unfold Tailer.rewind
  split
  · exact sane_fromStart
  · exact h

theorem length_unfinished_le (bs : Bytes) : (unfinished bs).length ≤ bs.length := by
  obtain ⟨lines, rest, h⟩ := exists_divided bs
  have hrest : unfinished bs = rest := by simp [unfinished, h.splitOn]
  rw [hrest, h.bytes, List.length_append]
  exact Nat.le_add_left _ _

theorem Sane.poll {t : Tailer} (h : t.Sane) (v : View) : (t.poll v).2.Sane := by
  cases v with
  | absent => exact h
  | hidden cause => exact h
  | unreadable length cause =>
    simp only [Tailer.poll]
    split <;> exact h.rewind length
  | content bytes =>
    refine ⟨lineFeed_notMem_unfinished _, Nat.le_trans (length_unfinished_le _) ?_⟩
    have hle := (h.rewind bytes.length).length_le
    have hpos := t.position_rewind_le bytes.length
    simp only [Tailer.poll, List.length_append, List.length_drop]
    omega

/-- With nothing read there is nothing kept. -/
theorem Sane.eq_fromStart {t : Tailer} (h : t.Sane) (h0 : t.position = 0) : t = fromStart := by
  obtain ⟨position, pending⟩ := t
  obtain rfl : position = 0 := h0
  have hnil : pending = [] := List.length_eq_zero_iff.1 (Nat.le_zero.1 h.length_le)
  rw [hnil]
  rfl

end Tailer

namespace Edition

variable {e : Edition} {t : Tailer}

/-- A file that is read from its beginning. -/
theorem text_of_begins (e : Edition) (hopen : e.opening.Sane)
    (h : e.opening.position = 0 ∨ e.FoundShort) : e.text e.seen = e.seen := by
  have horigin : e.origin = .fromStart := by
    by_cases hshort : e.FoundShort
    · exact origin_of_foundShort hshort
    · rw [origin_of_not_foundShort hshort, hopen.eq_fromStart (h.resolve_right hshort)]
  rw [text, horigin]
  rfl

theorem text_of_not_begins (e : Edition) (h : ¬ (e.opening.position = 0 ∨ e.FoundShort)) :
    e.text e.seen = e.opening.pending ++ e.seen.drop e.opening.position := by
  rw [text, origin_of_not_foundShort fun hshort => h (.inr hshort)]

theorem meet_of_some {n : Nat} (h : e.met = some n) : e.meet = e := by
  rw [meet, h]
  change { e with met := some n } = e
  rw [← h]

/-- The tailer stands where the reading of the file has got, and the lines up to there are out. -/
structure Read (e : Edition) (t : Tailer) : Prop where
  tailer : t = ⟨max e.origin.position e.seen.length, unfinished (e.text e.seen)⟩
  lines : e.lines = completeLines (e.text e.seen)
  seen : e.seen <+: e.bytes
  unmet : e.met = none → e.seen = []
  met : ∀ n, e.met = some n → e.origin.position ≤ e.bytes.length

theorem Read.position_le (h : e.Read t) {n : Nat} (hn : e.met = some n) :
    t.position ≤ e.bytes.length := by
  rw [h.tailer]
  exact Nat.max_le.2 ⟨h.met n hn, h.seen.length_le⟩

/-- A file that nobody has seen is read from where the tailer stood. -/
theorem read_new (ht : t.Sane) (bs : Bytes) : Read { opening := t, bytes := bs } t := by
  have htext : text { opening := t, bytes := bs } [] = t.pending := by simp [text, origin]
  refine ⟨?_, ?_, List.nil_prefix, fun _ => rfl, nofun⟩
  · rw [htext, unfinished_of_notMem ht.lineFeed]
    simp [origin]
  · rw [htext, completeLines_eq, rawLines_of_notMem ht.lineFeed]
    rfl

theorem Read.append (h : e.Read t) (bs : Bytes) : Read { e with bytes := e.bytes ++ bs } t where
  tailer := h.tailer
  lines := h.lines
  seen := h.seen.trans (List.prefix_append _ _)
  unmet := h.unmet
  met n hn := Nat.le_trans (h.met n hn) (by simp)

/-- To see the length of the file decides where its reading begins. -/
theorem Read.meet (h : e.Read t) (hopen : e.opening.Sane) :
    e.meet.Read (t.rewind e.bytes.length) := by
  cases hmet : e.met with
  | some n => rwa [meet_of_some hmet, Tailer.rewind_of_le (h.position_le hmet)]
  | none =>
    have hseen := h.unmet hmet
    have ht : t = e.opening := by
      rw [h.tailer, text, origin, hmet, hseen]
      simp [unfinished_of_notMem hopen.lineFeed]
    have hsane := hopen.rewind e.bytes.length
    have horigin : e.meet.origin = e.opening.rewind e.bytes.length := by
      simp [origin, Edition.meet, hmet]
    have htext : e.meet.text e.meet.seen = e.meet.origin.pending := by
      have hnil : e.meet.seen = [] := hseen
      rw [text, hnil, List.drop_nil, List.append_nil]
    have hlines : e.lines = [] := by
      rw [h.lines, text, origin, hmet, hseen]
      simp [completeLines_eq, rawLines_of_notMem hopen.lineFeed]
    refine ⟨?_, ?_, h.seen, fun _ => hseen, fun _ _ => ?_⟩
    · have hnil : e.meet.seen = [] := hseen
      rw [htext, horigin, unfinished_of_notMem hsane.lineFeed, hnil, ht, List.length_nil,
        Nat.max_zero]
    · rw [htext, horigin, completeLines_eq, rawLines_of_notMem hsane.lineFeed]
      exact hlines
    · rw [horigin]
      exact Tailer.position_rewind_le _ _

/-- What a file that has grown holds behind a place, in two parts. -/
theorem drop_of_prefix {seen bytes : Bytes} (h : seen <+: bytes) (p : Nat) :
    bytes.drop p = seen.drop p ++ bytes.drop (max p seen.length) := by
  obtain ⟨more, rfl⟩ := h
  rcases Nat.le_total p seen.length with hle | hle
  · rw [Nat.max_eq_right hle, List.drop_left, List.drop_append_of_le_length hle]
  · rw [Nat.max_eq_left hle, List.drop_eq_nil_of_le hle, List.nil_append]

theorem Read.text_bytes (h : e.Read t) :
    e.text e.bytes = e.text e.seen ++ e.bytes.drop t.position := by
  rw [text, drop_of_prefix h.seen, ← List.append_assoc, h.tailer]
  rfl

/-- The rest of the file is read, or there is none. -/
theorem Read.see (h : e.Read t) {n : Nat} (hmet : e.met = some n) :
    Read { e with
      seen := e.bytes
      lines := e.lines ++ completeLines (t.pending ++ e.bytes.drop t.position) }
      ⟨e.bytes.length, unfinished (t.pending ++ e.bytes.drop t.position)⟩ := by
  have hpending : t.pending = unfinished (e.text e.seen) := by rw [h.tailer]
  refine ⟨?_, ?_, List.prefix_refl _, fun hn => ?_, h.met⟩
  · have hmax : max e.origin.position e.bytes.length = e.bytes.length :=
      Nat.max_eq_right (h.met n hmet)
    change _ = Tailer.mk (max e.origin.position e.bytes.length) (unfinished (e.text e.bytes))
    rw [hmax, h.text_bytes, hpending, unfinished_append (e.text e.seen)]
  · change _ = completeLines (e.text e.bytes)
    rw [h.text_bytes, hpending, completeLines_append (e.text e.seen), ← h.lines]
  · change e.met = none at hn
    rw [hmet] at hn
    cases hn

theorem exists_met_meet (e : Edition) : ∃ n, e.meet.met = some n := by
  cases h : e.met <;> simp [meet, h]

theorem Read.poll (h : e.Read t) (hopen : e.opening.Sane) (sight : Sight) :
    (e.look sight (t.poll (sight.view (some e.bytes))).1).Read
      (t.poll (sight.view (some e.bytes))).2 := by
  obtain ⟨n, hn⟩ := e.exists_met_meet
  have hmeet := h.meet hopen
  cases sight with
  | hidden cause => exact h
  | plain =>
    have hsee := hmeet.see hn
    change (e.look .plain (t.poll (.content e.bytes)).1).Read (t.poll (.content e.bytes)).2
    rw [← Tailer.poll_rewind, Tailer.poll, Tailer.rewind_of_le (t.position_rewind_le _)]
    exact hsee
  | unreadable cause =>
    change (e.look (.unreadable cause) (t.poll (.unreadable e.bytes.length cause)).1).Read
      (t.poll (.unreadable e.bytes.length cause)).2
    simp only [Tailer.poll]
    split
    · next hend =>
      -- What was seen already is all there is, so nothing is read and nothing is given out.
      have hsane : lineFeed ∉ (t.rewind e.bytes.length).pending := by
        rw [hmeet.tailer]
        exact lineFeed_notMem_unfinished _
      have hsee := hmeet.see hn
      have hdrop : e.meet.bytes.drop (t.rewind e.bytes.length).position = [] := by
        rw [← hend]
        exact List.drop_length
      rw [hdrop, List.append_nil, completeLines_eq, rawLines_of_notMem hsane,
        unfinished_of_notMem hsane] at hsee
      change Read { e.meet with seen := e.bytes, lines := e.lines ++ [] } _
      rw [Tailer.eq_of_position hend]
      exact hsee
    · exact hmeet

@[simp] theorem opening_look (e : Edition) (sight : Sight)
    (result : Except SystemError (List Chars)) : (e.look sight result).opening = e.opening := by
  cases sight <;> cases result <;> rfl

theorem lines_look (e : Edition) (sight : Sight) (result : Except SystemError (List Chars)) :
    (e.look sight result).lines = e.lines ++ result.toOption.getD [] := by
  cases sight <;> cases result <;> simp [look, meet, Except.toOption]

end Edition

namespace Rotation

variable {r : Rotation}

/-- The file that is there and those that were deleted are read as far as they were seen. -/
structure Kept (r : Rotation) : Prop where
  sane : r.tailer.Sane
  openings : ∀ e ∈ r.editions, e.opening.Sane
  past : ∀ e ∈ r.past, e.lines = completeLines (e.text e.seen)
  present : ∀ e, r.edition = some e → e.Read r.tailer
  lines : r.lines = r.editions.flatMap Edition.lines

theorem editions_of_some {e : Edition} (h : r.edition = some e) : r.editions = r.past ++ [e] := by
  rw [editions, h]
  rfl

theorem Kept.append (h : r.Kept) (bs : Bytes) : (r.step (.append bs)).Kept := by
  cases he : r.edition with
  | none =>
    have hstep : r.step (.append bs) =
        { r with edition := some { opening := r.tailer, bytes := bs } } := by
      simp only [step, he]
    rw [hstep]
    refine ⟨h.sane, fun e hmem => ?_, h.past, fun e hsome => ?_, ?_⟩
    · rw [editions_of_some rfl, List.mem_append, List.mem_singleton] at hmem
      rcases hmem with hmem | rfl
      · exact h.openings e (List.mem_append_left _ hmem)
      · exact h.sane
    · cases hsome
      exact Edition.read_new h.sane bs
    · change r.lines = _
      rw [h.lines]
      simp [editions, he]
  | some e =>
    have hstep : r.step (.append bs) =
        { r with edition := some { e with bytes := e.bytes ++ bs } } := by
      simp only [step, he]
    rw [hstep]
    refine ⟨h.sane, fun e' hmem => ?_, h.past, fun e' hsome => ?_, ?_⟩
    · rw [editions_of_some rfl, List.mem_append, List.mem_singleton] at hmem
      rcases hmem with hmem | rfl
      · exact h.openings e' (List.mem_append_left _ hmem)
      · exact h.openings e (by simp [editions_of_some he])
    · cases hsome
      exact (h.present e he).append bs
    · change r.lines = _
      rw [h.lines]
      simp [editions, he]

theorem Kept.delete (h : r.Kept) : (r.step .delete).Kept := by
  refine ⟨h.sane, fun e hmem => h.openings e ?_, fun e hmem => ?_, nofun, ?_⟩
  · simpa [editions, step] using hmem
  · rcases List.mem_append.1 hmem with hmem | hmem
    · exact h.past e hmem
    · exact (h.present e (Option.mem_toList.1 hmem)).lines
  · change r.lines = _
    rw [h.lines]
    simp [editions, step]

/-- Nothing is given out of a file that is not there. -/
theorem poll_lines_of_absent (h : r.edition = none) (sight : Sight) :
    (r.step (.poll sight)).lines = r.lines := by
  cases sight <;> simp [step, log, h, Sight.view, Tailer.poll, Except.toOption]

theorem edition_poll {e : Edition} (h : r.edition = some e) (sight : Sight) :
    (r.step (.poll sight)).edition =
      some (e.look sight (r.tailer.poll (sight.view r.log)).1) := by
  simp [step, h]

theorem Kept.poll (h : r.Kept) (sight : Sight) : (r.step (.poll sight)).Kept := by
  refine ⟨h.sane.poll _, fun e hmem => ?_, h.past, fun e hsome => ?_, ?_⟩
  · cases he : r.edition with
    | none => exact h.openings e (by simpa [editions, step, he] using hmem)
    | some e₀ =>
      rw [editions_of_some (edition_poll he sight), List.mem_append, List.mem_singleton] at hmem
      rcases hmem with hmem | rfl
      · exact h.openings e (List.mem_append_left _ hmem)
      · rw [Edition.opening_look]
        exact h.openings e₀ (by simp [editions_of_some he])
  · obtain ⟨e₀, he, rfl⟩ := Option.map_eq_some_iff.1 hsome
    have hlog : r.log = some e₀.bytes := by simp [log, he]
    have hread := (h.present e₀ he).poll (h.openings e₀ (by simp [editions_of_some he])) sight
    rw [← hlog] at hread
    exact hread
  · cases he : r.edition with
    | none =>
      rw [poll_lines_of_absent he, h.lines]
      simp [editions, step, he]
    | some e =>
      change r.lines ++ _ = _
      rw [h.lines, editions_of_some he, editions_of_some (edition_poll he sight),
        List.flatMap_append, List.flatMap_append, List.flatMap_singleton, List.flatMap_singleton,
        Edition.lines_look, List.append_assoc]
      rfl

theorem Kept.step (h : r.Kept) (a : Step) : (r.step a).Kept := by
  cases a with
  | append bs => exact h.append bs
  | delete => exact h.delete
  | poll sight => exact h.poll sight

theorem Kept.run (h : r.Kept) (steps : List Step) : (r.run steps).Kept := by
  induction steps generalizing r with
  | nil => exact h
  | cons a steps ih => exact ih (h.step a)

theorem kept_start (log : Option Bytes) (origin : Origin) : (start log origin).Kept := by
  have hsane : (origin.tailer log).Sane := by
    obtain ⟨n, -, ht⟩ := Follower.tailer_origin log origin
    rw [ht]
    exact ⟨List.not_mem_nil, Nat.zero_le n⟩
  refine ⟨hsane, fun e hmem => ?_, nofun, fun e hsome => ?_, ?_⟩
  · obtain ⟨bs, -, rfl⟩ := Option.map_eq_some_iff.1 (Option.mem_toList.1 hmem)
    exact hsane
  · obtain ⟨bs, -, rfl⟩ := Option.map_eq_some_iff.1 hsome
    exact Edition.read_new hsane bs
  · cases log <;> rfl

theorem Kept.lines_eq (h : r.Kept) {e : Edition} (he : e ∈ r.editions) :
    e.lines = completeLines (e.text e.seen) := by
  rcases List.mem_append.1 he with hmem | hmem
  · exact h.past e hmem
  · exact (h.present e (Option.mem_toList.1 hmem)).lines

/-- A look that succeeds sees all of the file that is there. -/
theorem seen_poll {e : Edition} {lines : List Chars} {sight : Sight} {t : Tailer}
    (he : r.edition = some e) (hp : r.tailer.poll (sight.view r.log) = (.ok lines, t)) :
    ∃ e', (r.step (.poll sight)).edition = some e' ∧ e'.opening = e.opening ∧
      e'.seen = e.bytes := by
  refine ⟨_, edition_poll he sight, Edition.opening_look _ _ _, ?_⟩
  rw [hp]
  cases sight <;> rfl

theorem completeLines_replicate (n : Nat) : completeLines (List.replicate n lineFeed) = [] := by
  induction n with
  | zero => rfl
  | succ n ih =>
    rw [completeLines_eq, List.replicate_succ, ← List.nil_append (lineFeed :: _),
      rawLines_append_cons List.not_mem_nil, List.map_append, ← completeLines_eq, ih]
    rfl

/-- A new file that is no shorter than what was read of the old one is read from there on. -/
theorem edition_misread (h : r.edition = none) {bs : Bytes} (hle : r.tailer.position ≤ bs.length) :
    ((r.step (.append bs)).step (.poll .plain)).edition =
      some {
        opening := r.tailer
        bytes := bs
        met := some bs.length
        seen := bs
        lines := completeLines (r.tailer.pending ++ bs.drop r.tailer.position) } := by
  simp [step, h, log, Sight.view, Tailer.poll, Tailer.rewind_of_le hle, Edition.look, Edition.meet]

/-- Something was read of the old file, so some new one is not read from its beginning. -/
theorem Kept.exists_misread (h : r.Kept) (hp : r.tailer.position ≠ 0) :
    ∃ bs : Bytes, r.tailer.position ≤ bs.length ∧
      ¬ Says bs (completeLines (r.tailer.pending ++ bs.drop r.tailer.position)) := by
  obtain ⟨p, hsucc⟩ := Nat.exists_eq_succ_of_ne_zero hp
  by_cases hpending : r.tailer.pending = []
  · -- Of a line and more line feeds than were read the line is passed over.
    refine ⟨[97] ++ lineFeed :: List.replicate (p + 1) lineFeed, by simp [hsucc], fun hsays => ?_⟩
    have hdrop : ([97] ++ lineFeed :: List.replicate (p + 1) lineFeed).drop r.tailer.position =
        List.replicate 2 lineFeed := by
      rw [hsucc, ← List.replicate_succ, List.singleton_append, List.drop_succ_cons,
        List.drop_replicate, Nat.add_assoc, Nat.add_sub_cancel_left]
    have heq := hsays.eq
    rw [hpending, hdrop, List.nil_append, completeLines_replicate, completeLines_eq,
      rawLines_append_cons (by decide)] at heq
    simp at heq
  · -- Of line feeds alone one ends the line that was kept.
    refine ⟨List.replicate (p + 2) lineFeed, by simp [hsucc], fun hsays => ?_⟩
    have hdrop : (List.replicate (p + 2) lineFeed).drop r.tailer.position = lineFeed :: [] := by
      rw [hsucc, List.drop_replicate, Nat.add_sub_add_left p 2 1]
      rfl
    have heq := hsays.eq
    rw [hdrop, completeLines_replicate, completeLines_eq, rawLines_append_cons h.sane.lineFeed]
      at heq
    simp [hpending] at heq

/-- Every file is read once: from its beginning if nothing was read before it or it was found
shorter than that, and otherwise from where the tailer stood when it came up. What follows from
this for a new file, whatever it holds, is what the tailer has read before. -/
theorem lines_of_editions (log : Option Bytes) (origin : Origin) (steps : List Step) :
    ((start log origin).run steps).lines =
      ((start log origin).run steps).editions.flatMap Edition.lines ∧
    (∀ e ∈ ((start log origin).run steps).editions,
      (e.opening.position = 0 ∨ e.FoundShort → Says e.seen e.lines) ∧
      (¬ (e.opening.position = 0 ∨ e.FoundShort) →
        Says (e.opening.pending ++ e.seen.drop e.opening.position) e.lines)) ∧
    (∀ e, ((start log origin).run steps).edition = some e → ∀ sight lines t,
      ((start log origin).run steps).tailer.poll
        (sight.view ((start log origin).run steps).log) = (.ok lines, t) →
      ∃ e', (((start log origin).run steps).step (.poll sight)).edition = some e' ∧
        e'.opening = e.opening ∧ e'.seen = e.bytes) ∧
    (((start log origin).run steps).edition = none →
      ((∀ bs, ∃ e,
          ((((start log origin).run steps).step (.append bs)).step (.poll .plain)).edition =
            some e ∧ e.seen = bs ∧ Says bs e.lines) ↔
        ((start log origin).run steps).tailer.position = 0)) := by
  have hkept := (kept_start log origin).run steps
  generalize (start log origin).run steps = r at hkept
  refine ⟨hkept.lines, fun e he => ?_, fun e he sight lines t hp => seen_poll he hp,
    fun hnone => ⟨fun hall => ?_, fun h0 bs => ?_⟩⟩
  · have hsays : Says (e.text e.seen) e.lines := by
      rw [hkept.lines_eq he]
      exact says_completeLines _
    exact ⟨fun hbegin => e.text_of_begins (hkept.openings e he) hbegin ▸ hsays,
      fun hbegin => e.text_of_not_begins hbegin ▸ hsays⟩
  · by_contra hp
    obtain ⟨bs, hle, hnot⟩ := hkept.exists_misread hp
    obtain ⟨e, he, -, hsays⟩ := hall bs
    rw [edition_misread hnone hle] at he
    cases he
    exact hnot hsays
  · refine ⟨_, edition_misread hnone (by simp [h0]), rfl, ?_⟩
    rw [hkept.sane.eq_fromStart h0]
    exact says_completeLines bs

/-- Half a line is read, the file is found gone, and a longer one takes its name. -/
def renewed : List Step :=
  [.poll .plain, .delete, .poll .plain, .append [97, 10, 98, 10], .poll .plain]

/-- The second file holds the lines `a` and `b`, and what is given out of it is `pb`. -/
theorem not_always_from_beginning :
    ¬ ∀ (log : Option Bytes) (origin : Origin) (steps : List Step),
      (start log origin).notices steps = true →
        ∀ e ∈ ((start log origin).run steps).editions.tail, Says e.seen e.lines := by
  intro hall
  have hsays := hall (some [10, 112]) .first renewed (by decide) _ List.mem_cons_self
  exact absurd hsays.eq (by decide)

end Rotation
end RigWarden.Log
