import RigWarden.Proofs.Log.Following
import RigWarden.Proofs.Log.Totals
import RigWarden.Proofs.Text.Utf8

/-!
# A log read while it is written

A log that may not be there yet grows, and now and then a tailer looks at it and a tally is told the
lines. Wherever the looks cut the bytes, and whichever of them fail, the tally has heard the lines
of what was seen, and a plain look sees all of it.
-/

namespace RigWarden.Log

open Text

structure Digest where
  log : Option Bytes := none
  tailer : Tailer := .fromStart
  tally : Tally := {}
  readings : List Reading := []

namespace Digest

inductive Step where
  | append (bs : Bytes)
  | look (now : Instant) (sight : Sight)

def content (d : Digest) : Bytes := d.log.getD []

def step (b : Backend) (d : Digest) : Step → Digest
  | .append bs => { d with log := some (d.content ++ bs) }
  | .look now sight =>
    match d.tailer.poll (sight.view d.log) with
    | (.error _, tailer) => { d with tailer := tailer }
    | (.ok lines, tailer) =>
      let (readings, tally) := d.tally.ingestAll b now lines
      { d with tailer := tailer, tally := tally, readings := d.readings ++ readings }

def run (b : Backend) (d : Digest) (steps : List Step) : Digest := steps.foldl (step b) d

def figures (d : Digest) : List Figures := d.readings.map Reading.figures

/-- The bytes that a step adds to the log. -/
def Step.bytes : Step → Bytes
  | append bs => bs
  | look _ _ => []

variable {b : Backend} {d : Digest} {seen unread : Bytes}

@[simp] theorem run_nil (b : Backend) (d : Digest) : d.run b [] = d := rfl

@[simp] theorem run_cons (b : Backend) (d : Digest) (a : Step) (steps : List Step) :
    d.run b (a :: steps) = (d.step b a).run b steps := rfl

theorem step_look_ok {now : Instant} {sight : Sight} {lines : List Chars} {t : Tailer}
    (h : d.tailer.poll (sight.view d.log) = (.ok lines, t)) :
    d.step b (.look now sight) =
      { d with
        tailer := t
        tally := (d.tally.ingestAll b now lines).2
        readings := d.readings ++ (d.tally.ingestAll b now lines).1 } := by
  simp only [step, h]

theorem step_look_error {now : Instant} {sight : Sight} {cause : SystemError} {t : Tailer}
    (h : d.tailer.poll (sight.view d.log) = (.error cause, t)) :
    d.step b (.look now sight) = { d with tailer := t } := by
  simp only [step, h]

/-- A look without lines that leaves the tailer where it was changes nothing. -/
theorem step_look_idle {now : Instant} {sight : Sight} {r : Except SystemError (List Chars)}
    (hr : r = .ok [] ∨ ∃ cause, r = .error cause)
    (h : d.tailer.poll (sight.view d.log) = (r, d.tailer)) : d.step b (.look now sight) = d := by
  obtain rfl | ⟨cause, rfl⟩ := hr
  · rw [step_look_ok h, Tally.ingestAll_nil, List.append_nil]
  · rw [step_look_error h]

/-- The tailer has read the log up to some place, and the tally has heard the lines before it. -/
structure Told (b : Backend) (d : Digest) (seen unread : Bytes) : Prop where
  content : d.content = seen ++ unread
  tailer : d.tailer = ⟨seen.length, unfinished seen⟩
  told : (d.figures, d.tally) = Tally.follow b {} (completeLines seen)

theorem told_new (b : Backend) : Told b {} [] [] := ⟨rfl, rfl, rfl⟩

theorem Told.append (h : Told b d seen unread) (bs : Bytes) :
    Told b (d.step b (.append bs)) seen (unread ++ bs) :=
  ⟨by rw [← List.append_assoc, ← h.content]; rfl, h.tailer, h.told⟩

theorem Told.plain (h : Told b d seen unread) {bs : Bytes} (hlog : d.log = some bs) (now : Instant) :
    Told b (d.step b (.look now .plain)) (seen ++ unread) [] := by
  have hbs : bs = seen ++ unread := by rw [← h.content, Digest.content, hlog, Option.getD_some]
  have hpoll : d.tailer.poll (Sight.plain.view d.log) =
      (.ok (completeLines (unfinished seen ++ unread)),
        ⟨(seen ++ unread).length, unfinished (seen ++ unread)⟩) := by
    rw [hlog, hbs, h.tailer, unfinished_append seen]
    exact Tailer.poll_append rfl unread
  obtain ⟨hfigures, htally⟩ := Prod.mk.inj h.told
  have hfollow := Tally.ingestAll_eq_follow d.tally b now (completeLines (unfinished seen ++ unread))
  obtain ⟨hmore, hnext⟩ := Prod.mk.inj hfollow
  rw [step_look_ok hpoll]
  refine ⟨by rw [List.append_nil]; exact h.content, rfl, ?_⟩
  rw [completeLines_append seen, Tally.follow_append, ← htally, ← hfigures, ← hmore, ← hnext]
  simp [figures]

/-- A look that is not plain, or meets no log, leaves everything as it was. -/
theorem Told.idle (h : Told b d seen unread) {sight : Sight} (hs : sight ≠ .plain ∨ d.log = none)
    (now : Instant) : d.step b (.look now sight) = d := by
  cases hlog : d.log with
  | none =>
    cases sight with
    | hidden cause => exact step_look_idle (.inr ⟨cause, rfl⟩) rfl
    | plain | unreadable => exact step_look_idle (.inl rfl) (by rw [hlog]; rfl)
  | some bs =>
    cases sight with
    | hidden cause => exact step_look_idle (.inr ⟨cause, rfl⟩) rfl
    | plain => simp [hlog] at hs
    | unreadable cause =>
      have hle : d.tailer.position ≤ bs.length := by
        have hbs : bs = seen ++ unread := by
          rw [← h.content, Digest.content, hlog, Option.getD_some]
        simp [h.tailer, hbs]
      have hpoll : d.tailer.poll ((Sight.unreadable cause).view d.log) =
          if bs.length = d.tailer.position then (.ok [], d.tailer) else (.error cause, d.tailer) := by
        rw [hlog]
        change d.tailer.poll (.unreadable bs.length cause) = _
        simp only [Tailer.poll, Tailer.rewind_of_le hle]
      split at hpoll
      · exact step_look_idle (.inl rfl) hpoll
      · exact step_look_idle (.inr ⟨cause, rfl⟩) hpoll

theorem Told.look (h : Told b d seen unread) (now : Instant) (sight : Sight) :
    ∃ seen' unread', Told b (d.step b (.look now sight)) seen' unread' ∧
      seen' ++ unread' = seen ++ unread ∧ (sight = .plain → unread' = []) := by
  by_cases hs : sight ≠ .plain ∨ d.log = none
  · rw [h.idle hs now]
    refine ⟨seen, unread, h, rfl, fun hp => ?_⟩
    have hnil : seen ++ unread = [] := by
      rw [← h.content, Digest.content, hs.resolve_left (not_not.2 hp), Option.getD_none]
    exact (List.append_eq_nil_iff.1 hnil).2
  · obtain ⟨hp, hlog⟩ := not_or.1 hs
    obtain ⟨bs, hbs⟩ := Option.ne_none_iff_exists'.1 hlog
    rw [not_not.1 hp]
    exact ⟨_, _, h.plain hbs now, List.append_nil _, fun _ => rfl⟩

theorem Told.run (h : Told b d seen unread) (steps : List Step) :
    ∃ seen' unread', Told b (d.run b steps) seen' unread' ∧
      seen' ++ unread' = seen ++ unread ++ steps.flatMap Step.bytes := by
  induction steps generalizing d seen unread with
  | nil => exact ⟨seen, unread, h, (List.append_nil _).symm⟩
  | cons a steps ih =>
    cases a with
    | append bs =>
      obtain ⟨seen', unread', ht, hc⟩ := ih (h.append bs)
      exact ⟨seen', unread', ht, by rw [hc, List.flatMap_cons, Step.bytes]; simp⟩
    | look now sight =>
      obtain ⟨s, u, hlook, hsu, -⟩ := h.look now sight
      obtain ⟨seen', unread', ht, hc⟩ := ih hlook
      exact ⟨seen', unread', ht, by rw [hc, hsu, List.flatMap_cons, Step.bytes]; rfl⟩

/-- After a last plain look, what was reported are the figures of the whole log. -/
theorem figures_run (b : Backend) (steps : List Step) (now : Instant) :
    ((({} : Digest).run b steps).step b (.look now .plain)).figures =
      (Tally.follow b {} (completeLines (steps.flatMap Step.bytes))).1 := by
  obtain ⟨seen, unread, h, hc⟩ := (told_new b).run steps
  obtain ⟨seen', unread', hlook, hsame, hall⟩ := h.look now .plain
  rw [hall rfl, List.append_nil, hc] at hsame
  rw [hsame] at hlook
  exact congrArg Prod.fst hlook.told

end Digest
end RigWarden.Log
