import RigWarden.Proofs.Log.Totals
import RigWarden.Proofs.Number.Sign

/-!
# The account of a tally

A new tally is given lines and is told of restarts, in any order. What it has been given falls into
stretches, one for each worker. The totals are the sums of the stretches' largest counters, the hash
rate is the last one of the present stretch, and every reading shows these figures as they are when
it is given out.
-/

namespace RigWarden.Log

open Text Number

/-- What a line says about the hash rate. -/
def rateOf (b : Backend) (line : Chars) : Option Float := (b.readLine line).bind Sample.hashrate

section rates

theorem isAmount_factor {scale : Option Char} {x : Float} (h : factor? scale = some x) :
    isAmount x.toModel.unpack = true := by
  unfold factor? at h
  split at h
  · cases h
    decide
  · split at h
    · cases h
      decide
    · cases h
      decide
    · cases h
      decide
    · cases h

theorem unsigned_scaled {value x : Float} {scale : Option Char}
    (hv : Unsigned value.toModel.unpack) (h : scaled? value scale = some x) :
    Unsigned x.toModel.unpack := by
  unfold scaled? at h
  split at h
  · cases h
  · obtain ⟨f, hf, rfl⟩ := Option.map_eq_some_iff.1 h
    exact (hv.mul (isAmount_factor hf)).pack

theorem unsigned_decimal {cs : Chars} {x : Float} (h : decimal? cs = some x) :
    Unsigned x.toModel.unpack := by
  unfold decimal? at h
  simp only [Option.ite_none_right_eq_some] at h
  obtain ⟨-, hx⟩ := h
  cases hx
  exact unsigned_ofDecimal _ _

theorem unsigned_rate {read : Option Float} {scale : Option Char} {x : Float}
    (hread : ∀ v, read = some v → Unsigned v.toModel.unpack)
    (h : read.bind (scaled? · scale) = some x) : Unsigned x.toModel.unpack := by
  obtain ⟨v, hv, hx⟩ := Option.bind_eq_some_iff.1 h
  exact unsigned_scaled (hread v hv) hx

theorem hashrate_of_nonEmpty? {s : Sample} {x : Float}
    (h : s.nonEmpty?.bind Sample.hashrate = some x) : s.hashrate = some x := by
  obtain ⟨t, ht, hx⟩ := Option.bind_eq_some_iff.1 h
  obtain ⟨-, rfl⟩ := (s.nonEmpty?_eq_some_iff t).1 ht
  exact hx

/-- No backend reads a rate below zero. -/
theorem unsigned_rateOf {b : Backend} {line : Chars} {x : Float} (h : rateOf b line = some x) :
    Unsigned x.toModel.unpack := by
  cases b with
  | xmrig =>
    obtain ⟨speed, -, hx⟩ := Option.bind_eq_some_iff.1 (hashrate_of_nonEmpty? h)
    refine unsigned_rate (fun v hv => ?_) hx
    obtain ⟨window, -, hwindow⟩ := List.exists_of_findSome?_eq_some hv
    exact unsigned_decimal hwindow
  | srbMiner =>
    obtain ⟨found, -, hx⟩ := Option.bind_eq_some_iff.1 (hashrate_of_nonEmpty? h)
    exact unsigned_rate (fun _ => unsigned_decimal) hx
  | simulated =>
    obtain ⟨found, -, hx⟩ := Option.bind_eq_some_iff.1 (hashrate_of_nonEmpty? h)
    exact unsigned_rate (fun _ => unsigned_decimal) hx

/-- A rate that was read is not changed by cutting it off at zero. -/
theorem atLeastZero_of_rateOf {b : Backend} {line : Chars} {x : Float}
    (h : rateOf b line = some x) : Tally.atLeastZero x = x := by
  unfold Tally.atLeastZero
  split
  · rfl
  · next hn => exact ((unsigned_rateOf h).eq_zero hn).symm

end rates

namespace Tally

theorem total_le_add (t : Tally) (c : Counter) (s : Sample) :
    t.total c ≤ (t.add s).total c := by
  rw [total_add]
  cases c.said s with
  | none => exact Nat.le_refl _
  | some n => exact Nat.le_max_left _ _

inductive Call where
  | line (now : Instant) (text : Chars)
  | restart

/-- A tally in use, with what it was given since the last restart and before it, and the readings it
gave out. -/
structure Usage where
  tally : Tally := {}
  present : List Chars := []
  past : List (List Chars) := []
  readings : List Reading := []

namespace Usage

variable (b : Backend)

def call (u : Usage) : Call → Usage
  | .line now text =>
    let (reading, tally) := u.tally.ingest b now text
    { u with
      tally := tally
      present := u.present ++ [text]
      readings := u.readings ++ reading.toList }
  | .restart =>
    { u with
      tally := u.tally.restarted
      present := []
      past := u.past ++ [u.present] }

/-- A new tally after some calls. -/
def after (cs : List Call) : Usage := cs.foldl (call b) {}

theorem after_concat (cs : List Call) (a : Call) : after b (cs ++ [a]) = (after b cs).call b a :=
  List.foldl_concat _ _ _ _

/-- The lines between restarts. -/
def stretches (u : Usage) : List (List Chars) := u.past ++ [u.present]

def sum (u : Usage) (c : Counter) : Nat := (u.stretches.map (c.largest b)).sum

/-- The last rate of the present stretch. -/
def rate (u : Usage) : Float := (u.present.filterMap (rateOf b)).getLast?.getD 0

/-- The figures are those of the account, and no reading shows less than one before it. -/
structure Kept (u : Usage) : Prop where
  followed : (u.readings.map Reading.figures, u.tally) = followEach b u.stretches
  rate : u.tally.hashrate = u.rate b
  bounded : ∀ r ∈ u.readings, ∀ c : Counter, c.shown r.figures ≤ u.tally.total c
  rising : u.readings.Pairwise fun r r' => ∀ c : Counter, c.shown r.figures ≤ c.shown r'.figures

variable {b} {u : Usage}

theorem kept_new : Kept b {} where
  followed := rfl
  rate := rfl
  bounded := nofun
  rising := .nil

theorem Kept.total (h : u.Kept b) (c : Counter) : u.tally.total c = u.sum b c := by
  rw [sum, ← total_followEach, ← h.followed]

theorem Kept.zero_le (h : u.Kept b) : 0 ≤ u.tally.hashrate := by
  rw [h.rate, Usage.rate]
  cases hlast : (u.present.filterMap (rateOf b)).getLast? with
  | none => exact Unsigned.zero_le .zero
  | some x =>
    obtain ⟨line, -, hline⟩ := List.mem_filterMap.1 (List.mem_of_getLast? hlast)
    exact (unsigned_rateOf hline).zero_le

theorem Kept.restart (h : u.Kept b) : (u.call b .restart).Kept b := by
  refine ⟨?_, rfl, fun r hr c => ?_, h.rising⟩
  · change (u.readings.map Reading.figures, u.tally.restarted) = followEach b (u.stretches ++ [[]])
    rw [followEach_snoc_nil, ← h.followed]
  · exact (h.bounded r hr c).trans_eq (u.tally.total_restarted c).symm

theorem call_line_none {now : Instant} {text : Chars} (h : b.readLine text = none) :
    u.call b (.line now text) = { u with present := u.present ++ [text] } := by
  simp [call, ingest, h]

theorem call_line_some {now : Instant} {text : Chars} {s : Sample} (h : b.readLine text = some s) :
    u.call b (.line now text) =
      { u with
        tally := u.tally.add s
        present := u.present ++ [text]
        readings := u.readings ++ [(u.tally.add s).reading now s.status] } := by
  simp [call, ingest, h]

theorem hashrate_add {text : Chars} {s : Sample} (h : b.readLine text = some s) (t : Tally) :
    (t.add s).hashrate = (rateOf b text).getD t.hashrate := by
  have hrate : rateOf b text = s.hashrate := by rw [rateOf, h, Option.bind_some]
  cases hs : s.hashrate with
  | none => simp [add, hrate, hs]
  | some x =>
    have hx := atLeastZero_of_rateOf (hrate.trans hs)
    simp [add, hrate, hs, hx]

theorem shown_reading (c : Counter) (t : Tally) (now : Instant) (status : Option String) :
    c.shown (t.reading now status).figures = t.total c := t.shown_figures c status

theorem Kept.line (h : u.Kept b) (now : Instant) (text : Chars) :
    (u.call b (.line now text)).Kept b := by
  have hfollow := followEach_snoc_append b u.past u.present [text]
  rw [show followEach b (u.past ++ [u.present]) = _ from h.followed.symm] at hfollow
  cases hline : b.readLine text with
  | none =>
    rw [call_line_none hline]
    refine ⟨?_, ?_, h.bounded, h.rising⟩
    · change _ = followEach b (u.past ++ [u.present ++ [text]])
      rw [hfollow, follow_cons_none _ b hline]
      simp
    · rw [h.rate]
      simp [Usage.rate, rateOf, hline]
  | some s =>
    rw [call_line_some hline]
    refine ⟨?_, ?_, fun r hr c => ?_, ?_⟩
    · change _ = followEach b (u.past ++ [u.present ++ [text]])
      rw [hfollow, follow_cons_some _ b hline]
      simp [Reading.figures, reading, figures]
    · change (u.tally.add s).hashrate = _
      rw [hashrate_add hline, h.rate]
      cases hrate : rateOf b text <;> simp [Usage.rate, hrate]
    · rcases List.mem_append.1 hr with hr | hr
      · exact (h.bounded r hr c).trans (u.tally.total_le_add c s)
      · obtain rfl := List.mem_singleton.1 hr
        rw [shown_reading]
    · refine List.pairwise_append.2 ⟨h.rising, List.pairwise_singleton _ _, fun r hr r' hr' c => ?_⟩
      obtain rfl := List.mem_singleton.1 hr'
      rw [shown_reading]
      exact (h.bounded r hr c).trans (u.tally.total_le_add c s)

theorem kept_after (b : Backend) (cs : List Call) : (after b cs).Kept b := by
  induction cs using List.reverseRecOn with
  | nil => exact kept_new
  | append_singleton cs a ih =>
    rw [after_concat]
    cases a with
    | line now text => exact ih.line now text
    | restart => exact ih.restart

theorem tally_line {now : Instant} {text : Chars} (hrate : rateOf b text = none)
    (hcount : ∀ c : Counter, c.ofLine b text = none) :
    (u.call b (.line now text)).tally = u.tally := by
  cases hline : b.readLine text with
  | none => rw [call_line_none hline]
  | some s =>
    have ha : s.accepted = none := by simpa [Counter.ofLine, Counter.said, hline] using hcount .accepted
    have hr : s.rejected = none := by simpa [Counter.ofLine, Counter.said, hline] using hcount .rejected
    have hs : s.hashrate = none := by simpa [rateOf, hline] using hrate
    rw [call_line_some hline]
    simp [add, ha, hr, hs, raise]

end Usage

open Usage

/-- After any calls the tally says what its account says, and so does the reading that a line gives.
A line that says nothing gives none, and without a rate and counters it leaves the tally as it is. -/
theorem account_of_calls (b : Backend) (cs : List Call) :
    (after b cs).tally.totals = ((after b cs).sum b .accepted, (after b cs).sum b .rejected) ∧
    (after b cs).tally.hashrate = (after b cs).rate b ∧
    0 ≤ (after b cs).tally.hashrate ∧
    (after b cs).readings.Pairwise
      (fun r r' => r.accepted ≤ r'.accepted ∧ r.rejected ≤ r'.rejected) ∧
    ∀ (now : Instant) (text : Chars),
      (∀ s, b.readLine text = some s → ∃ r,
        (after b (cs ++ [Call.line now text])).readings = (after b cs).readings ++ [r] ∧
        r.accepted = (after b (cs ++ [Call.line now text])).sum b .accepted ∧
        r.rejected = (after b (cs ++ [Call.line now text])).sum b .rejected ∧
        r.hashrate = (after b (cs ++ [Call.line now text])).rate b ∧
        0 ≤ r.hashrate ∧ r.status = s.status ∧ r.timestamp = now) ∧
      (b.readLine text = none →
        (after b (cs ++ [Call.line now text])).readings = (after b cs).readings) ∧
      (rateOf b text = none → (∀ c : Counter, c.ofLine b text = none) →
        (after b (cs ++ [Call.line now text])).tally = (after b cs).tally) := by
  have hkept := kept_after b cs
  refine ⟨?_, hkept.rate, hkept.zero_le, ?_, fun now text => ⟨fun s hs => ?_, fun hnone => ?_,
    fun hrate hcount => ?_⟩⟩
  · exact Prod.ext (hkept.total .accepted) (hkept.total .rejected)
  · exact hkept.rising.imp fun hle => ⟨hle .accepted, hle .rejected⟩
  · have hnext := kept_after b (cs ++ [Call.line now text])
    have hcall := (after_concat b cs (.line now text)).trans (call_line_some hs)
    have htally : (after b (cs ++ [Call.line now text])).tally = (after b cs).tally.add s := by
      rw [hcall]
    have htotal := hnext.total
    have hrate := hnext.rate
    have hle := hnext.zero_le
    rw [htally] at htotal hrate hle
    refine ⟨((after b cs).tally.add s).reading now s.status, ?_, htotal .accepted,
      htotal .rejected, hrate, hle, rfl, rfl⟩
    rw [hcall]
  · rw [after_concat, call_line_none hnone]
  · rw [after_concat, tally_line hrate hcount]

/-- A counter that goes back counts no more, and a stretch without any counts nothing. -/
example (now : Instant) :
    (after .srbMiner [.line now "accepted=5".toList, .line now "accepted=3".toList, .restart,
      .restart, .line now "accepted=2 rejected=1".toList]).tally.totals = (7, 1) := by
  rfl

end Tally
end RigWarden.Log
