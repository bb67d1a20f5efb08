import RigWarden.Proofs.Session.Report
import RigWarden.Proofs.Session.Shares

/-!
# Readings of a session

What the readings of a session show is settled by what its workers wrote, in the order of the log,
and not by when the pump looked: the lines that a worker completes count from where the worker
before it crashed, and they are reported before the worker's own end is.
-/

namespace RigWarden

open Log Text

/-- Whether it tells that a worker has ended by itself. -/
def Control.isExit : Control → Bool
  | exited _ | crashed _ => true
  | restarted _ | launchFailed _ | stopped => false

/-- The number of exits told. -/
def Event.exits (es : List Event) : Nat := (controls es).countP Control.isExit

namespace Event

@[simp] theorem exits_append (es fs : List Event) : exits (es ++ fs) = exits es + exits fs := by
  simp [exits]

@[simp] theorem exits_metrics (rs : List Reading) : exits (rs.map metrics) = 0 := by
  simp [exits]

theorem exits_cons {c : Control} (h : c.isExit = true) (es : List Event) :
    exits (control c :: es) = exits es + 1 := by
  change (c :: controls es).countP Control.isExit = _
  rw [List.countP_cons_of_pos h, exits]

theorem exits_split {before after : List Event} {c : Control} (h : c.isExit = true) :
    exits (before ++ control c :: after) = exits before + 1 + exits after := by
  rw [exits_append, exits_cons h]
  omega

/-- An exit was told earlier where none is told any more. -/
theorem exists_split {es more before after : List Event} {c : Control} (hc : c.isExit = true)
    (hm : exits more = 0) (h : es ++ more = before ++ control c :: after) :
    ∃ after', es = before ++ control c :: after' := by
  have hnone (xs : List Event) (hx : more = xs ++ control c :: after) : False := by
    rw [hx, exits_split hc] at hm
    omega
  rcases List.append_eq_append_iff.1 h with ⟨xs, _, hx⟩ | ⟨xs, hb, hx⟩
  · exact (hnone xs hx).elim
  · cases xs with
    | nil => exact (hnone [] hx.symm).elim
    | cons x xs =>
      obtain ⟨rfl, -⟩ := List.cons.inj hx
      exact ⟨xs, hb⟩

end Event

namespace Log

end Log

/-- A worker is at work, or about to be, as far as the pump knows. -/
def Phase.Attended : Phase → Prop
  | .launching _ | .draining | .polling | .settling _ | .waiting => True
  | _ => False

namespace Pump

variable {p : Pump}

theorem exits_drain (p : Pump) (o : Observation) : Event.exits (p.drain o).2 = 0 := by
  obtain ⟨_, _, rs, h⟩ := p.drain_eq o
  rw [h]
  exact Event.exits_metrics rs

theorem exits_launch (p : Pump) (o : Observation) (n : Nat) :
    Event.exits (p.launch o n).2 = 0 := by
  unfold launch
  dsimp only
  split
  · split <;> rfl
  · rfl

theorem exits_afterExit (p : Pump) (e : WorkerExit) : ∃ phase c, c.isExit = true ∧
    p.afterExit e = (p.goTo phase, [.control c]) ∧
      (phase = .stopping ∨ ∃ n, phase = .backingOff n) := by
  unfold afterExit
  split
  · exact ⟨_, .exited e, rfl, rfl, .inl rfl⟩
  · split
    · exact ⟨_, .crashed e, rfl, rfl, .inl rfl⟩
    · exact ⟨_, .crashed e, rfl, rfl, .inr ⟨_, rfl⟩⟩

/-- Only the step after a look at a worker's last lines tells of its exit. -/
theorem step_quiet (hs : ∀ e, p.phase ≠ .settling e) (hb : ∀ n, p.phase ≠ .backingOff n)
    (o : Observation) :
    Event.exits (p.step o).2 = 0 ∧
      ((p.step o).1.phase.Attended → p.phase.Attended) ∧
      ∀ n, (p.step o).1.phase ≠ .backingOff n := by
  cases hp : p.phase with
  | launching n =>
    obtain ⟨_, _, phase, _, hl, hphase⟩ := p.launch_cases o n
    refine ⟨by rw [step_launching hp, exits_launch], fun _ => trivial, ?_⟩
    rw [step_launching hp, hl]
    rcases hphase with rfl | rfl <;> simp
  | draining =>
    rw [step_draining hp]
    exact ⟨p.exits_drain o, fun _ => trivial, by simp [goTo]⟩
  | polling =>
    obtain ⟨_, _, phase, hl, hphase⟩ := step_polling_cases hp o
    rw [hl]
    refine ⟨rfl, fun _ => trivial, ?_⟩
    rcases hphase with rfl | ⟨e, rfl⟩ <;> simp
  | settling e => exact absurd hp (hs e)
  | backingOff n => exact absurd hp (hb n)
  | waiting =>
    cases ha : o.stopAsked with
    | true =>
      rw [step_waiting_asked hp ha]
      exact ⟨rfl, fun _ => trivial, by simp [goTo]⟩
    | false =>
      rw [step_waiting hp ha]
      exact ⟨rfl, fun _ => trivial, by simp [goTo]⟩
  | stopping =>
    obtain ⟨_, _, phase, hl, hphase⟩ := p.beginStop_cases o
    rw [step_stopping hp, hl]
    rcases hphase with rfl | ⟨w, deadline, rfl⟩ | rfl <;> exact ⟨rfl, id, by simp⟩
  | terminating w deadline =>
    rw [step_terminating hp]
    rcases p.terminate_cases o deadline with ht | ⟨e, ht⟩
    · rw [ht]
      exact ⟨rfl, by simp [hp], by simp [hp]⟩
    · rw [ht]
      exact ⟨rfl, id, by simp [endStop, goTo]⟩
  | finishing =>
    rw [step_finishing hp]
    exact ⟨by rw [Event.exits_append, exits_drain]; rfl, id, by simp [goTo]⟩
  | closing =>
    rw [step_closing hp]
    exact ⟨rfl, id, by simp [goTo]⟩
  | done =>
    rw [step_done hp]
    exact ⟨rfl, by simp [hp], by simp [hp]⟩
  | lost =>
    rw [step_lost hp]
    exact ⟨rfl, by simp [hp], by simp [hp]⟩

end Pump

namespace LoggedSession

variable {s : LoggedSession}

/-- The last worker's exit was told, and nothing was written since. -/
def Ended (s : LoggedSession) : Prop :=
  Event.exits s.sent = s.earlier.length + 1 ∧ s.writing = false

/-- There is one exit for each earlier worker, and perhaps one for the last. -/
structure Counted (s : LoggedSession) : Prop where
  either : Event.exits s.sent = s.earlier.length ∨ s.Ended
  attended : s.pump.phase.Attended → Event.exits s.sent = s.earlier.length
  backingOff : ∀ n, s.pump.phase = .backingOff n → s.Ended

/-- What is reported of some events is what follows from the lines of some outputs. -/
def Covers (b : Backend) (outs : List Bytes) (es : List Event) : Prop :=
  (Event.readings es).map Reading.figures = (followEach b (heard outs)).1

/-- Before an exit is told, all is reported that the worker and those before it said. -/
def ExitsHeard (s : LoggedSession) : Prop :=
  ∀ before c after, s.sent = before ++ .control c :: after → c.isExit = true →
    Event.exits before < s.outputs.length ∧
      Covers s.pump.backend (s.outputs.take (Event.exits before + 1)) before

/-- Only a worker just launched begins to write. -/
theorem mayWrite_of {writing : Bool} {o : Observation} {phase next : Phase}
    (h : mayWrite writing o phase next = true) : writing = true ∨ phase.Attended := by
  unfold mayWrite at h
  split at h
  · exact .inr trivial
  · cases h
  · exact .inl (Bool.and_eq_true_iff.1 h).1
  · cases h
  · exact .inl h

/-- The pump tells of an exit after a last look at the log. -/
theorem step_pump_settling {e : WorkerExit} (hp : s.pump.phase = .settling e) (o : Observation) :
    ∃ c p, c.isExit = true ∧ ¬ p.phase.Attended ∧ p.backend = s.pump.backend ∧
      s.step (.pump o) =
        { s with pump := p, sent := s.sent ++ ((s.pump.drain (s.look o)).2 ++ [.control c]) } := by
  obtain ⟨phase, c, hc, ha, hphase⟩ := (s.pump.drain (s.look o)).1.exits_afterExit e
  have hstep : s.pump.step (s.look o) = ((s.pump.drain (s.look o)).1.goTo phase,
      (s.pump.drain (s.look o)).2 ++ [.control c]) := by rw [Pump.step_settling hp, ha]
  rw [step_pump, advance_of_ne (by simp [hp]), hstep]
  refine ⟨c, (s.pump.drain (s.look o)).1.goTo phase, hc, ?_,
    congrArg (·.1) (s.pump.settings_drain (s.look o)), ?_⟩
  · rcases hphase with rfl | ⟨n, rfl⟩ <;> exact id
  · rcases hphase with rfl | ⟨n, rfl⟩ <;> simp only [hp, mayWrite, Pump.goTo]

/-- After a crash the pump gives up, or the next worker's output begins. -/
theorem step_pump_backingOff {n : Nat} (hp : s.pump.phase = .backingOff n) (o : Observation) :
    (∃ p, ¬ p.phase.Attended ∧ (∀ m, p.phase ≠ .backingOff m) ∧ p.backend = s.pump.backend ∧
      s.step (.pump o) = { s with pump := p }) ∨
    (∃ p m, p.phase = .launching m ∧ p.backend = s.pump.backend ∧
      s.step (.pump o) = { s with pump := p, earlier := s.outputs, current := [] }) := by
  rw [step_pump]
  cases ha : (s.look o).stopAsked with
  | true =>
    rw [Pump.step_backingOff_asked hp ha]
    refine .inl ⟨s.pump.goTo .stopping, id, by simp [Pump.goTo], rfl, ?_⟩
    simp [advance, hp, Pump.goTo, mayWrite]
  | false =>
    rw [Pump.step_backingOff hp ha]
    refine .inr ⟨{ s.pump with tally := s.pump.tally.restarted }.goTo (.launching n), n, rfl, rfl,
      ?_⟩
    simp [advance, hp, Pump.goTo, mayWrite]

/-- No other step of the pump tells of an exit or begins an output. -/
theorem step_pump_quiet (hs : ∀ e, s.pump.phase ≠ .settling e)
    (hb : ∀ n, s.pump.phase ≠ .backingOff n) (o : Observation) :
    ∃ p es writing, Event.exits es = 0 ∧ (p.phase.Attended → s.pump.phase.Attended) ∧
      (∀ n, p.phase ≠ .backingOff n) ∧ p.backend = s.pump.backend ∧
      (writing = true → s.writing = true ∨ s.pump.phase.Attended) ∧
      s.step (.pump o) = { s with pump := p, writing := writing, sent := s.sent ++ es } := by
  obtain ⟨he, hattended, hback⟩ := Pump.step_quiet hs hb (s.look o)
  rw [step_pump, advance_of_ne hb]
  exact ⟨_, _, _, he, hattended, hback, congrArg (·.1) (s.pump.settings_step (s.look o)),
    mayWrite_of, rfl⟩

theorem length_outputs (s : LoggedSession) : s.outputs.length = s.earlier.length + 1 := by
  simp [outputs]

/-- A look at the log tells the rest of what the workers wrote so far. -/
theorem Followed.covers_drain (h : s.Followed) (o : Observation) :
    Covers s.pump.backend s.outputs (s.sent ++ (s.pump.drain (s.look o)).2) := by
  obtain ⟨seen, unread, h⟩ := h
  obtain ⟨tailer, tally, rs, hdrain, hread⟩ := h.read o
  rw [hdrain]
  let p : Pump := { s.pump with tailer := tailer, tally := tally, phase := .done }
  have hdone : Followed { s with pump := p, writing := false, sent := s.sent ++ rs.map .metrics } :=
    hread rfl rfl rfl (by simp) fun _ => rfl
  exact hdone.reports_of_done rfl

namespace ExitsHeard

/-- What was told before stays as it is while outputs that are over do. -/
theorem extend {s' : LoggedSession} (h : s.ExitsHeard) (es : List Event)
    (hb : s'.pump.backend = s.pump.backend) (hs : s'.sent = s.sent ++ es)
    (he : Event.exits es = 0)
    (ho : ∀ n, n < Event.exits s.sent →
      n < s'.outputs.length ∧ s'.outputs.take (n + 1) = s.outputs.take (n + 1)) :
    s'.ExitsHeard := by
  intro before c after hsplit hc
  rw [hs] at hsplit
  obtain ⟨after', hsent⟩ := Event.exists_split hc he hsplit
  have hlt : Event.exits before < Event.exits s.sent := by
    rw [hsent, Event.exits_split hc]
    omega
  obtain ⟨hlen, htake⟩ := ho _ hlt
  rw [hb, htake]
  exact ⟨hlen, (h before c after' hsent hc).2⟩

theorem told (h : s.ExitsHeard) (hf : s.Followed) (ha : Event.exits s.sent = s.earlier.length)
    {p : Pump} (hb : p.backend = s.pump.backend) (c : Control) (o : Observation) :
    ExitsHeard
      { s with pump := p, sent := s.sent ++ ((s.pump.drain (s.look o)).2 ++ [.control c]) } := by
  intro before c' after hsplit hc'
  change s.sent ++ ((s.pump.drain (s.look o)).2 ++ [.control c]) = _ at hsplit
  rw [← List.append_assoc] at hsplit
  change _ ∧ Covers p.backend (s.outputs.take _) before
  rw [hb]
  rcases after.eq_nil_or_concat with rfl | ⟨after', last, rfl⟩
  · obtain ⟨rfl, -⟩ := List.append_inj' hsplit rfl
    have hexits : Event.exits (s.sent ++ (s.pump.drain (s.look o)).2) = s.earlier.length := by
      rw [Event.exits_append, Pump.exits_drain, ha, Nat.add_zero]
    rw [hexits, ← s.length_outputs, List.take_length]
    exact ⟨by simp [outputs], hf.covers_drain o⟩
  · have hinner : s.sent ++ (s.pump.drain (s.look o)).2 = before ++ .control c' :: after' := by
      have h' : s.sent ++ (s.pump.drain (s.look o)).2 ++ [.control c] =
          (before ++ .control c' :: after') ++ [last] := by simpa using hsplit
      exact (List.append_inj' h' rfl).1
    obtain ⟨after'', hsent⟩ := Event.exists_split hc' (s.pump.exits_drain _) hinner
    exact h before c' after'' hsent hc'

end ExitsHeard

/-- A session whose reports follow the log, with the exits of its workers in their places. -/
structure Orderly (s : LoggedSession) : Prop where
  followed : s.Followed
  counted : s.Counted
  exits : s.ExitsHeard

namespace Orderly

theorem write (h : s.Orderly) (bytes : Bytes) : (s.step (.write bytes)).Orderly := by
  have hfollowed := h.followed.step (.write bytes)
  rw [step_write] at hfollowed ⊢
  split at hfollowed
  next hw =>
    have hexits : Event.exits s.sent = s.earlier.length :=
      h.counted.either.resolve_right fun he => by simp [he.2] at hw
    rw [if_pos hw]
    refine ⟨hfollowed, ⟨.inl hexits, h.counted.attended, h.counted.backingOff⟩, ?_⟩
    refine h.exits.extend [] rfl (List.append_nil _).symm rfl fun n hn => ⟨?_, ?_⟩
    · rw [length_outputs]
      exact Nat.lt_succ_of_lt (hexits ▸ hn)
    · have hle : n + 1 ≤ s.earlier.length := hexits ▸ hn
      simp only [outputs, List.take_append_of_le_length hle]
  next hw => rwa [if_neg hw]

theorem settling (h : s.Orderly) {e : WorkerExit} (hp : s.pump.phase = .settling e)
    (o : Observation) : (s.step (.pump o)).Orderly := by
  obtain ⟨c, p, hc, hattended, hb, hstep⟩ := step_pump_settling hp o
  have hexits := h.counted.attended (by rw [hp]; trivial)
  have hw : s.writing = false := by
    obtain ⟨_, _, hf⟩ := h.followed
    exact hf.unwritten (by rw [hp]; trivial)
  have hfollowed := h.followed.step (.pump o)
  rw [hstep] at hfollowed ⊢
  have hended : Event.exits (s.sent ++ ((s.pump.drain (s.look o)).2 ++ [.control c])) =
      s.earlier.length + 1 := by
    rw [← List.append_assoc, Event.exits_append _ [_], Event.exits_cons hc, Event.exits_append,
      Pump.exits_drain, hexits]
    rfl
  exact ⟨hfollowed, ⟨.inr ⟨hended, hw⟩, fun ha => absurd ha hattended, fun _ _ => ⟨hended, hw⟩⟩,
    h.exits.told h.followed hexits hb c o⟩

theorem backingOff (h : s.Orderly) {n : Nat} (hp : s.pump.phase = .backingOff n)
    (o : Observation) : (s.step (.pump o)).Orderly := by
  have hended := h.counted.backingOff n hp
  have hfollowed := h.followed.step (.pump o)
  rcases step_pump_backingOff hp o with ⟨p, hattended, hback, hb, hstep⟩ |
    ⟨p, m, hlaunching, hb, hstep⟩
  · rw [hstep] at hfollowed ⊢
    refine ⟨hfollowed,
      ⟨.inr hended, fun ha => absurd ha hattended, fun m hm => absurd hm (hback m)⟩,
      h.exits.extend [] hb (List.append_nil _).symm rfl fun n hn => ⟨?_, rfl⟩⟩
    rw [hended.1] at hn
    exact s.length_outputs ▸ hn
  · rw [hstep] at hfollowed ⊢
    have hexits : Event.exits s.sent = s.outputs.length := hended.1.trans s.length_outputs.symm
    refine ⟨hfollowed, ⟨.inl hexits, fun _ => hexits, fun k hk => ?_⟩,
      h.exits.extend [] hb (List.append_nil _).symm rfl fun n hn => ⟨?_, ?_⟩⟩
    · exact absurd (hlaunching.symm.trans hk) (by simp)
    · rw [length_outputs]
      exact Nat.lt_succ_of_lt (hexits ▸ hn)
    · exact List.take_append_of_le_length (hexits ▸ hn)

theorem quiet (h : s.Orderly) (hs : ∀ e, s.pump.phase ≠ .settling e)
    (hb : ∀ n, s.pump.phase ≠ .backingOff n) (o : Observation) : (s.step (.pump o)).Orderly := by
  obtain ⟨p, es, writing, he, hattended, hback, hbackend, hw, hstep⟩ := step_pump_quiet hs hb o
  have hfollowed := h.followed.step (.pump o)
  rw [hstep] at hfollowed ⊢
  have hsame : Event.exits (s.sent ++ es) = Event.exits s.sent := by
    rw [Event.exits_append, he, Nat.add_zero]
  refine ⟨hfollowed, ⟨?_, fun ha => hsame.trans (h.counted.attended (hattended ha)),
    fun n hn => absurd hn (hback n)⟩, h.exits.extend es hbackend rfl he fun n hn => ⟨?_, rfl⟩⟩
  · refine h.counted.either.imp hsame.trans fun hended => ⟨hsame.trans hended.1, ?_⟩
    refine Bool.eq_false_iff.2 fun hwrites => ?_
    rcases hw hwrites with hwriting | ha
    · simp [hended.2] at hwriting
    · have hexits := h.counted.attended ha
      have hone := hended.1
      omega
  · change n < s.outputs.length
    rw [length_outputs]
    rcases h.counted.either with hexits | hended
    · omega
    · exact hended.1 ▸ hn

theorem pump (h : s.Orderly) (o : Observation) : (s.step (.pump o)).Orderly := by
  by_cases hs : ∃ e, s.pump.phase = .settling e
  · obtain ⟨e, hp⟩ := hs
    exact h.settling hp o
  · by_cases hb : ∃ n, s.pump.phase = .backingOff n
    · obtain ⟨n, hp⟩ := hb
      exact h.backingOff hp o
    · exact h.quiet (fun e hp => hs ⟨e, hp⟩) (fun n hp => hb ⟨n, hp⟩) o

theorem run (h : s.Orderly) (steps : List Step) : (s.run steps).Orderly := by
  induction steps generalizing s with
  | nil => exact h
  | cons a steps ih =>
    cases a with
    | write bytes => exact ih (h.write bytes)
    | pump o => exact ih (h.pump o)

end Orderly

theorem run_append (s : LoggedSession) (as bs : List Step) :
    s.run (as ++ bs) = (s.run as).run bs := List.foldl_append

/-- Somewhere in the run a worker is to be stopped by a moment that the clock cannot show. -/
def Overruns (s : LoggedSession) (steps : List Step) : Prop :=
  ∃ before o after, steps = before ++ .pump o :: after ∧ (s.run before).pump.phase = .stopping ∧
    (s.run before).pump.supervisor.worker.isSome ∧ o.clock.add? s.pump.grace = none

theorem phase_step_pump (s : LoggedSession) (o : Observation) :
    (s.step (.pump o)).pump.phase = (s.pump.step (s.look o)).1.phase :=
  congrArg Pump.phase (s.pump_advance o _ _)

theorem lost_step (h : s.pump.phase = .lost) (a : Step) : (s.step a).pump.phase = .lost := by
  cases a with
  | write bytes =>
    rw [step_write]
    split <;> exact h
  | pump o => rw [phase_step_pump, Pump.step_lost h, h]

theorem lost_run (h : s.pump.phase = .lost) (steps : List Step) :
    (s.run steps).pump.phase = .lost := by
  induction steps generalizing s with
  | nil => exact h
  | cons a steps ih => exact ih (lost_step h a)

theorem phase_step_eq_lost_iff (hl : s.pump.phase ≠ .lost) (a : Step) :
    (s.step a).pump.phase = .lost ↔ ∃ o, a = .pump o ∧ s.pump.phase = .stopping ∧
      s.pump.supervisor.worker.isSome ∧ o.clock.add? s.pump.grace = none := by
  cases a with
  | write bytes =>
    refine iff_of_false (fun h => hl ?_) (by simp)
    rw [step_write] at h
    split at h <;> exact h
  | pump o =>
    rw [phase_step_pump]
    by_cases hs : s.pump.phase = .stopping
    · rw [Pump.step_stopping hs, Pump.phase_beginStop_eq_lost_iff]
      simp [hs, look]
    · simp [Pump.phase_step_ne_lost hs hl, hs]

/-- A session is lost exactly where a deadline overruns the clock. -/
theorem phase_run_eq_lost_iff (hp : s.pump.phase ≠ .lost) (steps : List Step) :
    (s.run steps).pump.phase = .lost ↔ s.Overruns steps := by
  have hgrace (steps : List Step) : (s.run steps).pump.grace = s.pump.grace :=
    congrArg (·.2.2.2) (s.settings_run steps)
  constructor
  · intro h
    induction steps using List.reverseRecOn with
    | nil => exact absurd h hp
    | append_singleton steps a ih =>
      by_cases hl : (s.run steps).pump.phase = .lost
      · obtain ⟨before, o, after, rfl, hover⟩ := ih hl
        exact ⟨before, o, after ++ [a], by simp, hover⟩
      · rw [run_append] at h
        obtain ⟨o, rfl, hs, hw, hc⟩ := (phase_step_eq_lost_iff hl a).1 h
        exact ⟨steps, o, [], rfl, hs, hw, hgrace steps ▸ hc⟩
  · rintro ⟨before, o, after, rfl, hs, hw, hc⟩
    rw [run_append]
    refine lost_run ((phase_step_eq_lost_iff (by simp [hs]) (.pump o)).2 ?_) after
    exact ⟨o, rfl, hs, hw, hgrace before ▸ hc⟩

end LoggedSession
end RigWarden
