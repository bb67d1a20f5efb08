import Mathlib.Data.List.Induction
import RigWarden.Proofs.Session.PumpStep

/-!
# What a session reports

Every crash that is followed by a restart is announced with it, one ending says how the last worker
went, and a final event closes the session. `Told` ties the control events sent so far to the phase
of the pump; each step keeps it. A pump that is lost to an overrun deadline never reports its end.
-/

namespace RigWarden

/-- The crashes with the restarts that follow them. -/
def Control.rounds (exits : List WorkerExit) : List Control :=
  exits.zipIdx.flatMap fun (e, i) => [.crashed e, .restarted (i + 1)]

@[simp] theorem Control.rounds_nil : rounds [] = [] := rfl

theorem Control.rounds_snoc (exits : List WorkerExit) (e : WorkerExit) :
    rounds (exits ++ [e]) = rounds exits ++ [.crashed e, .restarted (exits.length + 1)] := by
  simp [rounds, List.zipIdx_append]

theorem Control.stopped_notMem_rounds (exits : List WorkerExit) : stopped ∉ rounds exits := by
  simp [rounds]

/-- What a session says about its last worker. -/
inductive SessionEnd where
  /-- Nothing, as the worker was stopped on request. -/
  | quiet
  | exited (e : WorkerExit)
  | crashed (e : WorkerExit)
  | unlaunched (reason : String)
  | lostRestart (e : WorkerExit) (reason : String)

namespace SessionEnd

def controls : SessionEnd → List Control
  | quiet => []
  | exited e => [.exited e]
  | crashed e => [.crashed e]
  | unlaunched reason => [.launchFailed reason]
  | lostRestart e reason => [.crashed e, .launchFailed reason]

/-- The state that is published in the end. -/
def state : SessionEnd → WorkerState
  | quiet => .stopped
  | exited _ => .stopped
  | crashed _ => .crashed
  | unlaunched _ => .crashed
  | lostRestart _ _ => .crashed

/-- Whether a session can end so after some restarts; `asked` says that a stop was asked for. -/
def Possible (restarts limit : Nat) (asked : Prop) : SessionEnd → Prop
  | quiet => asked
  | exited e => e.isSuccess = true
  | crashed e => e.isSuccess = false ∧ (restarts < limit → asked)
  | unlaunched _ => restarts = 0
  | lostRestart e _ => e.isSuccess = false ∧ restarts < limit

theorem state_ne (x : SessionEnd) : x.state ≠ .running ∧ x.state ≠ .stopping := by
  cases x <;> simp [state]

end SessionEnd

namespace Pump

/-- A complete report: rounds of crashes and restarts, an ending, and nothing after the last
event. -/
def Reported (limit : Nat) (asked : Prop) (published : WorkerState) (sent : List Event) : Prop :=
  ∃ (exits : List WorkerExit) (ending : SessionEnd) (before : List Event),
    (∀ e ∈ exits, e.isSuccess = false) ∧ exits.length ≤ limit ∧
    ending.Possible exits.length limit asked ∧ published = ending.state ∧
    sent = before ++ [.control .stopped] ∧
    Event.controls before = Control.rounds exits ++ ending.controls

/-- What was sent can still grow into a complete report. -/
def Unfolding (limit : Nat) (sent : List Event) : Prop :=
  ∃ (exits : List WorkerExit) (ending : SessionEnd),
    (∀ e ∈ exits, e.isSuccess = false) ∧ exits.length ≤ limit ∧
    ending.Possible exits.length limit True ∧
    Event.controls sent <+: Control.rounds exits ++ ending.controls ++ [.stopped]

def Asked (os : List Observation) : Prop := ∃ o ∈ os, o.stopAsked = true

/-- The run comes to stop a worker when the deadline for it lies beyond the clock. -/
def Overruns (p : Pump) (os : List Observation) : Prop :=
  ∃ before o after, os = before ++ o :: after ∧ (p.run before).1.phase = .stopping ∧
    (p.run before).1.supervisor.worker.isSome ∧ o.clock.add? p.grace = none

structure Running (p : Pump) : Prop where
  state : p.supervisor.state = .running
  worker : ∃ w, p.supervisor.worker = some w

/-- No worker is left, and the others see how that came. -/
structure Resting (p : Pump) (s : WorkerState) : Prop where
  state : p.supervisor.state = s
  worker : p.supervisor.worker = none
  published : p.published = s

/-- What the control events sent so far say in each phase, after the given crashes that were
followed by a restart. -/
def ToldAfter (p : Pump) (asked : Prop) (exits : List WorkerExit) (sent : List Event) : Prop :=
  match p.phase with
  | .launching n =>
    p.supervisor.worker = none ∧
    (n = 0 ∧ exits = [] ∧ Event.controls sent = [] ∨
      n = exits.length + 1 ∧ exits.length < p.policy.maxRestarts ∧ ∃ e, e.isSuccess = false ∧
        Event.controls sent = Control.rounds exits ++ [.crashed e])
  | .draining | .polling | .waiting =>
    p.Running ∧ p.restarts = exits.length ∧ Event.controls sent = Control.rounds exits
  | .settling e =>
    p.Resting (Supervisor.afterExit e) ∧ p.restarts = exits.length ∧
    Event.controls sent = Control.rounds exits
  | .backingOff n =>
    p.Resting .crashed ∧ n = exits.length + 1 ∧ exits.length < p.policy.maxRestarts ∧
    ∃ e, e.isSuccess = false ∧ Event.controls sent = Control.rounds exits ++ [.crashed e]
  | .stopping =>
    p.Running ∧ asked ∧ Event.controls sent = Control.rounds exits ∨
    ∃ x : SessionEnd, p.Resting x.state ∧ x.Possible exits.length p.policy.maxRestarts asked ∧
      Event.controls sent = Control.rounds exits ++ x.controls
  | .terminating _ _ =>
    p.supervisor.worker = none ∧ asked ∧ Event.controls sent = Control.rounds exits
  | .finishing =>
    ∃ x : SessionEnd, p.Resting x.state ∧ x.Possible exits.length p.policy.maxRestarts asked ∧
      Event.controls sent = Control.rounds exits ++ x.controls
  | .closing | .done =>
    ∃ (x : SessionEnd) (before : List Event), p.Resting x.state ∧
      x.Possible exits.length p.policy.maxRestarts asked ∧
      sent = before ++ [.control .stopped] ∧
      Event.controls before = Control.rounds exits ++ x.controls
  | .lost => asked ∧ Event.controls sent = Control.rounds exits

def Told (p : Pump) (asked : Prop) (sent : List Event) : Prop :=
  ∃ exits : List WorkerExit, (∀ e ∈ exits, e.isSuccess = false) ∧
    exits.length ≤ p.policy.maxRestarts ∧ p.ToldAfter asked exits sent

section steps

variable {p : Pump} {asked : Prop} {sent : List Event}

theorem Running.of_eq {p q : Pump} (h : p.Running) (hs : q.supervisor = p.supervisor) :
    q.Running :=
  ⟨hs ▸ h.state, hs ▸ h.worker⟩

theorem Told.launching {n : Nat} (hp : p.phase = .launching n) (h : p.Told asked sent)
    (o : Observation) : (p.step o).1.Told asked (sent ++ (p.step o).2) := by
  obtain ⟨exits, hf, hl, ht⟩ := h
  simp only [ToldAfter, hp] at ht
  obtain ⟨hw, ht⟩ := ht
  rw [step_launching hp]
  cases ho : o.spawned with
  | ok w =>
    rw [launch_ok hw ho]
    rcases ht with ⟨rfl, rfl, hc⟩ | ⟨rfl, hlt, e, he, hc⟩
    · exact ⟨[], hf, hl, ⟨rfl, w, rfl⟩, rfl, by simp [hc]⟩
    · refine ⟨exits ++ [e], ?_, ?_, ⟨rfl, w, rfl⟩, ?_, ?_⟩
      · simpa [or_imp, forall_and, he] using hf
      · rw [List.length_append]
        exact hlt
      · simp
      · simp [hc, Control.rounds_snoc]
  | error e =>
    rw [launch_error hw ho]
    rcases ht with ⟨rfl, rfl, hc⟩ | ⟨rfl, hlt, x, hx, hc⟩
    · exact ⟨[], hf, hl, .inr ⟨.unlaunched e.message, ⟨rfl, hw, rfl⟩, rfl,
        by simp [hc, SessionEnd.controls]⟩⟩
    · exact ⟨exits, hf, hl, .inr ⟨.lostRestart x e.message, ⟨rfl, hw, rfl⟩, ⟨hx, hlt⟩,
        by simp [hc, SessionEnd.controls]⟩⟩

theorem Told.draining (hp : p.phase = .draining) (h : p.Told asked sent) (o : Observation) :
    (p.step o).1.Told asked (sent ++ (p.step o).2) := by
  obtain ⟨exits, hf, hl, ht⟩ := h
  simp only [ToldAfter, hp] at ht
  obtain ⟨tailer, tally, rs, hd⟩ := p.drain_eq o
  rw [step_draining hp, hd]
  exact ⟨exits, hf, hl, ht.1.of_eq rfl, ht.2.1, by simp [ht.2.2]⟩

theorem Told.polling (hp : p.phase = .polling) (h : p.Told asked sent) (o : Observation) :
    (p.step o).1.Told asked (sent ++ (p.step o).2) := by
  obtain ⟨exits, hf, hl, ht⟩ := h
  simp only [ToldAfter, hp] at ht
  obtain ⟨hr, hk, hc⟩ := ht
  obtain ⟨w, hw⟩ := hr.worker
  cases ho : o.ended with
  | none =>
    rw [step_polling_none hp ho]
    exact ⟨exits, hf, hl, hr.of_eq rfl, hk, by simp [hc]⟩
  | some e =>
    rw [step_polling_some hp hr.state hw ho]
    exact ⟨exits, hf, hl, ⟨rfl, rfl, rfl⟩, hk, by simp [hc]⟩

theorem told_afterExit {e : WorkerExit} {exits : List WorkerExit}
    (hf : ∀ e ∈ exits, e.isSuccess = false) (hl : exits.length ≤ p.policy.maxRestarts)
    (hr : p.Resting (Supervisor.afterExit e)) (hk : p.restarts = exits.length)
    (hc : Event.controls sent = Control.rounds exits) :
    (p.afterExit e).1.Told asked (sent ++ (p.afterExit e).2) := by
  obtain ⟨hs, hw, hpub⟩ := hr
  cases he : e.isSuccess with
  | true =>
    rw [Supervisor.afterExit_success he] at hs hpub
    rw [afterExit_success he]
    exact ⟨exits, hf, hl, .inr ⟨.exited e, ⟨hs, hw, hpub⟩, he, by simp [hc, SessionEnd.controls]⟩⟩
  | false =>
    rw [Supervisor.afterExit_failure he] at hs hpub
    rcases Nat.lt_or_ge p.restarts p.policy.maxRestarts with hlt | hge
    · rw [afterExit_again he hlt]
      exact ⟨exits, hf, hl, ⟨hs, hw, hpub⟩, by simp [hk], hk ▸ hlt, e, he, by simp [hc]⟩
    · rw [afterExit_last he hge]
      refine ⟨exits, hf, hl, .inr ⟨.crashed e, ⟨hs, hw, hpub⟩, ⟨he, fun hlt => ?_⟩, ?_⟩⟩
      · exact absurd hlt (Nat.not_lt.2 (hk ▸ hge))
      · simp [hc, SessionEnd.controls]

theorem Told.settling {e : WorkerExit} (hp : p.phase = .settling e) (h : p.Told asked sent)
    (o : Observation) : (p.step o).1.Told asked (sent ++ (p.step o).2) := by
  obtain ⟨exits, hf, hl, ht⟩ := h
  simp only [ToldAfter, hp] at ht
  obtain ⟨hr, hk, hc⟩ := ht
  obtain ⟨tailer, tally, rs, hd⟩ := p.drain_eq o
  rw [step_settling hp, hd, ← List.append_assoc]
  exact told_afterExit hf hl ⟨hr.state, hr.worker, hr.published⟩ hk (by simp [hc])

theorem Told.backingOff {n : Nat} (hp : p.phase = .backingOff n) (h : p.Told asked sent)
    {o : Observation} (ha : o.stopAsked = true → asked) :
    (p.step o).1.Told asked (sent ++ (p.step o).2) := by
  obtain ⟨exits, hf, hl, ht⟩ := h
  simp only [ToldAfter, hp] at ht
  obtain ⟨hr, hn, hlt, e, he, hc⟩ := ht
  cases ho : o.stopAsked with
  | true =>
    rw [step_backingOff_asked hp ho]
    exact ⟨exits, hf, hl, .inr ⟨.crashed e, ⟨hr.state, hr.worker, hr.published⟩,
      ⟨he, fun _ => ha ho⟩, by simp [hc, SessionEnd.controls]⟩⟩
  | false =>
    rw [step_backingOff hp ho]
    exact ⟨exits, hf, hl, hr.worker, .inr ⟨hn, hlt, e, he, by simp [hc]⟩⟩

theorem Told.waiting (hp : p.phase = .waiting) (h : p.Told asked sent) {o : Observation}
    (ha : o.stopAsked = true → asked) :
    (p.step o).1.Told asked (sent ++ (p.step o).2) := by
  obtain ⟨exits, hf, hl, ht⟩ := h
  simp only [ToldAfter, hp] at ht
  obtain ⟨hr, hk, hc⟩ := ht
  cases ho : o.stopAsked with
  | true =>
    rw [step_waiting_asked hp ho]
    exact ⟨exits, hf, hl, .inl ⟨hr.of_eq rfl, ha ho, by simp [hc]⟩⟩
  | false =>
    rw [step_waiting hp ho]
    exact ⟨exits, hf, hl, hr.of_eq rfl, hk, by simp [hc]⟩

theorem Told.stopping (hp : p.phase = .stopping) (h : p.Told asked sent) (o : Observation) :
    (p.step o).1.Told asked (sent ++ (p.step o).2) := by
  obtain ⟨exits, hf, hl, ht⟩ := h
  simp only [ToldAfter, hp] at ht
  rw [step_stopping hp]
  rcases ht with ⟨hr, hask, hc⟩ | ⟨x, hr, hx, hc⟩
  · obtain ⟨w, hw⟩ := hr.worker
    cases hd : o.clock.add? p.grace with
    | some deadline =>
      rw [beginStop_some hw hd]
      exact ⟨exits, hf, hl, rfl, hask, by simp [hc]⟩
    | none =>
      rw [beginStop_lost hw hd]
      exact ⟨exits, hf, hl, hask, by simp [hc]⟩
  · rw [beginStop_resting hr.worker (hr.state ▸ x.state_ne.1) (hr.state ▸ x.state_ne.2)]
    exact ⟨exits, hf, hl, x, ⟨hr.state, hr.worker, hr.state⟩, hx, by simp [hc]⟩

theorem Told.terminating {w : Nat} {deadline : Clock} (hp : p.phase = .terminating w deadline)
    (h : p.Told asked sent) (o : Observation) :
    (p.step o).1.Told asked (sent ++ (p.step o).2) := by
  rw [step_terminating hp]
  rcases p.terminate_cases o deadline with ht | ⟨e, ht⟩
  · rw [ht, List.append_nil]
    exact h
  · rw [ht]
    obtain ⟨exits, hf, hl, ht⟩ := h
    simp only [ToldAfter, hp] at ht
    obtain ⟨hw, hask, hc⟩ := ht
    exact ⟨exits, hf, hl, .quiet, ⟨rfl, hw, rfl⟩, hask, by simp [hc, SessionEnd.controls]⟩

theorem Told.finishing (hp : p.phase = .finishing) (h : p.Told asked sent) (o : Observation) :
    (p.step o).1.Told asked (sent ++ (p.step o).2) := by
  obtain ⟨exits, hf, hl, ht⟩ := h
  simp only [ToldAfter, hp] at ht
  obtain ⟨x, hr, hx, hc⟩ := ht
  obtain ⟨tailer, tally, rs, hd⟩ := p.drain_eq o
  rw [step_finishing hp, hd]
  exact ⟨exits, hf, hl, x, sent ++ rs.map .metrics, ⟨hr.state, hr.worker, hr.published⟩, hx,
    by simp, by simp [hc]⟩

theorem Told.closing (hp : p.phase = .closing) (h : p.Told asked sent) (o : Observation) :
    (p.step o).1.Told asked (sent ++ (p.step o).2) := by
  obtain ⟨exits, hf, hl, ht⟩ := h
  simp only [ToldAfter, hp] at ht
  obtain ⟨x, before, hr, hx, hs, hc⟩ := ht
  rw [step_closing hp]
  exact ⟨exits, hf, hl, x, before, ⟨hr.state, hr.worker, hr.published⟩, hx, by simpa using hs, hc⟩

theorem Told.step (h : p.Told asked sent) {o : Observation} (ha : o.stopAsked = true → asked) :
    (p.step o).1.Told asked (sent ++ (p.step o).2) := by
  cases hp : p.phase with
  | launching n => exact h.launching hp o
  | draining => exact h.draining hp o
  | polling => exact h.polling hp o
  | settling e => exact h.settling hp o
  | backingOff n => exact h.backingOff hp ha
  | waiting => exact h.waiting hp ha
  | stopping => exact h.stopping hp o
  | terminating w deadline => exact h.terminating hp o
  | finishing => exact h.finishing hp o
  | closing => exact h.closing hp o
  | done => simpa [step_done hp] using h
  | lost => simpa [step_lost hp] using h

theorem Told.run (h : p.Told asked sent) {os : List Observation}
    (ha : ∀ o ∈ os, o.stopAsked = true → asked) :
    (p.run os).1.Told asked (sent ++ (p.run os).2) := by
  induction os generalizing p sent with
  | nil => simpa using h
  | cons o os ih =>
    have ho := h.step (ha o List.mem_cons_self)
    have hos := ih ho fun o' h' => ha o' (List.mem_cons_of_mem o h')
    simpa only [run_cons, List.append_assoc] using hos

theorem told_new (b : Backend) (program : String) (policy : RestartPolicy) (grace : Duration)
    (tailer : Log.Tailer) (asked : Prop) :
    (new b program policy grace tailer).Told asked [] :=
  ⟨[], nofun, Nat.zero_le _, rfl, .inl ⟨rfl, rfl, rfl⟩⟩

theorem Told.reported (h : p.Told asked sent) (hp : p.phase = .closing ∨ p.phase = .done) :
    Reported p.policy.maxRestarts asked p.published sent := by
  obtain ⟨exits, hf, hl, ht⟩ := h
  rcases hp with hp | hp <;> simp only [ToldAfter, hp] at ht <;>
    obtain ⟨x, before, hr, hx, hs, hc⟩ := ht <;>
    exact ⟨exits, x, before, hf, hl, hx, hr.published, hs, hc⟩

theorem Told.not_reported (h : p.Told asked sent) (hp : p.phase = .lost) {limit : Nat}
    {asked' : Prop} {published : WorkerState} : ¬ Reported limit asked' published sent := by
  rintro ⟨_, _, before, _, _, _, _, hs, _⟩
  obtain ⟨exits, _, _, ht⟩ := h
  simp only [ToldAfter, hp] at ht
  apply Control.stopped_notMem_rounds exits
  rw [← ht.2, hs]
  simp

theorem Told.unfolding (h : p.Told True sent) : Unfolding p.policy.maxRestarts sent := by
  obtain ⟨exits, hf, hl, ht⟩ := h
  have quiet (hc : Event.controls sent = Control.rounds exits) :
      Unfolding p.policy.maxRestarts sent :=
    ⟨exits, .quiet, hf, hl, trivial, by simp [hc]⟩
  have crashed {e : WorkerExit} (he : e.isSuccess = false)
      (hc : Event.controls sent = Control.rounds exits ++ [.crashed e]) :
      Unfolding p.policy.maxRestarts sent :=
    ⟨exits, .crashed e, hf, hl, ⟨he, fun _ => trivial⟩, by simp [hc, SessionEnd.controls]⟩
  have ended {x : SessionEnd} (hx : x.Possible exits.length p.policy.maxRestarts True)
      (hc : Event.controls sent = Control.rounds exits ++ x.controls) :
      Unfolding p.policy.maxRestarts sent :=
    ⟨exits, x, hf, hl, hx, by simp [hc]⟩
  cases hp : p.phase with
  | launching n =>
    simp only [ToldAfter, hp] at ht
    rcases ht with ⟨_, ⟨_, rfl, hc⟩ | ⟨_, _, e, he, hc⟩⟩
    · exact quiet hc
    · exact crashed he hc
  | draining | polling | waiting | settling e | terminating w deadline =>
    simp only [ToldAfter, hp] at ht
    exact quiet ht.2.2
  | backingOff n =>
    simp only [ToldAfter, hp] at ht
    obtain ⟨_, _, _, e, he, hc⟩ := ht
    exact crashed he hc
  | stopping =>
    simp only [ToldAfter, hp] at ht
    rcases ht with ht | ⟨x, _, hx, hc⟩
    · exact quiet ht.2.2
    · exact ended hx hc
  | finishing =>
    simp only [ToldAfter, hp] at ht
    obtain ⟨x, _, hx, hc⟩ := ht
    exact ended hx hc
  | closing | done =>
    simp only [ToldAfter, hp] at ht
    obtain ⟨x, before, _, hx, rfl, hc⟩ := ht
    exact ⟨exits, x, hf, hl, hx, by simp [hc]⟩
  | lost =>
    simp only [ToldAfter, hp] at ht
    exact quiet ht.2

end steps

section overruns

variable {p : Pump}

theorem phase_beginStop_eq_lost_iff (p : Pump) (o : Observation) :
    (p.beginStop o).phase = .lost ↔
      p.supervisor.worker.isSome ∧ o.clock.add? p.grace = none := by
  cases hw : p.supervisor.worker with
  | none => simp [beginStop, Supervisor.beginStop, hw, goTo]
  | some w =>
    cases hd : o.clock.add? p.grace with
    | some deadline => simp [beginStop_some hw hd]
    | none => simp [beginStop_lost hw hd]

theorem phase_step_ne_lost (hs : p.phase ≠ .stopping) (hl : p.phase ≠ .lost) (o : Observation) :
    (p.step o).1.phase ≠ .lost := by
  cases hp : p.phase with
  | launching n =>
    obtain ⟨_, _, _, _, h, hphase⟩ := p.launch_cases o n
    rw [step_launching hp, h]
    rcases hphase with rfl | rfl <;> simp
  | draining => simp [step_draining hp, goTo]
  | polling =>
    obtain ⟨_, _, _, h, hphase⟩ := step_polling_cases hp o
    rw [h]
    rcases hphase with rfl | ⟨e, rfl⟩ <;> simp
  | settling e =>
    obtain ⟨_, _, h, hphase⟩ := (p.drain o).1.afterExit_cases e
    rw [step_settling hp, h]
    rcases hphase with rfl | ⟨n, rfl⟩ <;> simp [goTo]
  | backingOff n =>
    simp only [step, hp]
    split <;> simp [goTo]
  | waiting =>
    simp only [step, hp, goTo]
    split <;> simp
  | stopping => exact absurd hp hs
  | terminating w deadline =>
    rw [step_terminating hp]
    rcases p.terminate_cases o deadline with ht | ⟨e, ht⟩
    · simp [ht, hp]
    · simp [ht, endStop, goTo]
  | finishing => simp [step_finishing hp, goTo]
  | closing => simp [step_closing hp, goTo]
  | done => simp [step_done hp, hp]
  | lost => exact absurd hp hl

theorem overruns_nil : ¬ p.Overruns [] := by
  rintro ⟨before, o, after, h, _⟩
  simp at h

theorem overruns_snoc (os : List Observation) (o : Observation) :
    p.Overruns (os ++ [o]) ↔ p.Overruns os ∨
      (p.run os).1.phase = .stopping ∧ (p.run os).1.supervisor.worker.isSome ∧
        o.clock.add? p.grace = none := by
  constructor
  · rintro ⟨before, x, after, h, hx⟩
    rcases after.eq_nil_or_concat with rfl | ⟨after', y, rfl⟩
    · obtain ⟨rfl, hox⟩ := List.append_inj' h rfl
      cases hox
      exact .inr hx
    · refine .inl ⟨before, x, after', ?_, hx⟩
      have h' : os ++ [o] = (before ++ x :: after') ++ [y] := by simpa using h
      exact (List.append_inj' h' rfl).1
  · rintro (⟨before, x, after, rfl, hx⟩ | hx)
    · exact ⟨before, x, after ++ [o], by simp, hx⟩
    · exact ⟨os, o, [], rfl, hx⟩

/-- A run loses its pump exactly by overrunning a deadline. -/
theorem phase_run_eq_lost_iff (hp : p.phase ≠ .lost) (os : List Observation) :
    (p.run os).1.phase = .lost ↔ p.Overruns os := by
  induction os using List.reverseRecOn with
  | nil => exact iff_of_false hp overruns_nil
  | append_singleton os o ih =>
    rw [overruns_snoc, ← ih, run_snoc]
    by_cases hl : (p.run os).1.phase = .lost
    · simp [step_lost hl, hl]
    · by_cases hs : (p.run os).1.phase = .stopping
      · rw [step_stopping hs, phase_beginStop_eq_lost_iff, grace_run]
        simp [hs]
      · simp [phase_step_ne_lost hs hl, hl, hs]

end overruns

/-- What a session has sent is at every moment the start of a complete report. Once its thread has
ended the report is complete, unless the deadline for a worker lay beyond the clock. -/
theorem reported_iff_not_overruns (b : Backend) (program : String) (policy : RestartPolicy)
    (grace : Duration) (tailer : Log.Tailer) (os : List Observation) :
    let p := new b program policy grace tailer
    Unfolding policy.maxRestarts (p.run os).2 ∧
    ((p.run os).1.isOver = true →
      (Reported policy.maxRestarts (Asked os) (p.run os).1.published (p.run os).2 ↔
        ¬ p.Overruns os)) := by
  intro p
  have hm : (p.run os).1.policy.maxRestarts = policy.maxRestarts := by rw [policy_run]; rfl
  have always : (p.run os).1.Told True (p.run os).2 :=
    (told_new b program policy grace tailer True).run fun _ _ _ => trivial
  have told : (p.run os).1.Told (Asked os) (p.run os).2 :=
    (told_new b program policy grace tailer (Asked os)).run fun o ho ha => ⟨o, ho, ha⟩
  refine ⟨hm ▸ always.unfolding, fun hover => ?_⟩
  rw [← phase_run_eq_lost_iff (by simp [p, new]) os]
  rcases isOver_iff.1 hover with hd | hl
  · simp only [hd, reduceCtorEq, not_false_eq_true, iff_true]
    exact hm ▸ told.reported (.inr hd)
  · simp only [hl, not_true_eq_false, iff_false]
    exact told.not_reported hl

/-- A look at a worker that goes on quietly while a stop is asked for. -/
def quietLook (clock : Clock) : Observation :=
  { now := default, clock := clock, log := .absent, spawned := .ok 0, ended := none,
    stopAsked := true, killed := .unknown }

/-- A session whose worker is killed at once when the stop is asked for. -/
def promptKill : Pump := new .xmrig "xmrig" {} .zero .fromStart

theorem promptKill_reported :
    (promptKill.run (List.replicate 8 (quietLook ⟨1, 0⟩))).1.isOver = true ∧
      Reported 0 (Asked (List.replicate 8 (quietLook ⟨1, 0⟩)))
        (promptKill.run (List.replicate 8 (quietLook ⟨1, 0⟩))).1.published
        (promptKill.run (List.replicate 8 (quietLook ⟨1, 0⟩))).2 := by
  have hover : (promptKill.run (List.replicate 8 (quietLook ⟨1, 0⟩))).1.isOver = true := by decide
  have hn : ¬ promptKill.Overruns (List.replicate 8 (quietLook ⟨1, 0⟩)) :=
    (phase_run_eq_lost_iff (by decide) _).not.1 (by decide)
  have h := (reported_iff_not_overruns .xmrig "xmrig" {} .zero .fromStart
    (List.replicate 8 (quietLook ⟨1, 0⟩))).2 hover
  exact ⟨hover, h.2 hn⟩

/-- With the longest grace period the first stop after the clock's first second loses the pump. -/
theorem not_always_reported : ¬ ∀ (b : Backend) (program : String) (policy : RestartPolicy)
    (grace : Duration) (tailer : Log.Tailer) (os : List Observation),
    ((new b program policy grace tailer).run os).1.isOver = true →
    Reported policy.maxRestarts (Asked os) ((new b program policy grace tailer).run os).1.published
      ((new b program policy grace tailer).run os).2 := by
  intro h
  obtain ⟨_, _, before, _, _, _, _, hs, _⟩ := h .xmrig "xmrig" {}
    (.ofSecs 9223372036854775807) .fromStart (List.replicate 5 (quietLook ⟨1, 0⟩)) (by decide)
  have hnil : ((new .xmrig "xmrig" {} (.ofSecs 9223372036854775807) .fromStart).run
      (List.replicate 5 (quietLook ⟨1, 0⟩))).2 = [] := rfl
  rw [hnil] at hs
  simp at hs

end Pump
end RigWarden
