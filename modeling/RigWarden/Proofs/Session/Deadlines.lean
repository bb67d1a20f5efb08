import RigWarden.Proofs.Session.Exclusion
import RigWarden.Settings.Text

/-!
# Deadlines that come from the settings

Two durations of the settings are added to the clock without a bound: the time that a release may
take, when a start comes to fetch it, and the time that a worker may take to end, when a stop comes
to ask it. If a sum cannot be shown by the clock, the start or the pump is lost. Otherwise a session
whose stop was asked for is over when its pump has gone on a few steps, and then it has said so and
its workers have ended.
-/

namespace RigWarden

open Number

/-- The second that the clock shows. -/
def Clock.second (c : Clock) : Nat := c.total / Duration.perSecond

theorem Clock.add?_ofSecs_eq_none_iff (c : Clock) (n : Nat) :
    c.add? (.ofSecs n) = none ↔ limit63 ≤ c.second + n := by
  rw [add?_eq_none_iff, Duration.total_ofSecs, Nat.add_mul_div_right _ _ (by decide), second]

/-- How many steps a pump that is asked to stop has to go at most. -/
def Phase.toGo : Phase → Nat
  | .launching _ => 9
  | .draining => 8
  | .polling => 7
  | .settling _ => 6
  | .backingOff _ | .waiting => 5
  | .stopping => 4
  | .terminating _ _ => 3
  | .finishing => 2
  | .closing => 1
  | .done | .lost => 0

theorem Phase.toGo_le (phase : Phase) : phase.toGo ≤ 9 := by
  cases phase <;> simp [toGo]

namespace Pump

variable {p : Pump} {o : Observation}

theorem phase_step_eq_lost_iff (h : p.phase ≠ .lost) (o : Observation) :
    (p.step o).1.phase = .lost ↔
      p.phase = .stopping ∧ p.supervisor.worker.isSome = true ∧ o.clock.add? p.grace = none := by
  by_cases hs : p.phase = .stopping
  · rw [step_stopping hs, phase_beginStop_eq_lost_iff]
    simp [hs]
  · simp [phase_step_ne_lost hs h, hs]

theorem isOver_iff_toGo : p.isOver = true ↔ p.phase.toGo = 0 := by
  rw [isOver_iff]
  cases p.phase <;> simp [Phase.toGo]

/-- The pump looks at a worker that has not ended, before the deadline. -/
def waits (p : Pump) (ended : Option WorkerExit) (clock : Clock) : Bool :=
  match p.phase with
  | .terminating _ deadline => ended.isNone && !clock.reached deadline
  | _ => false

theorem phase_step_terminating {w : Nat} {deadline : Clock} (hp : p.phase = .terminating w deadline)
    (h : p.waits o.ended o.clock = false) : (p.step o).1.phase = .finishing := by
  rw [step_terminating hp]
  cases ho : o.ended with
  | some e => simp [terminate, Supervisor.StopLook.decide, ho, endStop, goTo]
  | none =>
    have hreached : o.clock.reached deadline = true := by simpa [waits, hp, ho] using h
    simp [terminate, Supervisor.StopLook.decide, ho, hreached, endStop, goTo]

/-- Whoever is asked to stop comes nearer to its end, unless it only waits. -/
theorem toGo_step (hover : p.isOver = false) (ha : o.stopAsked = true)
    (h : p.waits o.ended o.clock = false) : (p.step o).1.phase.toGo < p.phase.toGo := by
  cases hp : p.phase with
  | launching n =>
    obtain ⟨_, _, _, _, hstep, hphase⟩ := p.launch_cases o n
    rw [step_launching hp, hstep]
    rcases hphase with rfl | rfl <;> simp [Phase.toGo]
  | draining => simp [step_draining hp, goTo, Phase.toGo]
  | polling =>
    obtain ⟨_, _, _, hstep, hphase⟩ := step_polling_cases hp o
    rw [hstep]
    rcases hphase with rfl | ⟨e, rfl⟩ <;> simp [Phase.toGo]
  | settling e =>
    obtain ⟨_, _, hstep, hphase⟩ := (p.drain o).1.afterExit_cases e
    rw [step_settling hp, hstep]
    rcases hphase with rfl | ⟨n, rfl⟩ <;> simp [goTo, Phase.toGo]
  | backingOff n => simp [step_backingOff_asked hp ha, goTo, Phase.toGo]
  | waiting => simp [step_waiting_asked hp ha, goTo, Phase.toGo]
  | stopping =>
    obtain ⟨_, _, _, hstep, hphase⟩ := p.beginStop_cases o
    rw [step_stopping hp, hstep]
    rcases hphase with rfl | ⟨w, deadline, rfl⟩ | rfl <;> simp [Phase.toGo]
  | terminating w deadline =>
    rw [phase_step_terminating hp h]
    simp [Phase.toGo]
  | finishing => simp [step_finishing hp, goTo, Phase.toGo]
  | closing => simp [step_closing hp, goTo, Phase.toGo]
  | done => simp [isOver, hp] at hover
  | lost => simp [isOver, hp] at hover

theorem toGo_step_le (ha : o.stopAsked = true) : (p.step o).1.phase.toGo ≤ p.phase.toGo := by
  cases hover : p.isOver with
  | true => rw [step_of_isOver hover]
  | false =>
    cases hwaits : p.waits o.ended o.clock with
    | false => exact (toGo_step hover ha hwaits).le
    | true =>
      obtain ⟨w, deadline, hp⟩ : ∃ w deadline, p.phase = .terminating w deadline := by
        unfold waits at hwaits
        split at hwaits
        · next w deadline hp => exact ⟨w, deadline, hp⟩
        · cases hwaits
      rw [step_terminating hp]
      rcases p.terminate_cases o deadline with hsame | ⟨e, hend⟩
      · rw [hsame]
      · rw [hend, hp]
        simp [endStop, goTo, Phase.toGo]

end Pump

namespace Provisioner

/-- Provisioning comes to fetch a release. -/
def Fetches (p : Provisioner) (desc : Descriptor) (d : Disk) : Prop :=
  desc.artifact.isSome = true ∧ p.isInstalled d desc = false

theorem provision_eq_overflow_iff (p : Provisioner) (env : ProvisionEnv) (desc : Descriptor)
    (d : Disk) : (p.provision env desc d).1 = .error .overflow ↔
      p.Fetches desc d ∧ env.now.add? env.timeout = none := by
  cases ht : env.now.add? env.timeout with
  | some deadline =>
    simp [p.provision_ne_overflow (by rw [ht]; exact nofun) desc d]
  | none =>
    unfold provision Fetches
    cases ha : desc.artifact with
    | none =>
      simp only [provisionBuiltIn]
      split <;> simp
    | some artifact =>
      cases hi : p.isInstalled d desc <;> simp [ht]

end Provisioner

namespace Host

variable {h : Host} {m : Machine} {i : Nat}

theorem start_eq_overflow_iff (m : Machine) (h : Host) (env : ProvisionEnv) (profile : Profile)
    (b : Backend) : (h.start m env profile b).1 = .error .overflow ↔
      profile.check = .ok () ∧ h.provisioner.Fetches b.descriptor h.disk ∧
        env.now.add? env.timeout = none := by
  rw [← Provisioner.provision_eq_overflow_iff]
  have hstart : (h.start m env profile b).1 = .error .overflow ↔
      (h.prepare m env profile b).1 = .error .overflow := by
    unfold start
    split <;> simp_all
  rw [hstart]
  unfold prepare
  cases hc : profile.check with
  | error e => simp
  | ok u =>
    rcases hp : h.provisioner.provision env b.descriptor h.disk with ⟨halt | install, p, d⟩
    · simp
    · simp only [reduceCtorEq, and_false, iff_false]
      split
      · simp
      · split <;> simp

/-! Turns -/

/-- The turn is one of the pump of session `i` in which it does not merely wait. -/
def goesOn (h : Host) (i : Nat) : Turn → Bool
  | .pump j _ clock => j = i && (h.sessions[i]?).any fun s =>
      !s.pump.waits ((watched? s.pump).bind h.site.exit?) clock
  | _ => false

/-- A start or a pump is lost in this turn. -/
def Panics (m : Machine) (h : Host) : Turn → Prop
  | .start env profile b => (h.start m env profile b).1 = .error .overflow
  | .pump i now clock => ∃ s after, h.sessions[i]? = some s ∧ s.pump.phase ≠ .lost ∧
      (h.pumpStep m now clock i).sessions[i]? = some after ∧ after.pump.phase = .lost
  | _ => False

/-- A deadline that is needed in this turn, and is given by the settings, is beyond the clock. -/
def Overruns (s : Settings) (h : Host) : Turn → Prop
  | .start env profile b => profile.check = .ok () ∧
      h.provisioner.Fetches b.descriptor h.disk ∧
      limit63 ≤ env.now.second + s.session.provisionTimeoutSecs
  | .pump i _ clock => ∃ u, h.sessions[i]? = some u ∧ u.pump.phase = .stopping ∧
      u.pump.supervisor.worker.isSome = true ∧ limit63 ≤ clock.second + s.session.stopGraceSecs
  | _ => False

/-- Starts are given the time that the settings name, and other hosts have the same settings. -/
def Turn.Obeys (s : Settings) : Turn → Prop
  | .start env _ _ => env.timeout = s.sessionOptions.provisionTimeout
  | .host options _ => options = s.sessionOptions
  | _ => True

/-- The host and its sessions have what the settings say. -/
structure Follows (s : Settings) (h : Host) : Prop where
  options : h.options = s.sessionOptions
  grace : ∀ (i : Nat) u, h.sessions[i]? = some u →
    u.pump.grace = s.sessionOptions.gracePeriod

section follows

variable {s : Settings} {t : Turn}

theorem options_turn (ht : t.Obeys s) (h : Host) (ho : h.options = s.sessionOptions) :
    (h.turn m t).options = s.sessionOptions := by
  cases t with
  | start env profile b => exact (h.start_leaves m env profile b).2.1.trans ho
  | askStop i => exact (h.askStop_leaves i).2.1.trans ho
  | pump i now clock => exact (h.pumpStep_leaves m now clock i).1.trans ho
  | worker w => exact ho
  | host options provisioner => exact ht
  | disk d => exact ho

theorem Follows.turn (hf : h.Follows s) (ht : t.Obeys s) : (h.turn m t).Follows s := by
  refine ⟨options_turn ht h hf.options, fun i u hu => ?_⟩
  cases becomes_turn hu with
  | fresh _ _ _ _ _ _ _ _ _ _ grace => rw [grace, hf.options]
  | stays u₀ was same _ _ _ =>
    rw [same]
    exact hf.grace i u₀ was
  | steps u₀ now clock spawned was _ _ same _ =>
    have hsettings := u₀.pump.settings_step (h.observe u₀ now clock spawned)
    rw [same, ← hf.grace i u₀ was]
    exact congrArg (fun q => q.2.2.2) hsettings

/-- A stop comes to ask the worker of session `i` to end, and cannot name the deadline. -/
theorem overruns_pump_iff {u : Session} (hu : h.sessions[i]? = some u) (now : Instant)
    (clock : Clock) : h.Overruns s (.pump i now clock) ↔
      u.pump.phase = .stopping ∧ u.pump.supervisor.worker.isSome = true ∧
        limit63 ≤ clock.second + s.session.stopGraceSecs := by
  constructor
  · rintro ⟨v, hv, hstop⟩
    obtain rfl : u = v := Option.some.inj (hu.symm.trans hv)
    exact hstop
  · exact fun hstop => ⟨u, hu, hstop⟩

/-- A session is lost in a turn in which its deadline overruns, and in no other. -/
theorem Follows.lost_iff (hf : h.Follows s) {u : Session}
    (hu : (h.turn m t).sessions[i]? = some u) : u.pump.phase = .lost ↔
      (∃ v, h.sessions[i]? = some v ∧ v.pump.phase = .lost) ∨
      ∃ now clock, t = .pump i now clock ∧ h.Overruns s t := by
  cases becomes_turn hu with
  | fresh _ _ _ _ _ _ new _ _ fresh _ =>
    have hnone : h.sessions[i]? = none := List.getElem?_eq_none new.ge
    rw [fresh.phase, hnone]
    simp only [reduceCtorEq, false_and, exists_false, false_or, false_iff]
    rintro ⟨now, clock, rfl, v, hv, -⟩
    exact absurd (hnone.symm.trans hv) nofun
  | stays u₀ was same asked silent rests =>
    have hpump : u.pump = u₀.pump := by rw [same]
    simp only [was, Option.some.injEq, exists_eq_left', hpump, iff_self_or]
    rintro ⟨now, clock, rfl, hover⟩
    have hphase := ((overruns_pump_iff was now clock).1 hover).1
    have hrests := rests now clock rfl
    simp [Pump.isOver, hphase] at hrests
  | steps u₀ now clock spawned was running turn same sent =>
    have hpump : u.pump = (u₀.pump.step (h.observe u₀ now clock spawned)).1 :=
      congrArg Session.pump same
    have hfound : u₀.pump.phase ≠ .lost := by
      intro hlost
      simp [Pump.isOver, hlost] at running
    have hgrace : u₀.pump.grace = .ofSecs s.session.stopGraceSecs := hf.grace i u₀ was
    rw [hpump, Pump.phase_step_eq_lost_iff hfound, hgrace]
    change _ ∧ _ ∧ clock.add? _ = none ↔ _
    rw [Clock.add?_ofSecs_eq_none_iff, ← overruns_pump_iff was now clock, turn]
    simp [was, hfound]

/-- What is lost in a turn is what needs a deadline beyond the clock. -/
theorem Follows.panics_iff (hf : h.Follows s) (ht : t.Obeys s) :
    h.Panics m t ↔ h.Overruns s t := by
  cases t with
  | start env profile b =>
    have htimeout : env.timeout = .ofSecs s.session.provisionTimeoutSecs := ht
    change (h.start m env profile b).1 = _ ↔ _
    rw [start_eq_overflow_iff, htimeout, Clock.add?_ofSecs_eq_none_iff]
    rfl
  | pump i now clock =>
    constructor
    · rintro ⟨u, after, hu, hfound, hafter, hlost⟩
      have hlost := (hf.lost_iff (t := .pump i now clock) hafter).1 hlost
      rcases hlost with ⟨v, hv, hwas⟩ | ⟨_, _, -, hover⟩
      · obtain rfl : u = v := Option.some.inj (hu.symm.trans hv)
        exact absurd hwas hfound
      · exact hover
    · rintro ⟨u, hu, hstop⟩
      obtain ⟨after, hafter⟩ := exists_turn hu m (.pump i now clock)
      refine ⟨u, after, hu, by rw [hstop.1]; nofun, hafter, (hf.lost_iff hafter).2 (.inr ?_)⟩
      exact ⟨now, clock, rfl, (overruns_pump_iff hu now clock).2 hstop⟩
  | askStop i => exact Iff.rfl
  | worker w => exact Iff.rfl
  | host options provisioner => exact Iff.rfl
  | disk d => exact Iff.rfl

end follows

theorem exists_pump_of_goesOn {t : Turn} (h' : h.goesOn i t = true) :
    ∃ now clock, t = .pump i now clock := by
  cases t with
  | pump j now clock =>
    simp only [goesOn, Bool.and_eq_true, decide_eq_true_eq] at h'
    exact ⟨now, clock, by rw [h'.1]⟩
  | _ => cases h'

/-- A pump that was asked to stop comes nearer to its end in each turn in which it goes on. -/
theorem toGo_turn {t : Turn} {u after : Session} (hu : h.sessions[i]? = some u)
    (hasked : u.stopAsked = true) (hafter : (h.turn m t).sessions[i]? = some after) :
    after.stopAsked = true ∧
      after.pump.phase.toGo ≤ u.pump.phase.toGo - (h.goesOn i t).toNat := by
  cases becomes_turn hafter with
  | fresh _ _ _ _ _ _ new _ _ _ _ =>
    have hlt := (List.getElem?_eq_some_iff.1 hu).1
    omega
  | stays u₀ was same asked silent rests =>
    obtain rfl : u = u₀ := Option.some.inj (hu.symm.trans was)
    have hpump : after.pump = u.pump := by rw [same]
    refine ⟨asked hasked, ?_⟩
    cases hgo : h.goesOn i t with
    | false => exact le_of_eq (by rw [hpump]; rfl)
    | true =>
      obtain ⟨now, clock, rfl⟩ := exists_pump_of_goesOn hgo
      have hzero := Pump.isOver_iff_toGo.1 (rests now clock rfl)
      rw [hpump, hzero]
      exact Nat.zero_le _
  | steps u₀ now clock spawned was running turn same sent =>
    obtain rfl : u = u₀ := Option.some.inj (hu.symm.trans was)
    rw [same]
    refine ⟨hasked, ?_⟩
    cases hgo : h.goesOn i t with
    | false => exact Pump.toGo_step_le hasked
    | true =>
      have hwaits : u.pump.waits ((watched? u.pump).bind h.site.exit?) clock = false := by
        simpa [goesOn, turn, hu] using hgo
      exact Nat.le_sub_one_of_lt (Pump.toGo_step running hasked hwaits)

end Host

namespace Crew

open Host

variable {c : Crew} {m : Machine} {s : Settings} {i : Nat}

/-- In how many turns of a run the pump of session `i` goes on. -/
def goings (m : Machine) (i : Nat) (c : Crew) : List Turn → Nat
  | [] => 0
  | t :: ts => (c.host.goesOn i t).toNat + goings m i (c.turn m t) ts

/-- What the pumps have sent is told by them, and nothing comes from sessions that are not there. -/
structure Tells (c : Crew) (sent : Nat → List Event) : Prop where
  told : ∀ (i : Nat) u, c.host.sessions[i]? = some u → u.pump.Told True (sent i)
  silent : ∀ i, c.host.sessions.length ≤ i → sent i = []

theorem Tells.turn {sent : Nat → List Event} (h : c.Tells sent) (t : Turn) :
    (c.turn m t).Tells fun i => sent i ++ c.host.sentIn m i t := by
  refine ⟨fun i u hu => ?_, fun i hi => ?_⟩
  · rw [host_turn] at hu
    cases becomes_turn hu with
    | fresh _ _ _ _ _ turn new _ _ fresh _ =>
      rw [turn, h.silent i new.ge]
      exact fresh.passes.told
    | stays u₀ was same asked silent rests =>
      rw [silent, List.append_nil, same]
      exact h.told i u₀ was
    | steps u₀ now clock spawned was running turn same sent =>
      rw [sent, same]
      exact (h.told i u₀ was).step fun _ => trivial
  · rw [host_turn] at hi
    have hwas := (c.host.length_le_turn m t).trans hi
    rw [h.silent i hwas, List.nil_append]
    cases t with
    | pump j now clock =>
      simp [sentIn, sends, List.getElem?_eq_none hwas]
    | _ => rfl

theorem Tells.turns {sent : Nat → List Event} (h : c.Tells sent) (ts : List Turn) :
    (c.turns m ts).Tells fun i => sent i ++ c.sentBy m i ts := by
  induction ts generalizing c sent with
  | nil => simpa [sentBy] using h
  | cons t ts ih =>
    have hrest := ih (h.turn (m := m) t)
    simp only [List.append_assoc] at hrest
    exact hrest

theorem tells_new (options : SessionOptions) (disk : Disk) :
    (Crew.mk (.new options disk) []).Tells fun _ => [] :=
  ⟨fun i u hu => absurd hu (by simp [Host.new]), fun _ _ => rfl⟩

theorem follows_turns (hf : c.host.Follows s) {ts : List Turn} (hts : ∀ t ∈ ts, t.Obeys s) :
    (c.turns m ts).host.Follows s := by
  induction ts generalizing c with
  | nil => exact hf
  | cons t ts ih =>
    rw [List.forall_mem_cons] at hts
    refine ih ?_ hts.2
    rw [host_turn]
    exact hf.turn hts.1

theorem lost_turns_iff (hf : c.host.Follows s) {ts : List Turn} (hts : ∀ t ∈ ts, t.Obeys s)
    {u : Session} (hu : (c.turns m ts).host.sessions[i]? = some u) : u.pump.phase = .lost ↔
      (∃ v, c.host.sessions[i]? = some v ∧ v.pump.phase = .lost) ∨
      ∃ before now clock after, ts = before ++ .pump i now clock :: after ∧
        (c.turns m before).host.Overruns s (.pump i now clock) := by
  induction ts generalizing c with
  | nil =>
    rw [turns_nil] at hu
    simp [hu]
  | cons t ts ih =>
    rw [List.forall_mem_cons] at hts
    have hnext : (c.turn m t).host.Follows s := by
      rw [host_turn]
      exact hf.turn hts.1
    rw [ih hnext hts.2 hu]
    constructor
    · rintro (⟨v, hv, hlost⟩ | ⟨before, now, clock, after, rfl, hover⟩)
      · rw [host_turn] at hv
        rcases (hf.lost_iff hv).1 hlost with hwas | ⟨now, clock, rfl, hover⟩
        · exact .inl hwas
        · exact .inr ⟨[], now, clock, ts, rfl, hover⟩
      · exact .inr ⟨t :: before, now, clock, after, rfl, hover⟩
    · rintro (⟨v, hv, hlost⟩ | ⟨before, now, clock, after, hsplit, hover⟩)
      · obtain ⟨w, hw⟩ := exists_turn hv m t
        exact .inl ⟨w, by rwa [host_turn], (hf.lost_iff hw).2 (.inl ⟨v, hv, hlost⟩)⟩
      · rcases List.cons_eq_append_iff.1 hsplit with ⟨rfl, hcons⟩ | ⟨rest, rfl, hrest⟩
        · cases hcons
          obtain ⟨v, hv, hstop⟩ := hover
          obtain ⟨w, hw⟩ := exists_turn hv m (.pump i now clock)
          refine .inl ⟨w, by rwa [host_turn], (hf.lost_iff hw).2 (.inr ?_)⟩
          exact ⟨now, clock, rfl, v, hv, hstop⟩
        · exact .inr ⟨rest, now, clock, after, hrest, hover⟩

theorem exists_turns {u : Session} (hu : c.host.sessions[i]? = some u) (m : Machine)
    (ts : List Turn) : ∃ after, (c.turns m ts).host.sessions[i]? = some after := by
  induction ts generalizing c u with
  | nil => exact ⟨u, hu⟩
  | cons t ts ih =>
    obtain ⟨next, hnext⟩ := exists_turn hu m t
    exact ih (c := c.turn m t) (by rwa [host_turn])

theorem toGo_turns {u after : Session} (hu : c.host.sessions[i]? = some u)
    (hasked : u.stopAsked = true) {ts : List Turn}
    (hafter : (c.turns m ts).host.sessions[i]? = some after) :
    after.pump.phase.toGo ≤ u.pump.phase.toGo - c.goings m i ts := by
  induction ts generalizing c u with
  | nil =>
    obtain rfl : u = after := Option.some.inj (hu.symm.trans hafter)
    exact Nat.le_refl _
  | cons t ts ih =>
    obtain ⟨next, hnext⟩ := exists_turn hu m t
    obtain ⟨hstill, hstep⟩ := toGo_turn hu hasked hnext
    have hrest := ih (by rwa [host_turn]) hstill hafter
    simp only [goings]
    omega

/-- What becomes of a host whose settings are `s` in a run, with the deadlines that they give. -/
structure Deadlines (s : Settings) (m : Machine) (c : Crew) (ts : List Turn) : Prop where
  /-- A start or a pump is lost exactly when it needs a deadline beyond the clock. -/
  panics : ∀ before t after, ts = before ++ t :: after →
    ((c.turns m before).host.Panics m t ↔ (c.turns m before).host.Overruns s t)
  /-- The pumps that are lost in the end are those whose stop has come to that. -/
  lost : ∀ (i : Nat) u, (c.turns m ts).host.sessions[i]? = some u → (u.pump.phase = .lost ↔
    ∃ before now clock after, ts = before ++ .pump i now clock :: after ∧
      (c.turns m before).host.Overruns s (.pump i now clock))
  /-- Whoever was asked to stop is over when its pump has gone on nine times since. -/
  ends : ∀ before after (i : Nat) u, ts = before ++ after →
    (c.turns m before).host.sessions[i]? = some u → u.stopAsked = true →
    9 ≤ (c.turns m before).goings m i after → (c.turns m ts).host.isFinished i = true
  /-- Whoever is over and not lost has said so last, and its workers have ended. -/
  stopped : ∀ (i : Nat) u, (c.turns m ts).host.sessions[i]? = some u → u.pump.isOver = true →
    u.pump.phase ≠ .lost →
    (∃ sent, c.sentBy m i ts = sent ++ [.control .stopped] ∧ .control .stopped ∉ sent) ∧
      ∀ w, (c.turns m ts).Started w i u →
        (c.turns m ts).host.site.isAlive w = false ∨ (c.turns m ts).Outlives w

/-- Whatever the settings are, a start or a pump is lost exactly if it needs a deadline of theirs that
is beyond the clock, and a session that is not lost ends as it was asked to. -/
theorem deadlines_of_settings (s : Settings) (m : Machine) (disk : Disk) (ts : List Turn)
    (hts : ∀ t ∈ ts, t.Obeys s) :
    (Crew.mk (.new s.sessionOptions disk) []).Deadlines s m ts := by
  have hnew : (Host.new s.sessionOptions disk).Follows s :=
    ⟨rfl, fun i u hu => absurd hu (by simp [Host.new])⟩
  refine ⟨?_, fun i u hu => ?_, ?_, fun i u hu hover hfound => ⟨?_, fun w hw => ?_⟩⟩
  · rintro before t after rfl
    rw [List.forall_mem_append, List.forall_mem_cons] at hts
    exact (follows_turns hnew hts.1).panics_iff hts.2.1
  · rw [lost_turns_iff hnew hts hu]
    simp [Host.new]
  · rintro before after i u rfl hu hasked hgoings
    rw [turns_append]
    obtain ⟨last, hlast⟩ := exists_turns hu m after
    rw [isFinished_eq hlast, Pump.isOver_iff_toGo]
    have htoGo := toGo_turns hu hasked hlast
    have hmost := u.pump.phase.toGo_le
    omega
  · have htold := ((tells_new s.sessionOptions disk).turns ts).told i u hu
    exact htold.stopped_last (.inr ((Pump.isOver_iff.1 hover).resolve_right hfound))
  · have hdone := (Pump.isOver_iff.1 hover).resolve_right hfound
    exact ((minded_new s.sessionOptions disk).turns ts).ended hw (by simp [Pump.stopIsOver, hdone])

/-- As many seconds as a number in the settings can have. -/
def patientText : String := "[session]\nstop_grace_secs = 9223372036854775807\n"

def patient : Settings := (Settings.parse? "/" patientText).getD { installRoot := "/" }

theorem parse?_patientText : Settings.parse? "/" patientText = some patient := by
  have hparsed : (Settings.parse? "/" patientText).isSome = true := by decide +kernel
  obtain ⟨s, hs⟩ := Option.isSome_iff_exists.1 hparsed
  rw [patient, hs, Option.getD_some]

def startUnder (s : Settings) : Turn :=
  .start { Provision.delivering [] with timeout := s.sessionOptions.provisionTimeout }
    (.sample "randomx") .simulated

/-- A session is started and asked to stop, and its pump comes to the stop. -/
def upToStop : List Turn :=
  [startUnder patient] ++ List.replicate 2 (look 0) ++ [.askStop 0] ++ List.replicate 2 (look 0)

def comeToStop : Crew := (Crew.mk (.new patient.sessionOptions {}) []).turns slowMachine upToStop

/-- The stop is begun when the clock shows its first second, and the simulator ends. -/
def atOnce : List Turn := [look 0, .worker 0] ++ List.replicate 9 (look 0)

theorem comeToStop_facts :
    (comeToStop.turns slowMachine atOnce).host.sessions.map (·.pump.phase) = [.done] ∧
      (comeToStop.host.sessions[0]?).map (·.pump.phase) = some .stopping ∧
      ((comeToStop.host.pumpStep slowMachine ⟨1, 0⟩ ⟨1, 0⟩ 0).sessions[0]?).map (·.pump.phase) =
        some .lost := by
  decide +kernel

theorem obeys_upToStop : ∀ t ∈ upToStop, t.Obeys patient := by
  simp [upToStop, look, startUnder, Turn.Obeys]

theorem obeys_atOnce : ∀ t ∈ atOnce, t.Obeys patient := by
  simp [atOnce, look, Turn.Obeys]

theorem deadlines_of_settings_patient :
    (∀ t ∈ upToStop ++ atOnce, t.Obeys patient) ∧
      (Crew.mk (.new patient.sessionOptions {}) []).Deadlines patient slowMachine
        (upToStop ++ atOnce) ∧
      ((Crew.mk (.new patient.sessionOptions {}) []).turns slowMachine
        (upToStop ++ atOnce)).host.sessions.map (·.pump.phase) = [.done] := by
  have hobeys := List.forall_mem_append.2 ⟨obeys_upToStop, obeys_atOnce⟩
  refine ⟨hobeys, deadlines_of_settings patient slowMachine {} (upToStop ++ atOnce) hobeys, ?_⟩
  rw [turns_append]
  exact comeToStop_facts.1

/-- With the same settings the pump is lost if it begins the stop one second later. -/
theorem not_always_in_time : ¬ ∀ (root : Path) (text : String) (s : Settings),
    Settings.parse? root text = some s → ∀ (m : Machine) (disk : Disk) (ts : List Turn),
    (∀ t ∈ ts, t.Obeys s) → ∀ before t after, ts = before ++ t :: after →
    ¬ ((Crew.mk (.new s.sessionOptions disk) []).turns m before).host.Panics m t := by
  intro hall
  obtain ⟨-, hbefore, hafter⟩ := comeToStop_facts
  obtain ⟨u, hu, hphase⟩ := Option.map_eq_some_iff.1 hbefore
  obtain ⟨last, hlast, hlost⟩ := Option.map_eq_some_iff.1 hafter
  have hpanics : comeToStop.host.Panics slowMachine (.pump 0 ⟨1, 0⟩ ⟨1, 0⟩) :=
    ⟨u, last, hu, by rw [hphase]; nofun, hlast, hlost⟩
  refine hall "/" patientText patient parse?_patientText slowMachine {}
    (upToStop ++ [.pump 0 ⟨1, 0⟩ ⟨1, 0⟩]) ?_ upToStop (.pump 0 ⟨1, 0⟩ ⟨1, 0⟩) [] rfl hpanics
  exact List.forall_mem_append.2 ⟨obeys_upToStop, List.forall_mem_singleton.2 trivial⟩

end Crew
end RigWarden
