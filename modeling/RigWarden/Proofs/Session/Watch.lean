import RigWarden.Proofs.Session.Hosting
import RigWarden.Proofs.Session.PumpStep
import RigWarden.Proofs.Worker.Ageing

/-!
# The worker that a pump watches

A pump watches the worker that it started until it finds it ended or has killed it, through the whole
stop. A worker it does not watch any more has ended, or it is a thread of the simulator that was asked
to end and has outlived the stop.
-/

namespace RigWarden

namespace Pump

variable {p q : Pump} {o : Observation} {w : Nat} {deadline : Clock}

/-- The worker was let go of in order to end it, or there was none. -/
def hasLetGo (p : Pump) : Bool :=
  match p.phase with
  | .terminating _ _ => true
  | .finishing => true
  | .closing => true
  | .done => true
  | .lost => true
  | _ => false

/-- The stop has returned. -/
def stopIsOver (p : Pump) : Bool :=
  match p.phase with
  | .finishing => true
  | .closing => true
  | .done => true
  | _ => false

/-- A worker that is to end is not with the supervisor any more. -/
def Quiet (p : Pump) : Prop := p.hasLetGo = true → p.supervisor.worker = none

theorem watched_terminating (h : p.phase = .terminating w deadline) : Host.watched? p = some w := by
  simp [Host.watched?, h]

theorem watched_of_ne (h : ∀ w deadline, p.phase ≠ .terminating w deadline) :
    Host.watched? p = p.supervisor.worker := by
  unfold Host.watched?
  split
  · next w deadline hp => exact absurd hp (h w deadline)
  · rfl

theorem watched_of_letGo (h : p.hasLetGo = false) : Host.watched? p = p.supervisor.worker := by
  apply watched_of_ne
  intro w deadline hp
  simp [hasLetGo, hp] at h

theorem letGo_of_stopIsOver (h : p.stopIsOver = true) :
    p.hasLetGo = true ∧ ∀ w deadline, p.phase ≠ .terminating w deadline := by
  unfold stopIsOver at h
  unfold hasLetGo
  cases hp : p.phase <;> simp_all

theorem Quiet.watched_of_stopIsOver (hq : p.Quiet) (h : p.stopIsOver = true) :
    Host.watched? p = none := by
  obtain ⟨hgone, hphase⟩ := letGo_of_stopIsOver h
  rw [watched_of_ne hphase]
  exact hq hgone

/-- What a step can do with the worker of a pump. -/
inductive Tends (p : Pump) (o : Observation) (q : Pump) : Prop
  | launch {n : Nat} (hp : p.phase = .launching n) (hq : q.hasLetGo = false)
      (hw : q.supervisor.worker = p.supervisor.worker.or o.spawned.toOption)
  | goOn (hp : p.hasLetGo = false) (hq : q.hasLetGo = false)
      (hw : q.supervisor.worker = p.supervisor.worker)
  /-- The worker has ended. -/
  | bury (hp : p.hasLetGo = false) (ho : o.ended.isSome = true) (hq : q.hasLetGo = false)
      (hw : q.supervisor.worker = none)
  | rest (hp : p.hasLetGo = false) (hpw : p.supervisor.worker = none) (hq : q.phase = .finishing)
      (hw : q.supervisor.worker = none)
  | request {w : Nat} {deadline : Clock} (hp : p.phase = .stopping)
      (hpw : p.supervisor.worker = some w) (hq : q.phase = .terminating w deadline)
      (hw : q.supervisor.worker = none)
  | lose (hp : p.phase = .stopping) (hq : q.phase = .lost) (hw : q.supervisor.worker = none)
  | look (hq : q = p)
  /-- The worker was asked to end, and now it has ended or is killed. -/
  | settle {w : Nat} {deadline : Clock} (hp : p.phase = .terminating w deadline)
      (hq : q.phase = .finishing) (hw : q.supervisor.worker = p.supervisor.worker)
  | windUp (hp : p.stopIsOver = true) (hq : q.stopIsOver = true)
      (hw : q.supervisor.worker = p.supervisor.worker)

@[simp] theorem supervisor_drain (p : Pump) (o : Observation) :
    (p.drain o).1.supervisor = p.supervisor := by
  obtain ⟨tailer, tally, rs, h⟩ := p.drain_eq o
  rw [h]

theorem tends_launch {n : Nat} (hp : p.phase = .launching n) : p.Tends o (p.launch o n).1 := by
  cases hw : p.supervisor.worker with
  | some w =>
    have hstart : p.supervisor.start p.program o.spawned =
        (.error (.launch p.program .workerRunning), p.supervisor) := by
      simp [Supervisor.start, hw]
    simp only [launch, hstart]
    exact .launch hp rfl (by simp [goTo, publish, hw])
  | none =>
    cases ho : o.spawned with
    | ok w =>
      rw [launch_ok hw ho]
      exact .launch hp rfl (by simp [hw, ho, Except.toOption])
    | error e =>
      rw [launch_error hw ho]
      exact .launch hp rfl (by simp [hw, ho, Except.toOption])

theorem tends_polling (hp : p.phase = .polling) : p.Tends o (p.step o).1 := by
  have hgoing : p.hasLetGo = false := by simp [hasLetGo, hp]
  cases ho : o.ended with
  | none =>
    rw [step_polling_none hp ho]
    exact .goOn hgoing rfl rfl
  | some e =>
    simp only [step, hp, ho, Supervisor.poll]
    split
    · next hpoll =>
      split at hpoll
      · cases hpoll
      · cases hpoll
        exact .goOn hgoing rfl rfl
    · next hpoll =>
      split at hpoll <;> cases hpoll
      exact .bury hgoing (by rw [ho]; rfl) rfl rfl

theorem tends_settling {e : WorkerExit} (hp : p.phase = .settling e) : p.Tends o (p.step o).1 := by
  rw [step_settling hp]
  obtain ⟨phase, c, h, hphase⟩ := (p.drain o).1.afterExit_cases e
  rw [h]
  refine .goOn (by simp [hasLetGo, hp]) ?_ (by simp [goTo])
  rcases hphase with rfl | ⟨n, rfl⟩ <;> rfl

theorem tends_beginStop (hp : p.phase = .stopping) : p.Tends o (p.beginStop o) := by
  cases hw : p.supervisor.worker with
  | none =>
    simp only [beginStop, Supervisor.beginStop, hw]
    exact .rest (by simp [hasLetGo, hp]) hw rfl rfl
  | some w =>
    cases hd : o.clock.add? p.grace with
    | some deadline =>
      rw [beginStop_some hw hd]
      exact .request hp hw rfl rfl
    | none =>
      rw [beginStop_lost hw hd]
      exact .lose hp rfl rfl

theorem tends_step (p : Pump) (o : Observation) : p.Tends o (p.step o).1 := by
  cases hp : p.phase with
  | launching n =>
    rw [step_launching hp]
    exact tends_launch hp
  | draining =>
    rw [step_draining hp]
    exact .goOn (by simp [hasLetGo, hp]) rfl (by simp [goTo])
  | polling => exact tends_polling hp
  | settling e => exact tends_settling hp
  | backingOff n =>
    cases ho : o.stopAsked with
    | true => rw [step_backingOff_asked hp ho]; exact .goOn (by simp [hasLetGo, hp]) rfl rfl
    | false => rw [step_backingOff hp ho]; exact .goOn (by simp [hasLetGo, hp]) rfl rfl
  | waiting =>
    cases ho : o.stopAsked with
    | true => rw [step_waiting_asked hp ho]; exact .goOn (by simp [hasLetGo, hp]) rfl rfl
    | false => rw [step_waiting hp ho]; exact .goOn (by simp [hasLetGo, hp]) rfl rfl
  | stopping =>
    rw [step_stopping hp]
    exact tends_beginStop hp
  | terminating w deadline =>
    rw [step_terminating hp]
    rcases p.terminate_cases o deadline with h | ⟨e, h⟩
    · exact .look h
    · rw [h]
      exact .settle hp rfl rfl
  | finishing =>
    rw [step_finishing hp]
    exact .windUp (by simp [stopIsOver, hp]) rfl (by simp [goTo])
  | closing =>
    rw [step_closing hp]
    exact .windUp (by simp [stopIsOver, hp]) rfl rfl
  | done => exact .look (by rw [step_done hp])
  | lost => exact .look (by rw [step_lost hp])

theorem Quiet.of_phase (h : p.hasLetGo = false) : p.Quiet := by
  intro hgone
  rw [h] at hgone
  cases hgone

theorem Tends.quiet (h : p.Tends o q) (hquiet : p.Quiet) : q.Quiet := by
  cases h with
  | launch _ hq _ | goOn _ hq _ | bury _ _ hq _ => exact .of_phase hq
  | rest _ _ _ hw | request _ _ _ hw | lose _ _ hw => exact fun _ => hw
  | look hq => rwa [hq]
  | settle hp _ hw => exact fun _ => hw.trans (hquiet (by simp [hasLetGo, hp]))
  | windUp hp _ hw => exact fun _ => hw.trans (hquiet (letGo_of_stopIsOver hp).1)

/-- A pump loses sight of its worker only if the worker has ended, or is killed, or with itself. -/
theorem Tends.watched (h : p.Tends o q) (hquiet : p.Quiet) (hw : Host.watched? p = some w) :
    Host.watched? q = some w ∨ q.phase = .lost ∨ o.ended.isSome = true ∨
      ((∃ deadline, p.phase = .terminating w deadline) ∧ q.phase = .finishing) := by
  cases h with
  | launch hp hq hworker =>
    rw [watched_of_letGo (by simp [hasLetGo, hp])] at hw
    rw [watched_of_letGo hq, hworker, hw]
    exact .inl rfl
  | goOn hp hq hworker =>
    rw [watched_of_letGo hp] at hw
    rw [watched_of_letGo hq, hworker]
    exact .inl hw
  | bury _ ho _ _ => exact .inr (.inr (.inl ho))
  | rest hp hpw _ _ =>
    rw [watched_of_letGo hp, hpw] at hw
    cases hw
  | request hp hpw hq _ =>
    rw [watched_of_letGo (by simp [hasLetGo, hp]), hpw] at hw
    cases hw
    exact .inl (watched_terminating hq)
  | lose _ hq _ => exact .inr (.inl hq)
  | look hq => exact .inl (hq ▸ hw)
  | settle hp hq _ =>
    rw [watched_terminating hp] at hw
    cases hw
    exact .inr (.inr (.inr ⟨⟨_, hp⟩, hq⟩))
  | windUp hp _ _ =>
    rw [hquiet.watched_of_stopIsOver hp] at hw
    cases hw

/-- A worker that is watched was watched before, or has just been started. -/
theorem Tends.watched_of (h : p.Tends o q) (hquiet : p.Quiet) (hw : Host.watched? q = some w) :
    Host.watched? p = some w ∨ (∃ n, p.phase = .launching n) ∧ o.spawned = .ok w := by
  cases h with
  | launch hp hq hworker =>
    rw [watched_of_letGo hq, hworker] at hw
    rw [watched_of_letGo (by simp [hasLetGo, hp])]
    cases hpw : p.supervisor.worker with
    | some v => exact .inl (by simpa [hpw] using hw)
    | none =>
      cases ho : o.spawned with
      | ok v => simpa [hpw, ho, hp, Except.toOption] using hw
      | error e => simp [hpw, ho, Except.toOption] at hw
  | goOn hp hq hworker =>
    rw [watched_of_letGo hq, hworker] at hw
    exact .inl ((watched_of_letGo hp).trans hw)
  | bury _ _ hq hworker =>
    rw [watched_of_letGo hq, hworker] at hw
    cases hw
  | rest _ _ hq hworker | lose _ hq hworker =>
    rw [watched_of_ne (by simp [hq]), hworker] at hw
    cases hw
  | request hp hpw hq _ =>
    rw [watched_terminating hq] at hw
    cases hw
    exact .inl ((watched_of_letGo (by simp [hasLetGo, hp])).trans hpw)
  | look hq => exact .inl (hq ▸ hw)
  | settle hp hq hworker =>
    rw [watched_of_ne (by simp [hq]), hworker, hquiet (by simp [hasLetGo, hp])] at hw
    cases hw
  | windUp hp hq hworker =>
    rw [watched_of_ne (letGo_of_stopIsOver hq).2, hworker,
      hquiet (letGo_of_stopIsOver hp).1] at hw
    cases hw

/-- A worker that is to end was with the supervisor when the stop began. -/
theorem Tends.terminating (h : p.Tends o q) (hq : q.phase = .terminating w deadline) :
    p.phase = .terminating w deadline ∨ p.phase = .stopping ∧ p.supervisor.worker = some w := by
  cases h with
  | launch _ hgo _ | goOn _ hgo _ | bury _ _ hgo _ => simp [hasLetGo, hq] at hgo
  | rest _ _ hq' _ | lose _ hq' _ | settle _ hq' _ => simp [hq'] at hq
  | request hp hpw hq' _ =>
    rw [hq'] at hq
    cases hq
    exact .inr ⟨hp, hpw⟩
  | look he => exact .inl (he ▸ hq)
  | windUp _ hover _ => exact absurd hq ((letGo_of_stopIsOver hover).2 w deadline)

theorem Tends.stopIsOver (h : p.Tends o q) (hp : p.stopIsOver = true) : q.stopIsOver = true := by
  obtain ⟨hgone, hphase⟩ := letGo_of_stopIsOver hp
  cases h with
  | launch hp' _ _ | request hp' _ _ _ | lose hp' _ _ => simp [hasLetGo, hp'] at hgone
  | goOn hp' _ _ | rest hp' _ _ _ | bury hp' _ _ _ => simp [hp'] at hgone
  | look hq => rwa [hq]
  | settle hp' _ _ => exact absurd hp' (hphase _ _)
  | windUp _ hq _ => exact hq

end Pump

namespace Host

variable {h : Host} {s : Session} {m : Machine} {now : Instant} {clock : Clock} {w : Nat}
  {site site' : Site} {p : Pump}

/-- A worker that lives is watched, unless the pump is lost or the worker has outlived the stop. -/
def Minds (site : Site) (p : Pump) (w : Nat) : Prop :=
  site.isAlive w = true →
    p.phase = .lost ∨ watched? p = some w ∨ p.stopIsOver = true ∧ site.IsRunaway w

/-- The pump watches a worker of the site, and has asked it to end if it waits for that. -/
structure Attends (site : Site) (p : Pump) : Prop where
  quiet : p.Quiet
  known : ∀ w, watched? p = some w → w < site.workers.length
  asked : ∀ w deadline, p.phase = .terminating w deadline → site.Deaf w

theorem Minds.ages (hm : Minds site p w) (ha : site.Ages site') (hw : w < site.workers.length) :
    Minds site' p w := by
  intro hlive
  rcases hm (ha.isAlive hw hlive) with hl | hwatched | ⟨hover, hrun⟩
  · exact .inl hl
  · exact .inr (.inl hwatched)
  · exact .inr (.inr ⟨hover, ha.isRunaway hrun⟩)

theorem Attends.ages (hp : Attends site p) (ha : site.Ages site') : Attends site' p := by
  refine ⟨hp.quiet, fun w hw => Nat.lt_of_lt_of_le (hp.known w hw) ha.length_le, ?_⟩
  intro w deadline hphase
  exact ha.deaf (hp.known w (Pump.watched_terminating hphase)) (hp.asked w deadline hphase)

/-- What a step of a pump does outside, one case for each phase in which it does anything. -/
theorem effect_cases (m : Machine) (h : Host) (s : Session) :
    (∃ n, s.pump.phase = .launching n ∧ s.pump.supervisor.worker = none ∧
      h.effect m s = h.site.spawn m s.launch s.logPath) ∨
    (∃ w, s.pump.phase = .stopping ∧ s.pump.supervisor.worker = some w ∧
      h.effect m s = (.error .cancelled, h.site.request w)) ∨
    h.effect m s = (.error .cancelled, h.site) := by
  unfold effect
  split
  · next n hp =>
    cases hw : s.pump.supervisor.worker with
    | none => exact .inl ⟨n, hp, rfl, rfl⟩
    | some w => exact .inr (.inr rfl)
  · next hp =>
    cases hw : s.pump.supervisor.worker with
    | none => exact .inr (.inr rfl)
    | some w => exact .inr (.inl ⟨w, hp, rfl, rfl⟩)
  · exact .inr (.inr rfl)

theorem ages_effect (m : Machine) (h : Host) (s : Session) : h.site.Ages (h.effect m s).2 := by
  rcases h.effect_cases m s with ⟨n, -, -, he⟩ | ⟨w, -, -, he⟩ | he <;> rw [he]
  · rcases h.site.spawn_cases m s.launch s.logPath with ⟨e, t, hs, ht⟩ | ⟨t, worker, hs, ht⟩ <;>
      rw [hs]
    · exact .of_workers_eq ht
    · exact .of_append ht
  · exact h.site.ages_request w
  · exact .refl _

/-- The only worker that can be new is the one that the pump started. -/
theorem effect_new (hle : h.site.workers.length ≤ w) (hw : w < (h.effect m s).2.workers.length) :
    (∃ n, s.pump.phase = .launching n) ∧ s.pump.supervisor.worker = none ∧
      (h.effect m s).1 = .ok w := by
  rcases h.effect_cases m s with ⟨n, hp, hnone, he⟩ | ⟨v, -, -, he⟩ | he
  · rw [he] at hw ⊢
    rcases h.site.spawn_cases m s.launch s.logPath with ⟨e, t, hs, ht⟩ | ⟨t, worker, hs, ht⟩ <;>
      rw [hs] at hw ⊢ <;> simp only [ht] at hw
    · omega
    · rw [List.length_append, List.length_singleton] at hw
      refine ⟨⟨n, hp⟩, hnone, ?_⟩
      simp only [Except.ok.injEq]
      omega
  · rw [he] at hw
    simp only [Site.length_request] at hw
    omega
  · rw [he] at hw
    simp only at hw
    omega

theorem effect_spawned (he : (h.effect m s).1 = .ok w) :
    w < (h.effect m s).2.workers.length := by
  rcases h.effect_cases m s with ⟨n, -, -, hs⟩ | ⟨v, -, -, hs⟩ | hs <;> rw [hs] at he ⊢
  · rcases h.site.spawn_cases m s.launch s.logPath with ⟨e, t, ht, -⟩ | ⟨t, worker, ht, hlen⟩ <;>
      rw [ht] at he ⊢ <;> cases he
    simp [hlen]
  · cases he
  · cases he

theorem ages_killIfForced (site : Site) (p q : Pump) (o : Observation) :
    site.Ages (killIfForced site p q o) := by
  unfold killIfForced
  split
  · exact site.ages_kill _
  · exact .refl site

theorem length_killIfForced (site : Site) (p q : Pump) (o : Observation) :
    (killIfForced site p q o).workers.length = site.workers.length := by
  unfold killIfForced
  split
  · exact site.length_kill _
  · rfl

/-- The site and the pump after a step of it. -/
def advance (m : Machine) (h : Host) (s : Session) (now : Instant) (clock : Clock) : Site × Pump :=
  let (spawned, site) := h.effect m s
  let o := h.observe s now clock spawned
  let p := (s.pump.step o).1
  (killIfForced site s.pump p o, p)

theorem pumpStep_eq {i : Nat} (hs : h.sessions[i]? = some s) (hover : s.pump.isOver = false)
    (m : Machine) (now : Instant) (clock : Clock) :
    ∃ channel, h.pumpStep m now clock i =
      { h with site := (h.advance m s now clock).1 }.setSession i
        { s with pump := (h.advance m s now clock).2, channel := channel } := by
  simp only [pumpStep, hs, hover, Bool.false_eq_true, if_false]
  exact ⟨_, rfl⟩

theorem ages_advance (m : Machine) (h : Host) (s : Session) (now : Instant) (clock : Clock) :
    h.site.Ages (h.advance m s now clock).1 :=
  (h.ages_effect m s).trans (ages_killIfForced _ _ _ _)

theorem attends_advance (hp : Attends h.site s.pump) :
    Attends (h.advance m s now clock).1 (h.advance m s now clock).2 := by
  have hages := h.ages_advance m s now clock
  have htends := s.pump.tends_step (h.observe s now clock (h.effect m s).1)
  refine ⟨htends.quiet hp.quiet, fun w hw => ?_, fun w deadline hw => ?_⟩
  · rcases htends.watched_of hp.quiet hw with hwas | ⟨-, hspawned⟩
    · exact Nat.lt_of_lt_of_le (hp.known w hwas) hages.length_le
    · have hlt := effect_spawned hspawned
      rwa [advance, length_killIfForced]
  · rcases htends.terminating hw with hwas | ⟨hstopping, hworker⟩
    · exact hages.deaf (hp.known w (Pump.watched_terminating hwas)) (hp.asked w deadline hwas)
    · have heffect : h.effect m s = (.error .cancelled, h.site.request w) := by
        simp [effect, hstopping, hworker]
      have hsite : (h.advance m s now clock).1 = h.site.request w := by
        simp only [advance, heffect, killIfForced, hstopping]
      rw [hsite]
      exact h.site.deaf_request w

theorem watched_launch {o : Observation} {n : Nat} (hp : p.phase = .launching n)
    (hw : p.supervisor.worker = none) (ho : o.spawned = .ok w) :
    watched? (p.step o).1 = some w := by
  rw [Pump.step_launching hp, Pump.launch_ok hw ho]
  rfl

theorem minds_advance (hp : Attends h.site s.pump)
    (hm : w < h.site.workers.length → Minds h.site s.pump w) :
    Minds (h.advance m s now clock).1 (h.advance m s now clock).2 w := by
  intro hlive
  have hages := h.ages_advance m s now clock
  have htends := s.pump.tends_step (h.observe s now clock (h.effect m s).1)
  by_cases hw : w < h.site.workers.length
  · have hwas := hages.isAlive hw hlive
    have hgone : ∀ e, h.site.exit? w ≠ some e := by
      intro e he
      rw [Site.isAlive_of_exit? he] at hwas
      cases hwas
    rcases hm hw hwas with hlost | hwatched | ⟨hover, hrun⟩
    · exact .inl (by simp only [advance, Pump.step_lost hlost, hlost])
    · have hended : (h.observe s now clock (h.effect m s).1).ended = none := by
        have he : (h.observe s now clock (h.effect m s).1).ended = h.site.exit? w := by
          simp [observe, hwatched]
        rw [he]
        exact Option.eq_none_iff_forall_ne_some.2 hgone
      rcases htends.watched hp.quiet hwatched with hstill | hlost | hsome | ⟨⟨deadline, hphase⟩, hq⟩
      · exact .inr (.inl hstill)
      · exact .inl hlost
      · rw [hended] at hsome
        cases hsome
      · have heffect : h.effect m s = (.error .cancelled, h.site) := by
          simp [effect, hphase]
        have hkill : (h.advance m s now clock).1 = (h.site.kill w).2 := by
          rw [heffect] at hended hq
          simp only [advance, heffect, killIfForced, hphase, hq, hended]
        rw [hkill] at hlive ⊢
        refine .inr (.inr ⟨?_, Site.isRunaway_of_kill (hp.asked w deadline hphase) hlive⟩)
        simp only [Pump.stopIsOver, advance, hq]
    · exact .inr (.inr ⟨htends.stopIsOver hover, hages.isRunaway hrun⟩)
  · have hlt : w < (h.effect m s).2.workers.length := by
      by_contra hge
      rw [Site.isAlive_of_length_le] at hlive
      · cases hlive
      · rw [advance, length_killIfForced]
        omega
    obtain ⟨⟨n, hphase⟩, hnone, hspawned⟩ := effect_new (Nat.le_of_not_lt hw) hlt
    exact .inr (.inl (watched_launch hphase hnone hspawned))

end Host
end RigWarden
