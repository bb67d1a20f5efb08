import RigWarden.Proofs.Session.Passage
import RigWarden.Proofs.Session.Watch

/-!
# One worker in an install path

Sessions are started and stopped in any order, by any number of hosts on one disk, while their workers
run and end. A session holds the lock of its install path until the stop of its worker has returned.
So of the workers that were started in an install path at most one is alive, if threads of the
simulator are left out that outlive the grace period: they cannot be killed.
-/

namespace RigWarden

open Disk

namespace Host

/-- What can happen to the sessions on a disk. -/
inductive Turn where
  | start (env : ProvisionEnv) (profile : Profile) (backend : Backend)
  | askStop (session : Nat)
  | pump (session : Nat) (now : Instant) (clock : Clock)
  | worker (w : Nat)
  /-- The next starts are those of another host. -/
  | host (options : SessionOptions) (provisioner : Provisioner)
  /-- Somebody else has changed the disk. -/
  | disk (d : Disk)

def turn (m : Machine) (h : Host) : Turn → Host
  | .start env profile b => (h.start m env profile b).2
  | .askStop i => h.askStop i
  | .pump i now clock => h.pumpStep m now clock i
  | .worker w => h.workerStep w
  | .host options provisioner => { h with options := options, provisioner := provisioner }
  | .disk d => h.withDisk d

/-- What a turn has the pump of session `i` send. -/
def sentIn (m : Machine) (h : Host) (i : Nat) : Turn → List Event
  | .pump j now clock => if j = i then h.sends m now clock i else []
  | _ => []

/-- What session `i` was before a turn after which it is `s`. -/
inductive Becomes (m : Machine) (h : Host) (i : Nat) (t : Turn) (s : Session) : Prop
  | fresh (env : ProvisionEnv) (profile : Profile) (b : Backend) (d d' : Disk)
      (turn : t = .start env profile b) (new : i = h.sessions.length)
      (opens : h.Opens env profile b s.installPath d s.lock d') (free : h.isLocked s.lock = false)
      (fresh : s.Fresh) (grace : s.pump.grace = h.options.gracePeriod)
  | stays (s₀ : Session) (was : h.sessions[i]? = some s₀)
      (same : s = { s₀ with stopAsked := s.stopAsked })
      (asked : s₀.stopAsked = true → s.stopAsked = true) (silent : h.sentIn m i t = [])
      (rests : ∀ now clock, t = .pump i now clock → s₀.pump.isOver = true)
  | steps (s₀ : Session) (now : Instant) (clock : Clock) (spawned : Except Error Nat)
      (was : h.sessions[i]? = some s₀) (running : s₀.pump.isOver = false)
      (turn : t = .pump i now clock) (same : s = s₀.pumped (h.observe s₀ now clock spawned))
      (sent : h.sentIn m i t = (s₀.pump.step (h.observe s₀ now clock spawned)).2)

section becomes

variable {m : Machine} {h : Host} {i : Nat} {t : Turn} {s : Session}

theorem Becomes.same (hs : h.sessions[i]? = some s) (hsilent : h.sentIn m i t = [])
    (hrests : ∀ now clock, t = .pump i now clock → s.pump.isOver = true) : h.Becomes m i t s :=
  .stays s hs rfl id hsilent hrests

theorem becomes_turn (hs : (h.turn m t).sessions[i]? = some s) : h.Becomes m i t s := by
  cases t with
  | start env profile b =>
    change (h.start m env profile b).2.sessions[i]? = some s at hs
    cases hr : (h.start m env profile b).1 with
    | error halt =>
      rcases h.start_cases m env profile b with ⟨_, _, he, -⟩ | ⟨_, _, he, hsame⟩
      · rw [he] at hr
        cases hr
      · rw [he] at hs
        exact .same (hsame ▸ hs) rfl (by simp)
    | ok n =>
      obtain ⟨new, d, d', hsessions, hopens, hfree, hfresh, hgrace⟩ := start_ok hr
      rw [hsessions, List.getElem?_append] at hs
      split at hs
      · exact .same hs rfl (by simp)
      · next hge =>
        obtain ⟨hi, rfl⟩ : i - h.sessions.length = 0 ∧ new = s := by
          simpa [List.getElem?_singleton] using hs
        exact .fresh env profile b d d' rfl (by omega) hopens hfree hfresh hgrace
  | askStop j =>
    change (h.askStop j).sessions[i]? = some s at hs
    rcases h.sessions_askStop j with hsame | ⟨u, hu, hset⟩
    · exact .same (hsame ▸ hs) rfl (by simp)
    · rw [hset] at hs
      by_cases hij : j = i
      · subst hij
        rw [List.getElem?_set_self (List.getElem?_eq_some_iff.1 hu).1] at hs
        cases hs
        exact .stays u hu rfl (fun _ => rfl) rfl (by simp)
      · rw [List.getElem?_set_ne hij] at hs
        exact .same hs rfl (by simp)
  | pump j now clock =>
    change (h.pumpStep m now clock j).sessions[i]? = some s at hs
    by_cases hij : j = i
    · subst hij
      cases hwas : h.sessions[j]? with
      | none =>
        rw [pumpStep, hwas] at hs
        simp [hwas] at hs
      | some s₀ =>
        cases hover : s₀.pump.isOver with
        | true =>
          simp only [pumpStep, hwas, hover, if_true] at hs
          cases hs
          exact .same hwas (by simp [sentIn, sends, hwas, hover]) fun _ _ _ => hover
        | false =>
          have hlt := (List.getElem?_eq_some_iff.1 hwas).1
          simp only [pumpStep, hwas, hover, Bool.false_eq_true, if_false, setSession,
            List.getElem?_set_self hlt] at hs
          cases hs
          exact .steps s₀ now clock (h.effect m s₀).1 hwas hover rfl rfl
            (by simp [sentIn, sends, hwas, hover])
    · have hsame : (h.pumpStep m now clock j).sessions[i]? = h.sessions[i]? := by
        rcases h.pumpStep_cases m now clock j with ⟨he, -⟩ | ⟨_, _, _, _, he, -⟩
        · rw [he]
        · rw [he, List.getElem?_set_ne hij]
      refine .same (hsame ▸ hs) (by simp [sentIn, hij]) ?_
      rintro now' clock' ⟨⟩
      exact absurd rfl hij
  | worker w => exact .same hs rfl (by simp)
  | host options provisioner => exact .same hs rfl (by simp)
  | disk d => exact .same hs rfl (by simp)

theorem length_le_turn (m : Machine) (h : Host) (t : Turn) :
    h.sessions.length ≤ (h.turn m t).sessions.length := by
  cases t with
  | start env profile b =>
    change _ ≤ (h.start m env profile b).2.sessions.length
    rcases h.start_cases m env profile b with ⟨_, _, he, hs⟩ | ⟨_, _, he, hs⟩ <;> rw [he, hs]
    simp
  | askStop i => exact (h.length_askStop i).ge
  | pump i now clock => exact (h.length_pumpStep m now clock i).ge
  | worker w => exact Nat.le_refl _
  | host options provisioner => exact Nat.le_refl _
  | disk d => exact Nat.le_refl _

theorem exists_turn {u : Session} (hu : h.sessions[i]? = some u) (m : Machine) (t : Turn) :
    ∃ after, (h.turn m t).sessions[i]? = some after :=
  ⟨_, List.getElem?_eq_getElem
    ((List.getElem?_eq_some_iff.1 hu).1.trans_le (h.length_le_turn m t))⟩

end becomes

end Host

/-- A host, with the session that each of its workers was started by. -/
structure Crew where
  host : Host
  starters : List Nat := []

namespace Crew

open Host

def turn (m : Machine) (c : Crew) (t : Turn) : Crew :=
  let host := c.host.turn m t
  let added := host.site.workers.length - c.host.site.workers.length
  match t with
  | .pump i _ _ => ⟨host, c.starters ++ List.replicate added i⟩
  | _ => { c with host := host }

def turns (m : Machine) (c : Crew) (ts : List Turn) : Crew := ts.foldl (turn m) c

@[simp] theorem turns_nil (m : Machine) (c : Crew) : c.turns m [] = c := rfl

@[simp] theorem host_turn (m : Machine) (c : Crew) (t : Turn) :
    (c.turn m t).host = c.host.turn m t := by
  cases t <;> rfl

theorem turns_append (m : Machine) (c : Crew) (ts ts' : List Turn) :
    c.turns m (ts ++ ts') = (c.turns m ts).turns m ts' :=
  List.foldl_append

/-- What the pump of session `i` sends in a run. -/
def sentBy (m : Machine) (i : Nat) (c : Crew) : List Turn → List Event
  | [] => []
  | t :: ts => c.host.sentIn m i t ++ sentBy m i (c.turn m t) ts

/-- Worker `w` was started by session `i`, which is `s` now. -/
def Started (c : Crew) (w i : Nat) (s : Session) : Prop :=
  c.starters[w]? = some i ∧ c.host.sessions[i]? = some s

/-- Worker `w` was started in `p` and has not ended. -/
def LivesIn (c : Crew) (p : Path) (w : Nat) : Prop :=
  c.host.site.isAlive w = true ∧ ∃ i s, c.Started w i s ∧ s.installPath = p

/-- A thread of the simulator that was asked to end and has outlived its session's stop. -/
def Outlives (c : Crew) (w : Nat) : Prop :=
  c.host.site.IsRunaway w ∧ ∃ i s, c.Started w i s ∧ s.pump.stopIsOver = true

/-- Every worker has a session that minds it. -/
structure Minded (c : Crew) : Prop where
  counted : c.starters.length = c.host.site.workers.length
  known : ∀ i ∈ c.starters, i < c.host.sessions.length
  attends : ∀ s ∈ c.host.sessions, Attends c.host.site s.pump
  minds : ∀ w i s, c.Started w i s → Minds c.host.site s.pump w

section minded

variable {c d : Crew} {m : Machine}

/-- Nothing happens to the pumps, and the workers grow older. -/
theorem Minded.ages (h : c.Minded) (hstarters : d.starters = c.starters)
    (hlength : d.host.site.workers.length = c.host.site.workers.length)
    (hages : c.host.site.Ages d.host.site)
    (hsessions : d.host.sessions.length = c.host.sessions.length)
    (hpumps : ∀ (i : Nat) s, d.host.sessions[i]? = some s →
      ∃ t, c.host.sessions[i]? = some t ∧ t.pump = s.pump) : d.Minded := by
  refine ⟨?_, fun i hi => ?_, fun s hs => ?_, fun w i s hw => ?_⟩
  · rw [hstarters, hlength, h.counted]
  · rw [hsessions]
    exact h.known i (hstarters ▸ hi)
  · obtain ⟨i, hi⟩ := List.mem_iff_getElem?.1 hs
    obtain ⟨t, ht, hpump⟩ := hpumps i s hi
    rw [← hpump]
    exact (h.attends t (List.mem_of_getElem? ht)).ages hages
  · obtain ⟨hstarter, hs⟩ := hw
    obtain ⟨t, ht, hpump⟩ := hpumps i s hs
    rw [hstarters] at hstarter
    rw [← hpump]
    refine (h.minds w i t ⟨hstarter, ht⟩).ages hages ?_
    rw [← h.counted]
    exact (List.getElem?_eq_some_iff.1 hstarter).1

theorem pump_askStop {h : Host} {i j : Nat} {s : Session} (hs : (h.askStop i).sessions[j]? = some s) :
    ∃ t, h.sessions[j]? = some t ∧ t.pump = s.pump := by
  unfold askStop Host.modify at hs
  cases ht : h.sessions[i]? with
  | none => exact ⟨s, by simpa [ht] using hs, rfl⟩
  | some t =>
    simp only [ht, Host.setSession] at hs
    by_cases hij : i = j
    · subst hij
      rw [List.getElem?_set_self (List.getElem?_eq_some_iff.1 ht).1] at hs
      cases hs
      exact ⟨t, ht, rfl⟩
    · rw [List.getElem?_set_ne hij] at hs
      exact ⟨s, hs, rfl⟩

theorem attends_fresh {s : Session} (h : s.Fresh) (site : Site) : Attends site s.pump := by
  have hgoing : s.pump.hasLetGo = false := by simp [Pump.hasLetGo, h.phase]
  refine ⟨.of_phase hgoing, fun w hw => ?_, fun w deadline hw => ?_⟩
  · rw [Pump.watched_of_letGo hgoing, h.worker] at hw
    cases hw
  · rw [h.phase] at hw
    cases hw

theorem Minded.start (h : c.Minded) (env : ProvisionEnv) (profile : Profile) (b : Backend) :
    (c.turn m (.start env profile b)).Minded := by
  have hworkers := (c.host.start_leaves m env profile b).1
  have hages : c.host.site.Ages (c.host.start m env profile b).2.site := .of_workers_eq hworkers
  cases hr : (c.host.start m env profile b).1 with
  | error halt =>
    have hsessions : (c.host.start m env profile b).2.sessions = c.host.sessions := by
      rcases c.host.start_cases m env profile b with ⟨_, _, he, -⟩ | ⟨_, _, he, hs⟩
      · rw [he] at hr
        cases hr
      · rw [he]
        exact hs
    refine h.ages rfl (congrArg List.length hworkers) hages (congrArg List.length hsessions) ?_
    intro i s hs
    exact ⟨s, hsessions ▸ hs, rfl⟩
  | ok n =>
    obtain ⟨s, _, _, hsessions, -, -, hfresh, -⟩ := start_ok hr
    refine ⟨?_, fun i hi => ?_, fun t ht => ?_, fun w i t hw => ?_⟩
    · exact h.counted.trans (congrArg List.length hworkers).symm
    · have hlt := h.known i hi
      change i < (c.host.start m env profile b).2.sessions.length
      rw [hsessions, List.length_append]
      omega
    · change t ∈ (c.host.start m env profile b).2.sessions at ht
      rw [hsessions, List.mem_append, List.mem_singleton] at ht
      rcases ht with ht | rfl
      · exact (h.attends t ht).ages hages
      · exact attends_fresh hfresh _
    · obtain ⟨hstarter, ht⟩ := hw
      change c.starters[w]? = some i at hstarter
      change (c.host.start m env profile b).2.sessions[i]? = some t at ht
      rw [hsessions, List.getElem?_append_left (h.known i (List.mem_of_getElem? hstarter))] at ht
      refine (h.minds w i t ⟨hstarter, ht⟩).ages hages ?_
      rw [← h.counted]
      exact (List.getElem?_eq_some_iff.1 hstarter).1

theorem Minded.pump (h : c.Minded) (i : Nat) (now : Instant) (clock : Clock) :
    (c.turn m (.pump i now clock)).Minded := by
  have hsame : c.host.pumpStep m now clock i = c.host → (c.turn m (.pump i now clock)).Minded := by
    intro he
    have hturn : c.turn m (.pump i now clock) = c := by
      simp [turn, Host.turn, he]
    rwa [hturn]
  cases hs : c.host.sessions[i]? with
  | none => exact hsame (by simp [pumpStep, hs])
  | some s =>
    cases hover : s.pump.isOver with
    | true => exact hsame (by simp [pumpStep, hs, hover])
    | false =>
      obtain ⟨channel, he⟩ := pumpStep_eq hs hover m now clock
      have hattends := h.attends s (List.mem_of_getElem? hs)
      have hages := c.host.ages_advance m s now clock
      have hlen := hages.length_le
      have hi := (List.getElem?_eq_some_iff.1 hs).1
      simp only [turn, Host.turn, he, Host.setSession]
      refine ⟨?_, fun j hj => ?_, fun t ht => ?_, fun w j t hw => ?_⟩
      · simp only [List.length_append, List.length_replicate, h.counted]
        omega
      · simp only [List.mem_append, List.mem_replicate] at hj
        simp only [List.length_set]
        rcases hj with hj | ⟨-, rfl⟩
        · exact h.known j hj
        · exact hi
      · rcases List.mem_or_eq_of_mem_set ht with ht | rfl
        · exact (h.attends t ht).ages hages
        · exact attends_advance hattends
      · obtain ⟨hstarter, ht⟩ := hw
        simp only at hstarter ht
        by_cases hij : i = j
        · subst hij
          rw [List.getElem?_set_self hi] at ht
          cases ht
          apply minds_advance hattends
          intro hold
          apply h.minds w i s
          rw [List.getElem?_append_left (h.counted ▸ hold)] at hstarter
          exact ⟨hstarter, hs⟩
        · rw [List.getElem?_set_ne hij] at ht
          have hold : w < c.starters.length := by
            by_contra hge
            rw [List.getElem?_append_right (Nat.le_of_not_lt hge)] at hstarter
            exact hij (List.eq_of_mem_replicate (List.mem_of_getElem? hstarter)).symm
          rw [List.getElem?_append_left hold] at hstarter
          exact (h.minds w j t ⟨hstarter, ht⟩).ages hages (h.counted ▸ hold)

theorem Minded.turn (h : c.Minded) (t : Turn) : (c.turn m t).Minded := by
  cases t with
  | start env profile b => exact h.start env profile b
  | askStop i =>
    have hsite := (c.host.askStop_leaves i).1
    refine h.ages rfl (by simp [Crew.turn, Host.turn, hsite])
      (.of_workers_eq (congrArg Site.workers hsite)) (c.host.length_askStop i) fun j s hs => ?_
    exact pump_askStop hs
  | pump i now clock => exact h.pump i now clock
  | worker w =>
    exact h.ages rfl (c.host.site.length_step w) (c.host.site.ages_step w) rfl
      fun i s hs => ⟨s, hs, rfl⟩
  | host options provisioner => exact h.ages rfl rfl (.refl _) rfl fun i s hs => ⟨s, hs, rfl⟩
  | disk d => exact h.ages rfl rfl (.of_workers_eq rfl) rfl fun i s hs => ⟨s, hs, rfl⟩

theorem Minded.turns (h : c.Minded) (ts : List Turn) : (c.turns m ts).Minded := by
  induction ts generalizing c with
  | nil => exact h
  | cons t ts ih => exact ih (h.turn t)

theorem minded_new (options : SessionOptions) (disk : Disk) :
    (Crew.mk (.new options disk) []).Minded :=
  ⟨rfl, fun i hi => absurd hi List.not_mem_nil, fun s hs => absurd hs List.not_mem_nil,
    fun w i s hw => absurd hw.1 (by simp)⟩

end minded

end Crew

/-! Locks -/

namespace Host

variable {h : Host} {m : Machine} {t : Turn} {p : Path}

/-- Every session has been there, with the lock it has, unless it was started just now. -/
theorem session_turn {i : Nat} {s : Session} (hs : (h.turn m t).sessions[i]? = some s) :
    (∃ s₀, h.sessions[i]? = some s₀ ∧ s₀.lock = s.lock ∧ s₀.installPath = s.installPath ∧
      (s.holdsLock = true → s₀.holdsLock = true)) ∨
    i = h.sessions.length ∧ ∃ env profile b d d', t = .start env profile b ∧
      h.Opens env profile b s.installPath d s.lock d' ∧ h.isLocked s.lock = false := by
  cases becomes_turn hs with
  | fresh env profile b d d' turn new opens free _ _ =>
    exact .inr ⟨new, env, profile, b, d, d', turn, opens, free⟩
  | stays s₀ was same _ _ _ =>
    rw [same]
    exact .inl ⟨s₀, was, rfl, rfl, id⟩
  | steps s₀ now clock spawned was running _ same _ =>
    rw [same]
    exact .inl ⟨s₀, was, rfl, rfl, fun _ => by simp [Session.holdsLock, running]⟩

/-- At most one session that is not over has the install path `p`. -/
def Sole (p : Path) (h : Host) : Prop :=
  ∀ (i j : Nat) s u, h.sessions[i]? = some s → h.sessions[j]? = some u → s.holdsLock = true →
    u.holdsLock = true → s.installPath = p → u.installPath = p → i = j

/-- It stays like that if a session that starts in `p` finds none that runs there. -/
theorem Sole.turn (hsole : h.Sole p)
    (hnew : ∀ env profile b d lock d', t = .start env profile b → h.Opens env profile b p d lock d' →
      h.isLocked lock = false → ∀ u ∈ h.sessions, u.holdsLock = true → u.installPath ≠ p) :
    (h.turn m t).Sole p := by
  intro i j s u hs hu hsl hul hsp hup
  rcases session_turn hs with ⟨s₀, hs₀, -, hspath, hsheld⟩ |
    ⟨hi, env, profile, b, d, d', ht, hopens, hfree⟩
  · rcases session_turn hu with ⟨u₀, hu₀, -, hupath, huheld⟩ |
      ⟨-, env, profile, b, d, d', ht, hopens, hfree⟩
    · exact hsole i j s₀ u₀ hs₀ hu₀ (hsheld hsl) (huheld hul) (hspath.trans hsp) (hupath.trans hup)
    · exact absurd (hspath.trans hsp) (hnew env profile b d u.lock d' ht (hup ▸ hopens) hfree s₀
        (List.mem_of_getElem? hs₀) (hsheld hsl))
  · rcases session_turn hu with ⟨u₀, hu₀, -, hupath, huheld⟩ | ⟨hj, -⟩
    · exact absurd (hupath.trans hup) (hnew env profile b d s.lock d' ht (hsp ▸ hopens) hfree u₀
        (List.mem_of_getElem? hu₀) (huheld hul))
    · exact hi.trans hj.symm

theorem not_holds_of_free {lock : Nat} (hfree : h.isLocked lock = false) {u : Session}
    (hu : u ∈ h.sessions) (hheld : u.holdsLock = true) : u.lock ≠ lock := by
  intro he
  have hlocked : h.isLocked lock = true :=
    List.any_eq_true.2 ⟨u, hu, by simp [he, hheld]⟩
  rw [hfree] at hlocked
  cases hlocked

end Host

namespace Crew

open Host

variable {c : Crew} {m : Machine} {p : Path} {w : Nat}

/-- Of the workers that were started in `p` one is alive at most, under the lock of its session. Threads
of the simulator that outlive the stop are left out. -/
structure Exclusive (c : Crew) (p : Path) : Prop where
  one : ∀ v w, c.LivesIn p v → c.LivesIn p w → v = w ∨ c.Outlives v ∨ c.Outlives w
  locked : ∀ w, c.LivesIn p w →
    c.Outlives w ∨ ∃ i s, c.Started w i s ∧ s.installPath = p ∧ s.holdsLock = true

/-- Whoever lives and has not outlived its stop is watched by a session that has the lock. -/
theorem Minded.watched (h : c.Minded) (hw : c.LivesIn p w)
    (hlost : ∀ s ∈ c.host.sessions, s.installPath = p → s.pump.phase ≠ .lost) :
    c.Outlives w ∨ ∃ i s, c.Started w i s ∧ s.installPath = p ∧ s.holdsLock = true ∧
      watched? s.pump = some w := by
  obtain ⟨hlive, i, s, hstarted, hpath⟩ := hw
  have hs := List.mem_of_getElem? hstarted.2
  rcases h.minds w i s hstarted hlive with hl | hwatched | ⟨hover, hrun⟩
  · exact absurd hl (hlost s hs hpath)
  · refine .inr ⟨i, s, hstarted, hpath, ?_, hwatched⟩
    by_contra hover
    have hphase : s.pump.phase = .done :=
      (Pump.isOver_iff.1 (by simpa [Session.holdsLock] using hover)).resolve_right (hlost s hs hpath)
    rw [(h.attends s hs).quiet.watched_of_stopIsOver (by simp [Pump.stopIsOver, hphase])] at hwatched
    cases hwatched
  · exact .inl ⟨hrun, i, s, hstarted, hover⟩

/-- When the stop has returned, no worker of the session is alive but one that outlives it. -/
theorem Minded.ended {i : Nat} {s : Session} (h : c.Minded) (hstarted : c.Started w i s)
    (hover : s.pump.stopIsOver = true) : c.host.site.isAlive w = false ∨ c.Outlives w := by
  cases hlive : c.host.site.isAlive w with
  | false => exact .inl rfl
  | true =>
    have hquiet := (h.attends s (List.mem_of_getElem? hstarted.2)).quiet
    rcases h.minds w i s hstarted hlive with hl | hwatched | ⟨-, hrun⟩
    · simp [Pump.stopIsOver, hl] at hover
    · rw [hquiet.watched_of_stopIsOver hover] at hwatched
      cases hwatched
    · exact .inr ⟨hrun, i, s, hstarted, hover⟩

theorem Minded.exclusive (h : c.Minded)
    (hlost : ∀ s ∈ c.host.sessions, s.installPath = p → s.pump.phase ≠ .lost)
    (hsole : c.host.Sole p) : c.Exclusive p := by
  refine ⟨fun v w hv hw => ?_, fun w hw => ?_⟩
  · rcases h.watched hv hlost with hout | ⟨i, s, hs, hspath, hslock, hsw⟩
    · exact .inr (.inl hout)
    · rcases h.watched hw hlost with hout | ⟨j, t, ht, htpath, htlock, htw⟩
      · exact .inr (.inr hout)
      · obtain rfl := hsole i j s t hs.2 ht.2 hslock htlock hspath htpath
        have hst : s = t := Option.some.inj (hs.2.symm.trans ht.2)
        rw [hst, htw] at hsw
        exact .inl (Option.some.inj hsw.symm)
  · rcases h.watched hw hlost with hout | ⟨i, s, hs, hpath, hlock, -⟩
    · exact .inl hout
    · exact .inr ⟨i, s, hs, hpath, hlock⟩

/-- The simulator ends at the act after it was asked to. -/
def slowMachine : Machine where
  processors := 1
  execute := fun _ _ _ => .error .notFound
  simulate := fun _ _ => ⟨[], some [.exit .success]⟩

def look (i : Nat) : Turn := .pump i ⟨0, 0⟩ ⟨0, 0⟩

end Crew

end RigWarden
