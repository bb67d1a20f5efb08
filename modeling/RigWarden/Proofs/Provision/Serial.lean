import RigWarden.Proofs.Provision.Beside

/-!
# Calls take effect one after the other

However the steps of several calls are interleaved, only one call is under way at a time. From the
moment the provisioner was last free it has done what it would do alone. So what holds after whole
calls holds whenever the provisioner is free, and a call that has begun can be told from where it
began.
-/

namespace RigWarden.Provision

open Disk

section stage

variable {env : ProvisionEnv} {desc : Descriptor} {b b' : Bench} {s s' : Stage} {r : Except Halt Path}
  {n : Nat}

theorem Stage.run_add (m n : Nat) (b : Bench) (s : Stage) :
    Stage.run env desc (m + n) b s =
      Stage.run env desc n (Stage.run env desc m b s).1 (Stage.run env desc m b s).2 := by
  induction m generalizing b s with
  | zero => rw [Nat.zero_add, Stage.run]
  | succ m ih => rw [Nat.succ_add, Stage.run_succ, Stage.run_succ, ih]

/-- A call that has returned has done what a single call does. -/
theorem Stage.provision_of_run (h : Stage.run env desc n b .looking = (b', .returned r)) :
    b.provisioner.provision env desc b.disk = (r, b'.provisioner, b'.disk) := by
  have hfirst : Stage.run env desc (n + 5) b .looking = (b', .returned r) := by
    rw [Stage.run_add, h, Stage.run_returned]
  rw [Nat.add_comm, Stage.run_add, Stage.run_looking, Stage.run_returned] at hfirst
  cases hfirst
  rfl

/-- A call that is under way goes on until it returns. -/
theorem Stage.active_step (hs : s.isActive = true) (h : s.step env desc b = (b', s')) :
    s'.isActive = true ∨ ∃ r, s' = .returned r := by
  cases s with
  | waiting => cases hs
  | returned r => cases hs
  | looking =>
    rw [Stage.step, look] at h
    split at h
    · cases h
      exact .inr ⟨_, rfl⟩
    · split at h
      · cases h
        exact .inr ⟨_, rfl⟩
      · split at h <;> cases h
        · exact .inr ⟨_, rfl⟩
        · exact .inl rfl
  | preparing artifact deadline =>
    rw [Stage.step] at h
    split at h <;> cases h <;> exact .inl rfl
  | fetching artifact deadline download =>
    rw [Stage.step] at h
    split at h <;> cases h <;> exact .inl rfl
  | installing artifact deadline download items =>
    cases h
    exact .inl rfl
  | concluding end_ =>
    cases h
    exact .inr ⟨_, rfl⟩

end stage

/-! One call at a time -/

/-- At most one call is under way, and it has begun with `b`. -/
structure Turn (o : Office) (b : Bench) : Prop where
  sole : ∀ (i j : Nat) (c c' : Caller), o.callers[i]? = some c → o.callers[j]? = some c' →
    c.stage.isActive = true → c'.stage.isActive = true → i = j
  idle : o.isFree = true → o.bench = b
  busy : ∀ (k : Nat) (c : Caller), o.callers[k]? = some c → c.stage.isActive = true →
    ∃ n, Stage.run c.env c.desc n b .looking = (o.bench, c.stage)

section turns

variable {o : Office} {b : Bench} {i j k : Nat} {c c' : Caller}

theorem isFree_iff : o.isFree = true ↔ ∀ c ∈ o.callers, c.stage.isActive = false := by
  simp [Office.isFree]

theorem inactive_of_isFree (h : o.isFree = true) (hi : o.callers[i]? = some c) :
    c.stage.isActive ≠ true := by
  simp [isFree_iff.1 h c (List.mem_of_getElem? hi)]

theorem Turn.of_free (h : o.isFree = true) : Turn o o.bench :=
  ⟨fun _ _ _ _ hi _ hc _ => absurd hc (inactive_of_isFree h hi), fun _ => rfl,
    fun _ _ hk hc => absurd hc (inactive_of_isFree h hk)⟩

/-- One caller goes on to a stage, the bench with it. -/
def Office.setStage (o : Office) (k : Nat) (c : Caller) (b : Bench) (s : Stage) : Office :=
  { o with bench := b, callers := o.callers.set k { c with stage := s } }

theorem callers_setStage {b' : Bench} {s : Stage}
    (hi : (Office.setStage o k c b' s).callers[i]? = some c') :
    i = k ∧ c' = { c with stage := s } ∨ i ≠ k ∧ o.callers[i]? = some c' := by
  rw [Office.setStage, List.getElem?_set] at hi
  split at hi
  · next he =>
    subst he
    split at hi <;> cases hi
    exact .inl ⟨rfl, rfl⟩
  · next hne => exact .inr ⟨fun he => hne he.symm, hi⟩

theorem callers_call {desc : Descriptor} {env : ProvisionEnv}
    (hi : (o.step (.call desc env)).callers[i]? = some c) :
    o.callers[i]? = some c ∨ c = ⟨desc, env, .waiting⟩ := by
  rw [Office.step, List.getElem?_append] at hi
  split at hi
  · exact .inl hi
  · exact .inr (List.mem_singleton.1 (List.mem_of_getElem? hi))

/-- All that a step can do. -/
theorem office_step_cases (o : Office) (s : Office.Step) :
    (∃ desc env, s = .call desc env ∧
      o.step s = { o with callers := o.callers ++ [⟨desc, env, .waiting⟩] }) ∨
    o.step s = o ∨
    ∃ k c, s = .goOn k ∧ o.callers[k]? = some c ∧
      (c.stage = .waiting ∧ o.isFree = true ∧ o.step s = o.setStage k c o.bench .looking ∨
        c.stage.isActive = true ∧ ∃ b s', c.stage.step c.env c.desc o.bench = (b, s') ∧
          o.step s = o.setStage k c b s') := by
  cases s with
  | call desc env => exact .inl ⟨desc, env, rfl, rfl⟩
  | goOn k =>
    refine .inr ?_
    cases hk : o.callers[k]? with
    | none => exact .inl (by simp only [Office.step, hk])
    | some c =>
      cases hs : c.stage with
      | waiting =>
        by_cases hfree : o.isFree = true
        · refine .inr ⟨k, c, rfl, hk, .inl ⟨hs, hfree, ?_⟩⟩
          simp only [Office.step, hk, hs, hfree, if_true, Office.setStage]
        · exact .inl (by simp only [Office.step, hk, hs, if_neg hfree])
      | returned r =>
        have hsame : ({ c with stage := .returned r } : Caller) = c := by rw [← hs]
        obtain ⟨hlt, hget⟩ := List.getElem?_eq_some_iff.1 hk
        left
        simp only [Office.step, hk, hs, Stage.step, hsame]
        rw [← hget, List.set_getElem_self]
      | _ =>
        refine .inr ⟨k, c, rfl, hk, .inr ⟨by rw [hs]; rfl, _, _, rfl, ?_⟩⟩
        simp only [Office.step, hk, hs, Office.setStage]
        rfl

/-- A step leaves the call that is under way where it can be told from, or ends it. -/
theorem Turn.step (h : Turn o b) (s : Office.Step) :
    Turn (o.step s) b ∧ (∀ (i : Nat) (c : Caller) r, (o.step s).callers[i]? = some c →
      c.stage = .returned r → o.callers[i]? = some c) ∨
    ∃ (k : Nat) (c : Caller) (r : Except Halt Path) (b' : Bench), o.callers[k]? = some c ∧
      b.provisioner.provision c.env c.desc b.disk = (r, b'.provisioner, b'.disk) ∧
      o.step s = o.setStage k c b' (.returned r) ∧ Turn (o.step s) b' := by
  rcases office_step_cases o s with ⟨desc, env, rfl, hstep⟩ | hstep |
    ⟨k, c, rfl, hk, ⟨hwait, hfree, hstep⟩ | ⟨hact, b', s', hstage, hstep⟩⟩
  · have hold : ∀ {i : Nat} {c : Caller}, (o.step (.call desc env)).callers[i]? = some c →
        c.stage ≠ .waiting → o.callers[i]? = some c := fun {i c} hi hne =>
      (callers_call hi).resolve_right fun he => hne (he ▸ rfl)
    have hne : ∀ {c : Caller}, c.stage.isActive = true → c.stage ≠ .waiting := fun hc he => by
      rw [he] at hc
      cases hc
    refine .inl ⟨⟨fun i j c c' hi hj hc hc' => h.sole i j c c' (hold hi (hne hc)) (hold hj (hne hc'))
      hc hc', fun hfree => h.idle (isFree_iff.2 fun c hc => isFree_iff.1 hfree c ?_), fun k c hk hc =>
        h.busy k c (hold hk (hne hc)) hc⟩, fun i c r hi hr => hold hi (hr ▸ nofun)⟩
    exact List.mem_append_left _ hc
  · rw [hstep]
    exact .inl ⟨h, fun _ _ _ hi _ => hi⟩
  · obtain rfl := h.idle hfree
    rw [hstep]
    have hactive : ∀ {i : Nat} {c' : Caller}, (o.setStage k c o.bench .looking).callers[i]? = some c' →
        c'.stage.isActive = true → i = k ∧ c' = { c with stage := .looking } := fun hi hc' =>
      (callers_setStage hi).resolve_right fun ⟨_, hi'⟩ => inactive_of_isFree hfree hi' hc'
    refine .inl ⟨⟨fun i j c₁ c₂ hi hj h₁ h₂ => (hactive hi h₁).1.trans (hactive hj h₂).1.symm,
      fun _ => rfl, fun i c' hi hc' => ?_⟩, fun i c' r hi hr => ?_⟩
    · obtain ⟨-, rfl⟩ := hactive hi hc'
      exact ⟨0, rfl⟩
    · rcases callers_setStage hi with ⟨-, rfl⟩ | ⟨-, hi'⟩
      · cases hr
      · exact hi'
  · obtain ⟨n, hn⟩ := h.busy k c hk hact
    have hrun : Stage.run c.env c.desc (n + 1) b .looking = (b', s') := by
      rw [Stage.run_add, hn]
      exact hstage
    have hothers : ∀ {i : Nat} {c' : Caller}, i ≠ k → o.callers[i]? = some c' →
        c'.stage.isActive ≠ true := fun hne hi hc' => hne (h.sole _ k _ c hi hk hc' hact)
    rw [hstep]
    rcases Stage.active_step hact hstage with hs' | ⟨r, rfl⟩
    · have hactive : ∀ {i : Nat} {c' : Caller}, (o.setStage k c b' s').callers[i]? = some c' →
          c'.stage.isActive = true → i = k ∧ c' = { c with stage := s' } := fun hi hc' =>
        (callers_setStage hi).resolve_right fun ⟨hne, hi'⟩ => hothers hne hi' hc'
      have hmem : { c with stage := s' } ∈ (o.setStage k c b' s').callers :=
        List.mem_set (List.getElem?_eq_some_iff.1 hk).1 _
      refine .inl ⟨⟨fun i j c₁ c₂ hi hj h₁ h₂ => (hactive hi h₁).1.trans (hactive hj h₂).1.symm,
        fun hfree => ?_, fun i c' hi hc' => ?_⟩, fun i c' r hi hr => ?_⟩
      · have := isFree_iff.1 hfree _ hmem
        simp [hs'] at this
      · obtain ⟨-, rfl⟩ := hactive hi hc'
        exact ⟨n + 1, hrun⟩
      · rcases callers_setStage hi with ⟨-, rfl⟩ | ⟨-, hi'⟩
        · simp only at hr
          rw [hr] at hs'
          cases hs'
        · exact hi'
    · refine .inr ⟨k, c, r, b', hk, Stage.provision_of_run hrun, rfl, Turn.of_free ?_⟩
      refine isFree_iff.2 fun c' hc' => ?_
      obtain ⟨i, hi⟩ := List.getElem?_of_mem hc'
      rcases callers_setStage hi with ⟨-, rfl⟩ | ⟨hne, hi'⟩
      · rfl
      · simpa using hothers hne hi'

end turns

/-! What one call fetches and records -/

/-- What was fetched and recorded, the latest record first. -/
structure Account where
  fetches : Nat := 0
  states : List (Backend × ProvisionState) := []

/-- The account after a step that took the provisioner from `p` to `q`. -/
def Account.add (a : Account) (p q : Provisioner) : Account :=
  ⟨a.fetches + (q.fetches - p.fetches),
    q.records.take (q.records.length - p.records.length) ++ a.states⟩

/-- What the caller `k` fetches and records while steps are taken. -/
def account (k : Nat) (o : Office) : List Office.Step → Account → Account
  | [], a => a
  | s :: steps, a =>
    let a := match s with
      | .call _ _ => a
      | .goOn j => if j = k then a.add o.bench.provisioner (o.step s).bench.provisioner else a
    account k (o.step s) steps a

/-- The result of a call with a download that came to an end. -/
def concludes : Except Error Unit → Except Halt Path → Prop
  | .ok _, r => ∃ install, r = .ok install
  | .error e, r => r = .error (.error e)

/-- How far a call has come, how often it has fetched and what it has recorded, the latest first. -/
inductive Along : Stage → Nat → List ProvisionState → Prop
  | waiting : Along .waiting 0 []
  | looking : Along .looking 0 []
  | preparing {artifact deadline} : Along (.preparing artifact deadline) 0 []
  | fetching {artifact deadline download} :
      Along (.fetching artifact deadline download) 0 [.downloading]
  | installing {artifact deadline download items} :
      Along (.installing artifact deadline download items) 1 [.extracting, .downloading]
  | concluding {end_ fetched states} (h : Provisioner.Progress fetched states)
      (hend : states.head? ≠ some .extracting → ∃ e, end_ = .error e) :
      Along (.concluding end_) fetched.toNat states
  | spared {r states} : Along (.returned r) 0 states
  | settled {end_ r fetched states} (h : Provisioner.Progress fetched states)
      (hend : states.head? ≠ some .extracting → ∃ e, end_ = .error e) (hr : concludes end_ r) :
      Along (.returned r) fetched.toNat (Provisioner.settled end_ :: states)

section accounts

open Provisioner

variable {env : ProvisionEnv} {desc : Descriptor} {b b' : Bench} {s s' : Stage} {f : Nat}
  {states : List ProvisionState} {k : Nat} {o : Office} {a : Account}

theorem noted_conclude (p : Provisioner) (desc : Descriptor) (end_ : Except Error Unit) :
    Noted p (p.conclude desc end_).2 desc.backend [settled end_] ∧
      (p.conclude desc end_).2.fetches = p.fetches ∧ concludes end_ (p.conclude desc end_).1 := by
  cases end_ with
  | ok u => exact ⟨(Noted.refl p _).record _, rfl, _, rfl⟩
  | error e => exact ⟨(Noted.refl p _).record _, rfl, rfl⟩

theorem noted_provisionBuiltIn (p : Provisioner) (desc : Descriptor) (d : Disk) :
    ∃ more, Noted p (p.provisionBuiltIn desc d).2.1 desc.backend more ∧
      (p.provisionBuiltIn desc d).2.1.fetches = p.fetches := by
  unfold provisionBuiltIn
  simp only
  split
  · exact ⟨[.ready], (Noted.refl _ _).record _, rfl⟩
  · exact ⟨[], .refl _ _, rfl⟩

theorem Along.looking_of_waiting (h : Along .waiting f states) : Along .looking f states := by
  cases h
  exact .looking

/-- One step of a call adds to what it has recorded and fetched. -/
theorem Along.step (h : Along s f states) (hstep : s.step env desc b = (b', s')) :
    ∃ more n, Noted b.provisioner b'.provisioner desc.backend more ∧
      b'.provisioner.fetches = b.provisioner.fetches + n ∧ Along s' (f + n) (more ++ states) := by
  cases h with
  | waiting =>
    cases hstep
    exact ⟨[], 0, .refl _ _, rfl, .waiting⟩
  | looking =>
    rw [Stage.step, look] at hstep
    split at hstep
    · cases hstep
      obtain ⟨more, hn, hf⟩ := noted_provisionBuiltIn b.provisioner desc b.disk
      exact ⟨more, 0, hn, hf, .spared⟩
    · split at hstep
      · cases hstep
        exact ⟨[.ready], 0, (Noted.refl _ _).record _, rfl, .spared⟩
      · split at hstep <;> cases hstep
        · exact ⟨[], 0, .refl _ _, rfl, .spared⟩
        · exact ⟨[], 0, .refl _ _, rfl, .preparing⟩
  | preparing =>
    rw [Stage.step] at hstep
    split at hstep
    · next ho =>
      cases hstep
      obtain ⟨hf, ⟨-, hn⟩ | hn⟩ := noted_openDownload ho
      · exact ⟨[], 0, hn, hf, .concluding .unopened fun _ => ⟨_, rfl⟩⟩
      · exact ⟨_, 0, hn, hf, .concluding .unfetched fun _ => ⟨_, rfl⟩⟩
    · next ho =>
      cases hstep
      obtain ⟨hf, ⟨⟨_, he⟩, -⟩ | hn⟩ := noted_openDownload ho
      · cases he
      · exact ⟨_, 0, hn, hf, .fetching⟩
  | fetching =>
    rw [Stage.step] at hstep
    split at hstep
    · next hfetch =>
      cases hstep
      obtain ⟨hf, ⟨-, hn⟩ | ⟨⟨_, he⟩, -⟩⟩ := noted_fetch hfetch
      · exact ⟨[], 1, hn, hf, .concluding .fetching fun _ => ⟨_, rfl⟩⟩
      · cases he
    · next hfetch =>
      cases hstep
      obtain ⟨hf, ⟨⟨_, he⟩, -⟩ | ⟨-, hn⟩⟩ := noted_fetch hfetch
      · cases he
      · exact ⟨_, 1, hn, hf, .installing⟩
  | installing =>
    cases hstep
    exact ⟨[], 0, .refl _ _, rfl, .concluding .unpacking fun hne => absurd rfl hne⟩
  | @concluding end_ fetched _ h hend =>
    cases hstep
    obtain ⟨hn, hf, hr⟩ := noted_conclude b.provisioner desc end_
    exact ⟨_, 0, hn, hf, .settled h hend hr⟩
  | spared =>
    cases hstep
    exact ⟨[], 0, .refl _ _, rfl, .spared⟩
  | settled h hend hr =>
    cases hstep
    exact ⟨[], 0, .refl _ _, rfl, .settled h hend hr⟩

theorem Account.add_noted {p q : Provisioner} {n : Nat} {more : List ProvisionState}
    (hn : Noted p q desc.backend more) (hf : q.fetches = p.fetches + n) :
    a.add p q = ⟨a.fetches + n, more.map (desc.backend, ·) ++ a.states⟩ := by
  simp [Account.add, hn.records, hf]

/-- The account of a caller fits its stage. -/
structure Kept (k : Nat) (o : Office) (a : Account) : Prop where
  along : ∀ c : Caller, o.callers[k]? = some c →
    ∃ states, a.states = states.map (c.desc.backend, ·) ∧ Along c.stage a.fetches states
  missing : o.callers[k]? = none → a = {}

theorem Kept.step (h : Kept k o a) (s : Office.Step) :
    Kept k (o.step s) (match s with
      | .call _ _ => a
      | .goOn j => if j = k then a.add o.bench.provisioner (o.step s).bench.provisioner else a) := by
  have hsame : ∀ p : Provisioner, a.add p p = a := fun p => by simp [Account.add]
  rcases office_step_cases o s with ⟨desc, env, rfl, hstep⟩ | hstep |
    ⟨j, c, rfl, hj, ⟨hwait, -, hstep⟩ | ⟨-, b', s', hstage, hstep⟩⟩
  · refine ⟨fun c hc => ?_, fun hnone => h.missing ?_⟩
    · cases hk : o.callers[k]? with
      | none =>
        rcases callers_call hc with hold | rfl
        · rw [hk] at hold
          cases hold
        · rw [h.missing hk]
          exact ⟨[], rfl, .waiting⟩
      | some c' =>
        rw [hstep, List.getElem?_append_left (List.getElem?_eq_some_iff.1 hk).1] at hc
        exact h.along c hc
    · rw [hstep, List.getElem?_eq_none_iff, List.length_append] at hnone
      exact List.getElem?_eq_none_iff.2 (Nat.le_trans (Nat.le_add_right _ _) hnone)
  · rw [hstep]
    cases s with
    | call => exact h
    | goOn j =>
      simp only [hsame, ite_self]
      exact h
  · have hbench : (o.step (.goOn j)).bench = o.bench := by rw [hstep]; rfl
    simp only [hbench, hsame, ite_self]
    rw [hstep]
    refine ⟨fun c' hc' => ?_, fun hnone => h.missing ?_⟩
    · rcases callers_setStage hc' with ⟨rfl, rfl⟩ | ⟨-, hold⟩
      · obtain ⟨states, hs, ha⟩ := h.along c hj
        rw [hwait] at ha
        exact ⟨states, hs, ha.looking_of_waiting⟩
      · exact h.along c' hold
    · simpa [Office.setStage] using hnone
  · have hbench : (o.step (.goOn j)).bench = b' := by rw [hstep]; rfl
    simp only [hbench]
    rw [hstep]
    refine ⟨fun c' hc' => ?_, fun hnone => ?_⟩
    · rcases callers_setStage hc' with ⟨rfl, rfl⟩ | ⟨hne, hold⟩
      · obtain ⟨states, hs, ha⟩ := h.along c hj
        obtain ⟨more, n, hn, hf, ha'⟩ := ha.step hstage
        rw [if_pos rfl, Account.add_noted hn hf, hs]
        exact ⟨more ++ states, (List.map_append ..).symm, ha'⟩
      · rw [if_neg (Ne.symm hne)]
        exact h.along c' hold
    · have hnone' : o.callers[k]? = none := by simpa [Office.setStage] using hnone
      have hne : j ≠ k := fun he => by
        rw [he, hnone'] at hj
        cases hj
      rw [if_neg hne]
      exact h.missing hnone'

theorem Kept.run (h : Kept k o a) (steps : List Office.Step) :
    Kept k (o.run steps) (account k o steps a) := by
  induction steps generalizing o a with
  | nil => exact h
  | cons s steps ih => exact ih (h.step s)

/-- A call fetches once at most, and what a call that has fetched and returned has recorded tells
its result. -/
theorem Along.fetches_le (h : Along s f states) : f ≤ 1 := by
  have hbool : ∀ b : Bool, b.toNat ≤ 1 := by decide
  cases h <;> simp [hbool]

theorem Along.states_of_fetched {r : Except Halt Path} (h : Along (.returned r) 1 states) :
    (∃ install, r = .ok install ∧ states = [.ready, .extracting, .downloading]) ∨
      ∃ e, r = .error (.error e) ∧ (states = [.ofError e, .downloading] ∨
        states = [.ofError e, .extracting, .downloading]) := by
  generalize hs : Stage.returned r = s at h
  generalize hf : 1 = f at h
  cases h with
  | @settled end_ r' fetched states h hend hr =>
    cases hs
    cases end_ with
    | ok u =>
      obtain ⟨install, rfl⟩ := hr
      refine .inl ⟨install, rfl, ?_⟩
      cases h with
      | unopened => cases hf
      | unfetched => cases hf
      | fetching => exact absurd (hend nofun) nofun
      | unpacking => rfl
    | error e =>
      obtain rfl := hr
      refine .inr ⟨e, rfl, ?_⟩
      cases h with
      | unopened => cases hf
      | unfetched => cases hf
      | fetching => exact .inl rfl
      | unpacking => exact .inr rfl
  | spared => cases hf
  | _ => cases hs

end accounts

/-! What holds whenever the provisioner is free -/

/-- The install directories that the calls among the steps are about. -/
def installDirs (steps : List Office.Step) (x : String) : Prop :=
  ∃ desc env, Office.Step.call desc env ∈ steps ∧ desc.installDir = x

/-- Every backend comes with one descriptor and has an install directory of its own in the root. -/
structure Agreed (steps : List Office.Step) : Prop where
  plain : ∀ desc env, Office.Step.call desc env ∈ steps → PlainNames desc
  visible : ∀ x, installDirs steps x → Visible x
  order : ∀ desc env, Office.Step.call desc env ∈ steps → ∀ l, (env.order l).Perm l
  own : ∀ desc env desc' env', Office.Step.call desc env ∈ steps →
    Office.Step.call desc' env' ∈ steps →
    desc.backend = desc'.backend ∨ desc.installDir = desc'.installDir → desc = desc'

/-- An office with a provisioner that has done nothing yet. -/
def Office.opened (root : Path) (d : Disk) : Office := ⟨⟨{ root := root }, d⟩, []⟩

/-- Nothing is on record of a download that would be under way. -/
def AllSettled (b : Bench) : Prop :=
  ∀ backend s, b.provisioner.recorded? backend = some s → s.isSettled = true

/-- The root is in order, and every call that has succeeded has its program there. -/
structure Serving (root : Path) (steps : List Office.Step) (o : Office) (b : Bench) : Prop where
  root_eq : b.provisioner.root = root
  tidy : Tidy b.disk root (installDirs steps)
  called : ∀ c ∈ o.callers, Office.Step.call c.desc c.env ∈ steps
  served : ∀ c ∈ o.callers, ∀ install, c.stage = .returned (.ok install) → c.desc.artifact ≠ none →
    b.provisioner.isInstalled b.disk c.desc = true

section served

open Provisioner

variable {o : Office} {b b' : Bench} {c : Caller} {root : Path} {steps : List Office.Step}
  {s : Office.Step} {r : Except Halt Path} {k : Nat}

theorem AllSettled.provision (h : AllSettled b) {env : ProvisionEnv} {desc : Descriptor}
    (hrun : b.provisioner.provision env desc b.disk = (r, b'.provisioner, b'.disk)) :
    AllSettled b' := by
  have hnoted : ∀ {s : ProvisionState} {states : List ProvisionState}, s.isSettled = true →
      Noted b.provisioner b'.provisioner desc.backend (s :: states) → AllSettled b' := by
    intro s states hs hn backend s' hs'
    by_cases hb : backend = desc.backend
    · subst hb
      rw [hn.recorded?_cons] at hs'
      cases hs'
      exact hs
    · rw [hn.recorded?_of_ne hb] at hs'
      exact h backend s' hs'
  rcases noted_provision hrun with ⟨-, he⟩ | ⟨-, -, he⟩ | ⟨-, -, hn⟩ | ⟨end_, _, _, -, -, -, hn, -⟩
  · intro backend s hs
    rw [he] at hs
    exact h backend s hs
  · intro backend s hs
    rw [he] at hs
    exact h backend s hs
  · exact hnoted rfl hn
  · exact hnoted (by cases end_ <;> rfl) hn

theorem AllSettled.status (h : AllSettled b) (d : Disk) (desc : Descriptor) :
    (b.provisioner.status d desc).isSettled = true := by
  rw [Provisioner.status]
  cases hs : b.provisioner.recorded? desc.backend with
  | some s => exact h _ s hs
  | none =>
    simp only
    split <;> rfl

theorem Serving.lodger (hagreed : Agreed steps) {desc : Descriptor} {env : ProvisionEnv}
    (hcall : Office.Step.call desc env ∈ steps) : Lodger desc (installDirs steps) :=
  ⟨hagreed.plain desc env hcall, desc, env, hcall, rfl⟩

/-- A whole call serves its backend, and keeps serving the others. -/
theorem Serving.provision (h : Serving root steps o b) (hagreed : Agreed steps)
    (hk : o.callers[k]? = some c)
    (hrun : b.provisioner.provision c.env c.desc b.disk = (r, b'.provisioner, b'.disk)) :
    Serving root steps (o.setStage k c b' (.returned r)) b' := by
  have hcall := h.called c (List.mem_of_getElem? hk)
  have hlodger := Serving.lodger hagreed hcall
  have htidy := h.tidy
  rw [← h.root_eq] at htidy
  obtain ⟨hleaves, hok⟩ := htidy.provision hagreed.visible hlodger (hagreed.order _ _ hcall) hrun
  have hroot := root_of_provision hrun
  have hold : ∀ c' ∈ (o.setStage k c b' (.returned r)).callers,
      c' = { c with stage := .returned r } ∨ c' ∈ o.callers := fun c' hc' => by
    obtain ⟨i, hi⟩ := List.getElem?_of_mem hc'
    exact (callers_setStage hi).imp And.right fun h => List.mem_of_getElem? h.2
  refine ⟨hroot.trans h.root_eq, h.root_eq ▸ hleaves.tidy, fun c' hc' => ?_,
    fun c' hc' install hi hart => ?_⟩
  · rcases hold c' hc' with rfl | hc'
    · exact hcall
    · exact h.called c' hc'
  · rcases hold c' hc' with rfl | hc'
    · cases hi
      exact hok hart ⟨install, rfl⟩
    have hserved := h.served c' hc' install hi hart
    have hcall' := h.called c' hc'
    by_cases hdir : c'.desc.installDir = c.desc.installDir
    · have hdesc := hagreed.own _ _ _ _ hcall' hcall (.inr hdir)
      rw [hdesc] at hserved hart ⊢
      refine hok hart ?_
      obtain ⟨artifact, hart⟩ := Option.ne_none_iff_exists'.1 hart
      rw [provision_installed (b := b) hart hserved] at hrun
      exact ⟨_, (Prod.mk.inj hrun).1.symm⟩
    · exact hleaves.isInstalled hroot (Serving.lodger hagreed hcall') hdir hserved

/-- Every caller has come with one of the calls. -/
theorem called_step (h : ∀ c ∈ o.callers, Office.Step.call c.desc c.env ∈ steps) (hs : s ∈ steps) :
    ∀ c ∈ (o.step s).callers, Office.Step.call c.desc c.env ∈ steps := by
  intro c hc
  obtain ⟨i, hi⟩ := List.getElem?_of_mem hc
  rcases office_step_cases o s with ⟨desc, env, rfl, -⟩ | hstep |
    ⟨k, c', rfl, hk, ⟨-, -, hstep⟩ | ⟨-, b', s', -, hstep⟩⟩
  · rcases callers_call hi with hi | rfl
    · exact h c (List.mem_of_getElem? hi)
    · exact hs
  · rw [hstep] at hc
    exact h c hc
  all_goals
    rw [hstep] at hi
    rcases callers_setStage hi with ⟨-, rfl⟩ | ⟨-, hi⟩
    · exact h c' (List.mem_of_getElem? hk)
    · exact h c (List.mem_of_getElem? hi)

/-- One step of the office keeps the turn, and what holds whenever the provisioner is free. -/
theorem Serving.step (h : Serving root steps o b) (hagreed : Agreed steps) (hturn : Turn o b)
    (hs : s ∈ steps) : ∃ b', Turn (o.step s) b' ∧ Serving root steps (o.step s) b' := by
  rcases hturn.step s with ⟨hturn', hold⟩ | ⟨k, c, r, b', hk, hrun, hstep, hturn'⟩
  · refine ⟨b, hturn', h.root_eq, h.tidy, called_step h.called hs, fun c hc install hi hart => ?_⟩
    obtain ⟨i, hget⟩ := List.getElem?_of_mem hc
    exact h.served c (List.mem_of_getElem? (hold i c _ hget hi)) install hi hart
  · rw [hstep] at hturn' ⊢
    exact ⟨b', hturn', h.provision hagreed hk hrun⟩

theorem Serving.run (h : Serving root steps o b) (hagreed : Agreed steps) (hturn : Turn o b)
    {taken : List Office.Step} (hs : ∀ s ∈ taken, s ∈ steps) :
    ∃ b', Turn (o.run taken) b' ∧ Serving root steps (o.run taken) b' := by
  induction taken generalizing o b with
  | nil => exact ⟨b, hturn, h⟩
  | cons s taken ih =>
    obtain ⟨b', hturn', h'⟩ := h.step hagreed hturn (hs s List.mem_cons_self)
    exact ih h' hturn' fun s' hs' => hs s' (List.mem_cons_of_mem _ hs')

theorem turn_run (hturn : Turn o b) (h : AllSettled b) (taken : List Office.Step) :
    ∃ b', Turn (o.run taken) b' ∧ AllSettled b' := by
  induction taken generalizing o b with
  | nil => exact ⟨b, hturn, h⟩
  | cons s taken ih =>
    rcases hturn.step s with ⟨hturn', -⟩ | ⟨_, _, _, b', -, hrun, -, hturn'⟩
    · exact ih hturn' h
    · exact ih hturn' (h.provision hrun)

/-- A call that has returned stays as it is. -/
theorem returned_run (hk : o.callers[k]? = some c) (hr : c.stage = .returned r)
    (taken : List Office.Step) : (o.run taken).callers[k]? = some c := by
  induction taken generalizing o with
  | nil => exact hk
  | cons s taken ih =>
    refine ih ?_
    have hlt := (List.getElem?_eq_some_iff.1 hk).1
    rcases office_step_cases o s with ⟨desc, env, rfl, hstep⟩ | hstep |
      ⟨j, c', rfl, hj, ⟨hw, -, hstep⟩ | ⟨hact, b', s', -, hstep⟩⟩
    · rw [hstep, List.getElem?_append_left hlt, hk]
    · rw [hstep, hk]
    all_goals
      have hne : j ≠ k := by
        rintro rfl
        rw [hk] at hj
        cases hj
        simp_all [Stage.isActive]
      rw [hstep, Office.setStage, List.getElem?_set_ne hne, hk]

/-- A call whose program is there does not come to fetching. -/
theorem look_of_run {env : ProvisionEnv} {desc : Descriptor} {n : Nat} {s : Stage}
    (hi : desc.artifact ≠ none → b.provisioner.isInstalled b.disk desc = true)
    (h : Stage.run env desc n b .looking = (b', s)) :
    b' = b ∧ s = .looking ∨ ∃ r, s = .returned r := by
  cases n with
  | zero =>
    cases h
    exact .inl ⟨rfl, rfl⟩
  | succ n =>
    have hlook : ∃ r, (look env desc b).2 = .returned r := by
      unfold look
      split
      · exact ⟨_, rfl⟩
      · next hart =>
        rw [if_pos (hi (by simp [hart]))]
        exact ⟨_, rfl⟩
    obtain ⟨r, hr⟩ := hlook
    rw [Stage.run_succ, Stage.step, hr, Stage.run_returned] at h
    cases h
    exact .inr ⟨r, rfl⟩

theorem fetches_look {env : ProvisionEnv} {desc : Descriptor} (b : Bench) :
    (look env desc b).1.provisioner.fetches = b.provisioner.fetches := by
  unfold look
  split
  · obtain ⟨_, -, hf⟩ := noted_provisionBuiltIn b.provisioner desc b.disk
    exact hf
  · split
    · rfl
    · split <;> rfl

/-- When the program of a caller is there, its next step does not fetch. -/
theorem Turn.fetches_step (hturn : Turn o b) (hk : o.callers[k]? = some c)
    (hi : c.desc.artifact ≠ none → b.provisioner.isInstalled b.disk c.desc = true) :
    (o.step (.goOn k)).bench.provisioner.fetches = o.bench.provisioner.fetches := by
  rcases office_step_cases o (.goOn k) with ⟨_, _, hs, -⟩ | hstep |
    ⟨j, c', hs, hj, ⟨hw, -, hstep⟩ | ⟨hact, b', s', hstage, hstep⟩⟩
  · cases hs
  · rw [hstep]
  · rw [hstep]
    rfl
  · cases hs
    rw [hk] at hj
    cases hj
    obtain ⟨n, hn⟩ := hturn.busy k c hk hact
    rcases look_of_run hi hn with ⟨-, hl⟩ | ⟨r, hr⟩
    · rw [hl, Stage.step] at hstage
      rw [hstep]
      calc b'.provisioner.fetches
          = (look c.env c.desc o.bench).1.provisioner.fetches := by rw [hstage]
        _ = o.bench.provisioner.fetches := fetches_look o.bench
    · rw [hr] at hact
      cases hact

/-- Whatever calls are made and however their steps are interleaved: one call at most is under way. A
call fetches once at most, and when it has, it records that it downloads, then maybe that it
extracts, and then its result. When no call is under way, no backend is left downloading or
extracting. And where every backend has a directory of its own, that the others do not reach, no
backend is fetched again when one of its calls has succeeded. -/
theorem run_serial (root : Path) (d : Disk) (before after : List Office.Step) :
    let start := Office.opened root d
    let o := start.run (before ++ after)
    (∀ (i j : Nat) (c c' : Caller), o.callers[i]? = some c → o.callers[j]? = some c' →
      c.stage.isActive = true → c'.stage.isActive = true → i = j) ∧
    (∀ (k : Nat) (c : Caller), o.callers[k]? = some c →
      (account k start (before ++ after) {}).fetches ≤ 1 ∧
      ∀ r, c.stage = .returned r → (account k start (before ++ after) {}).fetches = 1 →
        let recorded := (account k start (before ++ after) {}).states.reverse
        let b := c.desc.backend
        (∃ install, r = .ok install ∧ recorded = [(b, .downloading), (b, .extracting), (b, .ready)]) ∨
        ∃ e, r = .error (.error e) ∧ (recorded = [(b, .downloading), (b, .ofError e)] ∨
          recorded = [(b, .downloading), (b, .extracting), (b, .ofError e)])) ∧
    (o.isFree = true → ∀ desc, (o.status desc).isSettled = true) ∧
    (Agreed (before ++ after) → Tidy d root (installDirs (before ++ after)) →
      ∀ c ∈ (start.run before).callers, ∀ install, c.stage = .returned (.ok install) →
        ∀ (k : Nat) (c' : Caller), o.callers[k]? = some c' → c'.desc.backend = c.desc.backend →
          (o.step (.goOn k)).bench.provisioner.fetches = o.bench.provisioner.fetches) := by
  intro start o
  have hfree : start.isFree = true := rfl
  have hturn : Turn start start.bench := Turn.of_free hfree
  obtain ⟨b, hb, hsettled⟩ := turn_run hturn (fun _ _ h => by cases h) (before ++ after)
  refine ⟨hb.sole, fun k c hc => ?_, fun hidle desc => ?_, fun hagreed htidy => ?_⟩
  · have hkept : Kept k start {} := ⟨fun c hc => (by cases hc), fun _ => rfl⟩
    obtain ⟨states, hstates, halong⟩ := (hkept.run (before ++ after)).along c hc
    refine ⟨halong.fetches_le, fun r hr hf => ?_⟩
    rw [hr, hf] at halong
    rw [hstates]
    rcases halong.states_of_fetched with ⟨install, hr, rfl⟩ | ⟨e, hr, rfl | rfl⟩
    · exact .inl ⟨install, hr, rfl⟩
    · exact .inr ⟨e, hr, .inl rfl⟩
    · exact .inr ⟨e, hr, .inr rfl⟩
  · have hbench := hb.idle hidle
    rw [Office.status]
    rw [← hbench] at hsettled
    exact hsettled.status _ desc
  · intro c hc install hi k c' hk hbackend
    have hserving : Serving root (before ++ after) start start.bench :=
      ⟨rfl, htidy, fun c hc => (by cases hc), fun c hc => by cases hc⟩
    obtain ⟨b', hturn', hserving'⟩ := hserving.run hagreed hturn (fun s hs => hs)
    obtain ⟨j, hj⟩ := List.getElem?_of_mem hc
    have hrun : o = (start.run before).run after := List.foldl_append ..
    have hmem : c ∈ o.callers := by
      rw [hrun]
      exact List.mem_of_getElem? (returned_run hj hi after)
    have hdesc := hagreed.own _ _ _ _ (hserving'.called c' (List.mem_of_getElem? hk))
      (hserving'.called c hmem) (.inl hbackend)
    refine hturn'.fetches_step hk fun hart => ?_
    rw [hdesc] at hart ⊢
    exact hserving'.served c hmem install hi hart

end served

/-- A call, and steps enough for it to return. -/
def wholeCall (k : Nat) (desc : Descriptor) (items : List Archive.Item) : List Office.Step :=
  .call desc (delivering items) :: List.replicate 6 (.goOn k)

def siblingRelease : List Archive.Item := [packed "v/SRBMiner-MULTI" .file ""]

/-- One backend is fetched after the other, and the first is called again. -/
def siblingCalls : List Office.Step :=
  wholeCall 1 Backend.srbMiner.descriptor siblingRelease ++
    [.call Backend.xmrig.descriptor (delivering release), .goOn 2]

theorem agreed_siblings :
    Agreed (wholeCall 0 Backend.xmrig.descriptor release ++ siblingCalls) := by
  have hcalls : ∀ {desc env}, Office.Step.call desc env ∈
      wholeCall 0 Backend.xmrig.descriptor release ++ siblingCalls →
      (desc = Backend.xmrig.descriptor ∨ desc = Backend.srbMiner.descriptor) ∧ env.order = id := by
    intro desc env h
    simp only [siblingCalls, wholeCall, List.mem_append, List.mem_cons, List.mem_replicate,
      Office.Step.call.injEq] at h
    rcases h with (⟨rfl, rfl⟩ | ⟨-, h⟩) | (⟨rfl, rfl⟩ | ⟨-, h⟩) | ⟨rfl, rfl⟩ | h | h <;>
      first
      | cases h
      | simp [delivering]
  have hplain : ∀ {desc env}, Office.Step.call desc env ∈
      wholeCall 0 Backend.xmrig.descriptor release ++ siblingCalls → PlainNames desc := fun h => by
    rcases (hcalls h).1 with rfl | rfl <;> exact plainNames_descriptor _
  refine ⟨fun desc env h => hplain h, fun x ⟨desc, env, h, hx⟩ => ⟨hx ▸ (hplain h).installDir, ?_⟩,
    fun desc env h l => ?_, fun desc env desc' env' h h' heq => ?_⟩
  · rcases (hcalls h).1 with rfl | rfl <;> rw [← hx] <;> decide
  · rw [(hcalls h).2]
    exact .refl l
  · rcases (hcalls h).1 with rfl | rfl <;> rcases (hcalls h').1 with rfl | rfl <;>
      simp_all [Backend.descriptor]

/-- The backend of a call that has succeeded. -/
def Caller.served? (c : Caller) : Option Backend :=
  match c.stage with
  | .returned (.ok _) => some c.desc.backend
  | _ => none

def siblingRun : Office :=
  (Office.opened "/r" {}).run (wholeCall 0 Backend.xmrig.descriptor release ++ siblingCalls)

/-- A program that is there is not fetched again, though another backend was fetched after it. -/
theorem run_serial_siblings :
    siblingRun.bench.provisioner.fetches = 2 ∧ siblingRun.isFree = false ∧
      (siblingRun.step (.goOn 2)).bench.provisioner.fetches = 2 := by
  have hserved := (run_serial "/r" {} (wholeCall 0 Backend.xmrig.descriptor release) siblingCalls).2.2.2
  rw [← siblingRun] at hserved
  have hfirst : ((Office.opened "/r" {}).run
      (wholeCall 0 Backend.xmrig.descriptor release)).callers[0]?.bind Caller.served? =
      some .xmrig := by decide +kernel
  obtain ⟨hfetches, hbusy, hthird⟩ : siblingRun.bench.provisioner.fetches = 2 ∧
      siblingRun.isFree = false ∧ siblingRun.callers[2]?.map (·.desc.backend) = some .xmrig := by
    decide +kernel
  obtain ⟨c, hc, hs⟩ := Option.bind_eq_some_iff.1 hfirst
  obtain ⟨c', hc', hb⟩ := Option.map_eq_some_iff.1 hthird
  refine ⟨hfetches, hbusy, ?_⟩
  unfold Caller.served? at hs
  split at hs
  · next install hinstall =>
    have hbackend := hb.trans (Option.some.inj hs).symm
    have hkept := hserved agreed_siblings (tidy_nothing _) c (List.mem_of_getElem? hc) install hinstall
      2 c' hc' hbackend
    exact hkept.trans hfetches
  · cases hs

/-- A backend that shares the install directory of another. -/
def sharing : Descriptor := { Backend.srbMiner.descriptor with installDir := "xmrig" }

/-- A release with a directory where the other backend has its program. -/
def burying : List Archive.Item :=
  [packed "v/SRBMiner-MULTI" .file "", packed "v/xmrig" .dir ""]

/-- Where two backends share a directory, the program of one can be replaced by the release of the
other, and is fetched again. -/
theorem not_always_fetched_once :
    let start := Office.opened "/r" {}
    let before := start.run (wholeCall 0 Backend.xmrig.descriptor release)
    let o := start.run (wholeCall 0 Backend.xmrig.descriptor release ++ wholeCall 1 sharing burying ++
      wholeCall 2 Backend.xmrig.descriptor release)
    before.callers[0]?.bind Caller.served? = some .xmrig ∧ before.bench.provisioner.fetches = 1 ∧
      o.callers.map Caller.served? = [some .xmrig, some .srbMiner, some .xmrig] ∧
      o.bench.provisioner.fetches = 3 := by
  decide +kernel

end RigWarden.Provision
