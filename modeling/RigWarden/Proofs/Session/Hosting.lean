import RigWarden.Session.Host

/-!
# The sessions of a host

A host only gains sessions, at the end of its list, and a session that is over stays over. A start
either adds one session or none; what goes before it touches the disk alone.
-/

namespace RigWarden

theorem Provisioner.provision_ne_overflow {env : ProvisionEnv}
    (ht : env.now.add? env.timeout ≠ none) (p : Provisioner) (desc : Descriptor) (d : Disk) :
    (p.provision env desc d).1 ≠ .error .overflow := by
  unfold provision
  split
  · unfold provisionBuiltIn
    simp only
    split <;> simp
  · split
    · simp
    · split
      · next hn => exact absurd hn ht
      · simp only [conclude]
        split <;> simp

namespace Host

variable {h : Host}

/-- `after` has the sessions of `h` and perhaps more, and those that were over still are. -/
structure Continues (h after : Host) : Prop where
  length_le : h.sessions.length ≤ after.sessions.length
  finished : ∀ i, i < h.sessions.length → h.isFinished i = true → after.isFinished i = true

theorem Continues.of_sessions_eq {after : Host} (hs : after.sessions = h.sessions) :
    h.Continues after :=
  ⟨hs ▸ Nat.le_refl _, fun i _ hf => by rwa [isFinished, hs]⟩

theorem isFinished_eq {i : Nat} {s : Session} (hs : h.sessions[i]? = some s) :
    h.isFinished i = s.pump.isOver := by
  simp [isFinished, hs]

/-- Another session in the place of one that is over has to be over as well. -/
theorem Continues.setSession {i : Nat} {s t : Session} (hs : h.sessions[i]? = some s)
    (hover : s.pump.isOver = true → t.pump.isOver = true) (site : Site) :
    h.Continues ({ h with site := site }.setSession i t) := by
  refine ⟨by simp [Host.setSession], fun j _ hj => ?_⟩
  by_cases hij : i = j
  · subst hij
    obtain ⟨hi, _⟩ := List.getElem?_eq_some_iff.1 hs
    rw [isFinished_eq hs] at hj
    rw [isFinished_eq (s := t) (by simp [Host.setSession, hi])]
    exact hover hj
  · rwa [isFinished, Host.setSession, List.getElem?_set_ne hij]

theorem continues_setChannel {i : Nat} {s : Session} (hs : h.sessions[i]? = some s)
    (channel : Channel) : h.Continues (h.setSession i { s with channel := channel }) :=
  Continues.setSession (t := { s with channel := channel }) hs (fun hover => hover) h.site

theorem continues_modify (h : Host) (i : Nat) {f : Session → Session}
    (hf : ∀ s, (f s).pump = s.pump) : h.Continues (h.modify i f) := by
  cases hs : h.sessions[i]? with
  | none => exact .of_sessions_eq (by simp [modify, hs])
  | some s =>
    have hm : h.modify i f = h.setSession i (f s) := by simp [modify, hs]
    rw [hm]
    exact .setSession hs (fun hover => by rwa [hf s]) h.site

@[simp] theorem length_setSession (h : Host) (i : Nat) (s : Session) :
    (h.setSession i s).sessions.length = h.sessions.length := by
  simp [setSession]

@[simp] theorem length_askStop (h : Host) (i : Nat) :
    (h.askStop i).sessions.length = h.sessions.length := by
  unfold askStop modify
  split
  · exact h.length_setSession i _
  · rfl

/-- Asking for a stop touches the session alone. -/
theorem askStop_leaves (h : Host) (i : Nat) : (h.askStop i).site = h.site ∧
    (h.askStop i).options = h.options ∧ (h.askStop i).provisioner = h.provisioner := by
  unfold askStop modify
  split <;> exact ⟨rfl, rfl, rfl⟩

theorem continues_askStop (h : Host) (i : Nat) : h.Continues (h.askStop i) :=
  h.continues_modify i fun _ => rfl

theorem continues_pumpStep (h : Host) (m : Machine) (now : Instant) (clock : Clock) (i : Nat) :
    h.Continues (h.pumpStep m now clock i) := by
  cases hs : h.sessions[i]? with
  | none => exact .of_sessions_eq (by simp [pumpStep, hs])
  | some s =>
    cases ho : s.pump.isOver with
    | true => exact .of_sessions_eq (by simp [pumpStep, hs, ho])
    | false =>
      simp only [pumpStep, hs, ho, Bool.false_eq_true, if_false]
      exact .setSession hs (fun hover => by simp [ho] at hover) _

@[simp] theorem length_pumpStep (h : Host) (m : Machine) (now : Instant) (clock : Clock) (i : Nat) :
    (h.pumpStep m now clock i).sessions.length = h.sessions.length := by
  unfold pumpStep
  split
  · rfl
  · split
    · rfl
    · exact length_setSession _ i _

theorem pumpStep_leaves (h : Host) (m : Machine) (now : Instant) (clock : Clock) (i : Nat) :
    (h.pumpStep m now clock i).options = h.options ∧
      (h.pumpStep m now clock i).provisioner = h.provisioner := by
  unfold pumpStep
  split
  · exact ⟨rfl, rfl⟩
  · split <;> exact ⟨rfl, rfl⟩

theorem acquireLock_eq (h : Host) (install : Path) :
    h.acquireLock install =
      match Disk.openFile (Path.join install Session.lockFile) h.disk with
      | (.error cause, d) =>
        (.error (.io ("opening " ++ Path.join install Session.lockFile) cause), h.withDisk d)
      | (.ok lock, d) =>
        if h.isLocked lock then (.error (.sessionBusy install), h.withDisk d)
        else (.ok lock, h.withDisk d) := by
  simp only [acquireLock, perform, TaskM.doing, disk]
  rcases Disk.openFile (Path.join install Session.lockFile) h.site.disk with ⟨cause | lock, d⟩ <;> rfl

/-- How an install path is prepared for a session, up to the first step that fails, and the disk after
that. -/
inductive Configures (m : Machine) (h : Host) (profile : Profile) (b : Backend) (install : Path)
    (r : Except Error Session) (after : Disk) : Prop
  | unopened (cause : SystemError)
      (opened : Disk.openFile (Path.join install Session.lockFile) h.disk = (.error cause, after))
      (result : r = .error (.io ("opening " ++ Path.join install Session.lockFile) cause))
  | busy (lock : Nat)
      (opened : Disk.openFile (Path.join install Session.lockFile) h.disk = (.ok lock, after))
      (held : h.isLocked lock = true) (result : r = .error (.sessionBusy install))
  | unwritten (lock : Nat) (d : Disk) (e : Error)
      (opened : Disk.openFile (Path.join install Session.lockFile) h.disk = (.ok lock, d))
      (free : h.isLocked lock = false)
      (written : b.writeConfig m.processors profile install d = (.error e, after))
      (result : r = .error e)
  | emptied (lock : Nat) (d d' : Disk) (config : RenderedConfig) (t : Except Error Unit)
      (opened : Disk.openFile (Path.join install Session.lockFile) h.disk = (.ok lock, d))
      (free : h.isLocked lock = false)
      (written : b.writeConfig m.processors profile install d = (.ok config, d'))
      (emptied : emptyLog h.options (h.logPath install) d' = (t, after))
      (result : r = t.map fun _ =>
        (h.withDisk after).newSession b install (h.logPath install) lock config)

theorem Configures.backend {m : Machine} {profile : Profile} {b : Backend} {install : Path}
    {s : Session} {after : Disk} (hc : h.Configures m profile b install (.ok s) after) :
    s.backend = b := by
  cases hc with
  | unopened _ _ result | busy _ _ _ result | unwritten _ _ _ _ _ _ result => cases result
  | emptied lock d d' config t _ _ _ _ result => cases t <;> cases result <;> rfl

/-- Of the host, only the disk is touched. -/
theorem configures {m : Machine} {profile : Profile} {b : Backend} {install : Path}
    {r : Except Error Session} {after : Host}
    (hc : h.configure m profile b install = (r, after)) :
    ∃ d, after = h.withDisk d ∧ h.Configures m profile b install r d := by
  unfold configure at hc
  rw [acquireLock_eq] at hc
  rcases hopen : Disk.openFile (Path.join install Session.lockFile) h.disk with ⟨cause | lock, d⟩ <;>
    simp only [hopen] at hc
  · cases hc
    exact ⟨d, rfl, .unopened cause hopen rfl⟩
  by_cases hl : h.isLocked lock = true
  · simp only [hl, if_true] at hc
    cases hc
    exact ⟨d, rfl, .busy lock hopen hl rfl⟩
  have hfree : h.isLocked lock = false := by simpa using hl
  simp only [hl, Bool.false_eq_true, if_false] at hc
  rcases hw : b.writeConfig m.processors profile install d with ⟨e | config, d'⟩
  · have hp : (h.withDisk d).perform (b.writeConfig m.processors profile install) =
        (.error e, h.withDisk d') := by
      simp only [perform, withDisk, disk, hw]
    simp only [hp] at hc
    cases hc
    exact ⟨d', rfl, .unwritten lock d e hopen hfree hw rfl⟩
  · have hp : (h.withDisk d).perform (b.writeConfig m.processors profile install) =
        (.ok config, h.withDisk d') := by
      simp only [perform, withDisk, disk, hw]
    rcases ht : emptyLog h.options (h.logPath install) d' with ⟨t, last⟩
    have hp' : (h.withDisk d').perform (emptyLog (h.withDisk d').options
        ((h.withDisk d').logPath install)) = (t, h.withDisk last) := by
      simp only [perform, withDisk, disk, logPath] at ht ⊢
      rw [ht]
    simp only [hp, hp'] at hc
    refine ⟨last, ?_, .emptied lock d d' config t hopen hfree hw ht ?_⟩ <;> cases t <;> cases hc <;> rfl

@[simp] theorem sessions_configure (m : Machine) (h : Host) (profile : Profile) (b : Backend)
    (install : Path) : (h.configure m profile b install).2.sessions = h.sessions := by
  obtain ⟨d, hd, -⟩ := configures (Prod.eta (h.configure m profile b install)).symm
  rw [hd]
  rfl

@[simp] theorem sessions_prepare (m : Machine) (h : Host) (env : ProvisionEnv) (profile : Profile)
    (b : Backend) : (h.prepare m env profile b).2.sessions = h.sessions := by
  unfold prepare
  split
  · rfl
  · simp only
    split
    · rfl
    · split
      · rfl
      · split
        · next hc => exact (congrArg (·.2.sessions) hc).symm.trans (sessions_configure ..)
        · next hc => exact (congrArg (·.2.sessions) hc).symm.trans (sessions_configure ..)

/-- A start ends with one more session, the last one, or with an error and no other sessions. -/
theorem start_cases (m : Machine) (h : Host) (env : ProvisionEnv) (profile : Profile)
    (b : Backend) :
    (∃ (s : Session) (after : Host), h.start m env profile b = (.ok h.sessions.length, after) ∧
      after.sessions = h.sessions ++ [s]) ∨
    ∃ (halt : Halt) (after : Host), h.start m env profile b = (.error halt, after) ∧
      after.sessions = h.sessions := by
  have hs := h.sessions_prepare m env profile b
  rcases hp : h.prepare m env profile b with ⟨halt | s, after⟩
  · rw [hp] at hs
    exact .inr ⟨halt, after, by simp [start, hp], hs⟩
  · rw [hp] at hs
    change after.sessions = h.sessions at hs
    exact .inl ⟨s, { after with sessions := after.sessions ++ [s] }, by simp [start, hp, hs],
      by rw [hs]⟩

/-- Only a deadline beyond the clock loses a start. -/
theorem start_ne_overflow {env : ProvisionEnv} (ht : env.now.add? env.timeout ≠ none)
    (m : Machine) (h : Host) (profile : Profile) (b : Backend) :
    (h.start m env profile b).1 ≠ .error .overflow := by
  have hp := h.provisioner.provision_ne_overflow ht b.descriptor h.disk
  have hq : (h.prepare m env profile b).1 ≠ .error .overflow := by
    unfold prepare
    split
    · simp
    · simp only
      split
      · next halt hr => simpa [hr] using hp
      · split
        · simp
        · split <;> simp
  unfold start
  split
  · next hr => simpa [hr] using hq
  · simp

end Host
end RigWarden
