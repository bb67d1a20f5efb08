import RigWarden.Proofs.Config.Preview
import RigWarden.Proofs.Disk.Effects
import RigWarden.Proofs.Provision.Containment
import RigWarden.Proofs.Provision.Records
import RigWarden.Proofs.Session.Hosting

/-!
# How starts end

A start that succeeds has opened a lock file that no running session holds, and adds one session with
a fresh pump. Of all the errors it can end with, only a lock that is held says that the session is
busy. By then the profile was checked and the backend provisioned, and nothing else was done. So a
start that is refused as busy touches no file as long as there was nothing to provision; where the
program was missing, its release is already in place, also over the files of the session that runs
there.
-/

namespace RigWarden

open Disk

/-! Errors of procedures -/

namespace TaskM

variable {α β : Type}

/-- However the procedure fails, it is not because of a lock. -/
def NeverBusy (task : TaskM α) : Prop :=
  ∀ d path after, task d ≠ (.error (.sessionBusy path), after)

theorem neverBusy_pure (a : α) : NeverBusy (pure a : TaskM α) := by
  intro d path after h
  cases h

theorem neverBusy_throw {e : Error} (he : ∀ path, e ≠ .sessionBusy path) :
    NeverBusy (throw e : TaskM α) := by
  intro d path after h
  cases h
  exact he path rfl

theorem neverBusy_ask (f : Disk → α) : NeverBusy (TaskM.ask f) := by
  intro d path after h
  cases h

theorem neverBusy_ofExcept {r : Except Error α} (hr : ∀ path, r ≠ .error (.sessionBusy path)) :
    NeverBusy (TaskM.ofExcept r) := by
  intro d path after h
  exact hr path (congrArg Prod.fst h)

theorem neverBusy_doing (what : String) (op : DiskM α) : NeverBusy (TaskM.doing what op) := by
  intro d path after h
  unfold TaskM.doing at h
  split at h <;> cases h

theorem neverBusy_unpacking (op : DiskM α) : NeverBusy (Archive.unpacking op) := by
  intro d path after h
  unfold Archive.unpacking at h
  split at h <;> cases h

theorem neverBusy_bind {x : TaskM α} {f : α → TaskM β} (hx : NeverBusy x)
    (hf : ∀ a, NeverBusy (f a)) : NeverBusy (x >>= f) := by
  intro d path after h
  rcases bind_cases h with ⟨e, he, hxd⟩ | ⟨a, mid, -, hfa⟩
  · cases he
    exact hx d path after hxd
  · exact hf a mid path after hfa

theorem neverBusy_removing {task : TaskM α} (p : Path) (h : NeverBusy task) :
    NeverBusy (TaskM.removing p task) := by
  intro d path after he
  rcases htask : task d with ⟨r, mid⟩
  simp only [TaskM.removing, htask] at he
  cases he
  exact h d path mid htask

theorem neverBusy_removingOnError {task : TaskM α} (p : Path) (h : NeverBusy task) :
    NeverBusy (TaskM.removingOnError p task) := by
  intro d path after he
  unfold TaskM.removingOnError at he
  split at he
  · cases he
  · next hd =>
    cases he
    exact h d path _ hd

end TaskM

open TaskM

namespace Archive

theorem neverBusy_unpackEntry (e : Entry) (dest : Path) (strip : Nat) :
    NeverBusy (e.unpack dest strip) := by
  unfold Entry.unpack
  simp only
  split
  · exact neverBusy_pure _
  · split
    · exact neverBusy_throw fun path h => by cases h
    · exact neverBusy_bind (neverBusy_unpacking _) fun _ => neverBusy_pure _

theorem neverBusy_unpackFrom {goOn : Nat → Except Error Unit}
    (hgo : ∀ n path, goOn n ≠ .error (.sessionBusy path)) (dest : Path) (strip index : Nat)
    (items : List Item) : NeverBusy (unpackFrom goOn dest strip index items) := by
  induction items generalizing index with
  | nil => exact neverBusy_pure _
  | cons item items ih =>
    unfold unpackFrom
    apply neverBusy_bind (neverBusy_ofExcept (hgo index))
    intro _
    cases item with
    | broken text => exact neverBusy_throw fun path h => by cases h
    | entry e =>
      apply neverBusy_bind (neverBusy_unpackEntry e dest strip)
      intro _
      exact neverBusy_bind (ih (index + 1)) fun _ => neverBusy_pure _

theorem neverBusy_unpack {goOn : Nat → Except Error Unit}
    (hgo : ∀ n path, goOn n ≠ .error (.sessionBusy path)) (dest : Path) (strip : Nat)
    (items : List Item) : NeverBusy (unpack goOn dest strip items) := by
  unfold unpack
  apply neverBusy_bind (neverBusy_unpackFrom hgo dest strip 0 items)
  intro n
  split
  · exact neverBusy_throw fun path h => by cases h
  · exact neverBusy_pure _

end Archive

namespace Provision

theorem Look.check_ne_busy (l : Look) (deadline : Clock) (what : String) (path : Path) :
    l.check deadline what ≠ .error (.sessionBusy path) := by
  unfold Look.check
  split
  · simp
  · split <;> simp

theorem neverBusy_moveEntry (staging install : Path) (name : String) :
    NeverBusy (moveEntry staging install name) := by
  unfold moveEntry
  simp only
  apply neverBusy_bind (neverBusy_ask _)
  intro isDir
  split
  · exact neverBusy_bind (neverBusy_doing _ _) fun _ => neverBusy_doing _ _
  · apply neverBusy_bind (neverBusy_ask _)
    intro found
    split
    · exact neverBusy_bind (neverBusy_doing _ _) fun _ => neverBusy_doing _ _
    · exact neverBusy_doing _ _

theorem neverBusy_moveEntries (staging install : Path) (names : List String) :
    NeverBusy (moveEntries staging install names) := by
  induction names with
  | nil => exact neverBusy_pure _
  | cons name names ih => exact neverBusy_bind (neverBusy_moveEntry _ _ _) fun _ => ih

theorem neverBusy_moveIntoPlace (order : List String → List String) (staging install : Path) :
    NeverBusy (moveIntoPlace order staging install) := by
  apply neverBusy_bind (neverBusy_doing _ _)
  intro _
  exact neverBusy_bind (neverBusy_doing _ _) fun _ => neverBusy_moveEntries _ _ _

theorem neverBusy_makeExecutable (p : Path) : NeverBusy (makeExecutable p) := by
  apply neverBusy_bind (neverBusy_ask _)
  intro found
  split <;> exact neverBusy_doing _ _

theorem neverBusy_installStaged {goOn : Nat → Except Error Unit}
    (hgo : ∀ n path, goOn n ≠ .error (.sessionBusy path)) (order : List String → List String)
    (desc : Descriptor) (strip : Nat) (install staging : Path) (items : List Archive.Item) :
    NeverBusy (installStaged goOn order desc strip install staging items) := by
  apply neverBusy_bind (Archive.neverBusy_unpack hgo staging strip items)
  intro _
  split
  · exact neverBusy_moveIntoPlace order staging install
  · apply neverBusy_bind (neverBusy_ask _)
    intro found
    split
    · exact neverBusy_throw fun path h => by cases h
    · exact neverBusy_bind (neverBusy_moveIntoPlace _ _ _) fun _ => neverBusy_makeExecutable _

theorem neverBusy_install {goOn : Nat → Except Error Unit}
    (hgo : ∀ n path, goOn n ≠ .error (.sessionBusy path)) (order : List String → List String)
    (desc : Descriptor) (strip : Nat) (root : Path) (items : List Archive.Item) :
    NeverBusy (install goOn order desc strip root items) := by
  apply neverBusy_bind (neverBusy_ask _)
  intro staging
  apply neverBusy_bind (neverBusy_doing _ _)
  intro _
  exact neverBusy_removing _ (neverBusy_installStaged hgo _ _ _ _ _ _)

end Provision

/-! Files -/

namespace Disk

variable {d e f : Disk} {p : Path}

/-- Every file stands where it stood, with the data it had, and nowhere stands another one. -/
def SameFiles (d e : Disk) : Prop := ∀ q f, e.get? q = some (.file f) ↔ d.get? q = some (.file f)

/-- No file has changed or gone, and a new one is empty and has the identity `id`. -/
structure GainsOnly (id : Nat) (d e : Disk) : Prop where
  kept : ∀ q f, d.get? q = some (.file f) → e.get? q = some (.file f)
  new : ∀ q f, e.get? q = some (.file f) → d.get? q = some (.file f) ∨ f = ⟨id, [], defaultMode⟩

theorem SameFiles.refl (d : Disk) : SameFiles d d := fun _ _ => .rfl

theorem SameFiles.gainsOnly {id : Nat} (h : SameFiles d e) (h' : GainsOnly id e f) :
    GainsOnly id d f :=
  ⟨fun q a ha => h'.kept q a ((h q a).2 ha), fun q a ha => (h'.new q a ha).imp_left (h q a).1⟩

theorem sameFiles_makeDirs {r : Except SystemError Unit} (h : makeDirs p d = (r, e)) :
    SameFiles d e := by
  have hblind : Blind (SameFiles d) := fun _ _ h => h
  refine (Keeps.makeDirs hblind.fading (fun q _ c place hc hf => ?_) d (.refl d) r e h).1
  obtain ⟨_, s, _, dir, -, -, rfl, hv, -⟩ := walk_entry_vacant (walk_of_find hf)
  intro q a
  rw [get?_set (by simp), ← hc q a]
  split
  · next hq => rw [hq, hv]; simp
  · rfl

/-- Opening a file makes at most that file. -/
theorem gainsOnly_openFile {id : Nat} (h : openFile p d = (.ok id, e)) : GainsOnly id d e := by
  have hop := attempt_ok h
  rw [find_withFaults] at hop
  rcases hf : d.find .make p with _ | ⟨place, n⟩ | place <;>
    simp only [hf, Bind.bind, Except.bind] at hop
  · cases hop
  · cases n with
    | file f =>
      cases hop
      exact ⟨fun _ _ h => h, fun _ _ h => .inl h⟩
    | _ => cases hop
  · cases hop
    have hv := walk_vacant (walk_of_find hf)
    have hne : place ≠ [] := by
      rintro rfl
      cases hv
    have hget : ∀ q, ({ { d with faults := d.faults.drop 1 }.set place
        (.file ⟨d.nextId, [], defaultMode⟩) with nextId := d.nextId + 1 } : Disk).get? q =
        if q = place then some (.file ⟨d.nextId, [], defaultMode⟩) else d.get? q :=
      fun q => get?_set hne _ q
    refine ⟨fun q a ha => ?_, fun q a ha => ?_⟩
    · rw [hget, if_neg]
      · exact ha
      · rintro rfl
        rw [hv] at ha
        cases ha
    · rw [hget] at ha
      split at ha
      · cases ha
        exact .inr rfl
      · exact .inl ha

end Disk

/-! Provisioning -/

/-- What is fetched does not fail because of a lock. -/
def ProvisionEnv.FetchesUnlocked (env : ProvisionEnv) : Prop :=
  ∀ url deadline path, (env.fetch url deadline).result ≠ .error (.sessionBusy path)

namespace Provisioner

variable {env : ProvisionEnv} {p p' : Provisioner} {desc : Descriptor} {d after : Disk} {path : Path}

theorem openDownload_ne_busy :
    p.openDownload desc d ≠ (.error (.sessionBusy path), p', after) := by
  intro h
  unfold openDownload at h
  split at h
  · next he =>
    cases h
    exact neverBusy_doing _ _ _ _ _ he
  · simp only at h
    split at h
    · next he =>
      cases h
      exact neverBusy_doing _ _ _ _ _ he
    · cases h

theorem fetchAndInstall_ne_busy (hfetch : env.FetchesUnlocked) {artifact : Artifact}
    {deadline : Clock} :
    (p.fetchAndInstall env desc artifact deadline d).1 ≠ .error (.sessionBusy path) := by
  unfold fetchAndInstall
  split
  · next he =>
    rintro ⟨⟩
    exact openDownload_ne_busy he
  · simp only [fetch]
    split
    · next he =>
      rintro ⟨⟩
      split at he
      · next e hr =>
        cases he
        exact hfetch _ _ _ hr
      · cases he
    · intro h
      refine Provision.neverBusy_install (fun n path => ?_) _ _ _ _ _ _ _ _ (Prod.ext h rfl)
      exact Provision.Look.check_ne_busy _ _ _ _

theorem root_fetchAndInstall (p : Provisioner) (env : ProvisionEnv) (desc : Descriptor)
    (artifact : Artifact) (deadline : Clock) (d : Disk) :
    (p.fetchAndInstall env desc artifact deadline d).2.1.root = p.root := by
  have hopen : ∀ {r : Except Error Path} {p' : Provisioner} {after : Disk},
      p.openDownload desc d = (r, p', after) → p'.root = p.root := by
    intro r p' after h
    unfold openDownload at h
    split at h
    · cases h
      rfl
    · simp only at h
      split at h <;> cases h <;> rfl
  unfold fetchAndInstall
  split
  · next he => exact hopen he
  · next he =>
    have hroot := hopen he
    simp only [fetch]
    split
    · next hf =>
      split at hf <;> cases hf
      exact hroot
    · next hf =>
      split at hf <;> cases hf
      exact hroot

/-- Provisioning that succeeds gives the install path. -/
theorem provision_ok {install : Path} (h : p.provision env desc d = (.ok install, p', after)) :
    install = p.installPath desc := by
  unfold provision at h
  split at h
  · unfold provisionBuiltIn at h
    simp only at h
    split at h <;> cases h
    rfl
  · split at h
    · cases h
      rfl
    · split at h
      · cases h
      · simp only [conclude] at h
        split at h <;> cases h
        rw [installPath, root_fetchAndInstall]
        rfl

/-- Where the program is in place, provisioning makes directories at most. -/
theorem provision_of_isInstalled (hplace : p.isInstalled d desc = true) (env : ProvisionEnv)
    (path : Path) :
    (p.provision env desc d).1 ≠ .error (.error (.sessionBusy path)) ∧
      SameFiles d (p.provision env desc d).2.2 := by
  unfold provision
  split
  · unfold provisionBuiltIn
    simp only
    split
    · next hmade => exact ⟨nofun, sameFiles_makeDirs (doing_ok hmade)⟩
    · next he =>
      refine ⟨?_, ?_⟩
      · rintro ⟨⟩
        exact neverBusy_doing _ _ _ _ _ he
      · obtain ⟨cause, hmade⟩ := doing_error he
        exact sameFiles_makeDirs hmade
  · rw [if_pos hplace]
    exact ⟨nofun, .refl _⟩

theorem provision_ne_busy (hfetch : env.FetchesUnlocked) :
    (p.provision env desc d).1 ≠ .error (.error (.sessionBusy path)) := by
  unfold provision
  split
  · unfold provisionBuiltIn
    simp only
    split
    · simp
    · next he =>
      rintro ⟨⟩
      exact neverBusy_doing _ _ _ _ _ he
  · split
    · simp
    · split
      · simp
      · simp only [conclude]
        split
        · simp
        · next he =>
          rintro ⟨⟩
          exact fetchAndInstall_ne_busy hfetch he

end Provisioner

/-! Configurations -/

namespace Template

theorem fill_ne_busy (template : String) (values : Values) (path : Path) :
    fill template values ≠ .error (.sessionBusy path) := by
  unfold fill
  simp only
  split <;> simp

end Template

theorem Profile.check_ne_busy (p : Profile) (path : Path) :
    p.check ≠ .error (.sessionBusy path) := by
  unfold check
  split
  · next e he =>
    rintro ⟨⟩
    obtain ⟨f, -, hf⟩ := List.exists_of_findSome?_eq_some he
    obtain ⟨fault, -, hfault⟩ := Option.map_eq_some_iff.1 hf
    cases hfault
  · simp

theorem Backend.preview_ne_busy (b : Backend) (processors : Nat) (p : Profile)
    (install path : Path) : b.preview processors p install ≠ .error (.sessionBusy path) := by
  intro h
  unfold preview at h
  cases hcheck : p.check with
  | error e =>
    simp only [hcheck, bind, Except.bind] at h
    cases h
    exact p.check_ne_busy path hcheck
  | ok _ =>
    cases hrender : b.render processors p install with
    | error e =>
      simp only [hcheck, hrender, bind, Except.bind] at h
      cases h
      unfold render at hrender
      cases hcontents : b.renderContents processors p install with
      | ok contents => simp [hcontents, Except.map] at hrender
      | error e =>
        simp only [hcontents, Except.map] at hrender
        cases hrender
        cases b with
        | srbMiner =>
          rw [renderContents, SrbMiner.render] at hcontents
          exact Template.fill_ne_busy _ _ path hcontents
        | _ => cases hcontents
    | ok r =>
      simp only [hcheck, hrender, bind, Except.bind, RenderedConfig.inspect] at h
      split at h <;> cases h

theorem Backend.neverBusy_writeConfig (b : Backend) (processors : Nat) (p : Profile)
    (install : Path) : NeverBusy (b.writeConfig processors p install) := by
  apply neverBusy_bind (neverBusy_ofExcept (b.preview_ne_busy processors p install))
  intro r
  refine neverBusy_bind ?_ fun _ => neverBusy_pure _
  unfold RenderedConfig.write
  split
  · exact neverBusy_throw fun path h => by cases h
  · apply neverBusy_bind (neverBusy_doing _ _)
    intro _
    apply neverBusy_bind (neverBusy_ask _)
    intro temporary
    apply neverBusy_bind (neverBusy_doing _ _)
    intro id
    apply neverBusy_removingOnError
    exact neverBusy_bind (neverBusy_doing _ _) fun _ => neverBusy_doing _ _

theorem Host.neverBusy_emptyLog (options : SessionOptions) (log : Path) :
    NeverBusy (emptyLog options log) := by
  apply neverBusy_bind (neverBusy_ask _)
  intro found
  split
  · exact neverBusy_bind (neverBusy_doing _ _) fun _ => neverBusy_pure _
  · exact neverBusy_pure _

/-! Starts -/

/-- Nothing has happened to the session yet. -/
structure Session.Fresh (s : Session) : Prop where
  pump : ∃ b program policy grace tailer, s.pump = .new b program policy grace tailer
  channel : ∃ capacity, s.channel = .new capacity

theorem Session.Fresh.phase {s : Session} (h : s.Fresh) : s.pump.phase = .launching 0 := by
  obtain ⟨b, program, policy, grace, tailer, hpump⟩ := h.pump
  rw [hpump]
  rfl

theorem Session.Fresh.worker {s : Session} (h : s.Fresh) : s.pump.supervisor.worker = none := by
  obtain ⟨b, program, policy, grace, tailer, hpump⟩ := h.pump
  rw [hpump]
  rfl

namespace Host

variable {m : Machine} {h : Host} {env : ProvisionEnv} {profile : Profile} {b : Backend}
  {install path : Path} {lock : Nat} {d d' : Disk}

/-- A start comes to open its lock file: what provisioning leaves behind is `d`, and `d'` with the
lock file open. -/
structure Opens (h : Host) (env : ProvisionEnv) (profile : Profile) (b : Backend) (install : Path)
    (d : Disk) (lock : Nat) (d' : Disk) : Prop where
  checked : profile.check = .ok ()
  provisioned : ∃ p, h.provisioner.provision env b.descriptor h.disk = (.ok install, p, d)
  waited : env.cancelledAfter = false
  opened : openFile (Path.join install Session.lockFile) d = (.ok lock, d')

/-- A log is emptied if that was asked for and it is there. -/
theorem emptyLog_cases {options : SessionOptions} {log : Path} {r : Except Error Unit}
    (h : emptyLog options log d = (r, d')) :
    r = .ok () ∧ d' = d ∨ ∃ o, emptyFile log d = (o, d') ∧
      ((∃ id, o = .ok id) ∧ r = .ok () ∨ (∃ cause, o = .error cause) ∧ ∃ e, r = .error e) := by
  unfold emptyLog at h
  rcases bind_cases h with ⟨_, -, hask⟩ | ⟨found, mid, hask, h⟩
  · cases hask
  cases hask
  split at h
  · rcases bind_cases h with ⟨e, rfl, hempty⟩ | ⟨id, _, hempty, hend⟩
    · obtain ⟨cause, hop⟩ := doing_error hempty
      exact .inr ⟨_, hop, .inr ⟨⟨cause, rfl⟩, e, rfl⟩⟩
    · cases hend
      exact .inr ⟨_, doing_ok hempty, .inl ⟨⟨id, rfl⟩, rfl⟩⟩
  · cases h
    exact .inl ⟨rfl, rfl⟩

/-- A configuration is refused because of a lock before anything of it is written. -/
theorem configure_busy (hbusy : (h.configure m profile b install).1 = .error (.sessionBusy path)) :
    path = install ∧ ∃ lock d, openFile (Path.join install Session.lockFile) h.disk = (.ok lock, d) ∧
      h.isLocked lock = true := by
  obtain ⟨after, -, hc⟩ := configures (Prod.ext hbusy rfl : h.configure m profile b install = (_, _))
  cases hc with
  | unopened cause _ result => cases result
  | busy lock opened held result =>
    cases result
    exact ⟨rfl, lock, after, opened, held⟩
  | unwritten lock d e _ _ written result =>
    cases result
    exact absurd written (b.neverBusy_writeConfig m.processors profile install d path after)
  | emptied lock d d' config t _ _ _ emptied result =>
    cases t with
    | ok _ => cases result
    | error e =>
      cases result
      exact absurd emptied (neverBusy_emptyLog h.options (h.logPath install) d' path after)

theorem configure_of_locked
    (hopen : openFile (Path.join install Session.lockFile) h.disk = (.ok lock, d))
    (hl : h.isLocked lock = true) :
    h.configure m profile b install = (.error (.sessionBusy install), h.withDisk d) := by
  simp only [configure, acquireLock_eq, hopen, hl, if_true]

theorem start_of_locked (ho : h.Opens env profile b install d lock d')
    (hl : h.isLocked lock = true) : ∃ p, h.start m env profile b =
      (.error (.error (.sessionBusy install)), { h with provisioner := p }.withDisk d') := by
  obtain ⟨p, hp⟩ := ho.provisioned
  refine ⟨p, ?_⟩
  have hc : ({ h with provisioner := p }.withDisk d).configure m profile b install =
      (.error (.sessionBusy install), ({ h with provisioner := p }.withDisk d).withDisk d') :=
    configure_of_locked ho.opened hl
  simp only [start, prepare, ho.checked, hp, ho.waited, Bool.false_eq_true, if_false, hc]
  rfl

theorem opens_of_busy
    (hp : (h.provisioner.provision env b.descriptor h.disk).1 ≠ .error (.error (.sessionBusy path)))
    (hbusy : (h.start m env profile b).1 = .error (.error (.sessionBusy path))) :
    ∃ d lock d', h.Opens env profile b path d lock d' ∧ h.isLocked lock = true := by
  have hprepare : (h.prepare m env profile b).1 = .error (.error (.sessionBusy path)) := by
    unfold start at hbusy
    split at hbusy
    · next he =>
      cases hbusy
      rw [he]
    · cases hbusy
  unfold prepare at hprepare
  cases hcheck : profile.check with
  | error e =>
    simp only [hcheck] at hprepare
    cases hprepare
    exact absurd hcheck (profile.check_ne_busy path)
  | ok _ =>
    rcases hr : h.provisioner.provision env b.descriptor h.disk with ⟨halt | install, p, d⟩
    · simp only [hcheck, hr] at hprepare
      cases hprepare
      exact absurd (congrArg Prod.fst hr) hp
    · by_cases hw : env.cancelledAfter = true
      · simp [hcheck, hr, hw] at hprepare
      · simp only [hcheck, hr, hw, Bool.false_eq_true, if_false] at hprepare
        rcases hc : ({ h with provisioner := p }.withDisk d).configure m profile b install with
          ⟨e | s, after⟩
        · simp only [hc] at hprepare
          cases hprepare
          obtain ⟨rfl, lock, d', hopen, hl⟩ := configure_busy (congrArg Prod.fst hc)
          exact ⟨d, lock, d', ⟨hcheck, ⟨p, hr⟩, by simpa using hw, hopen⟩, hl⟩
        · simp only [hc] at hprepare
          cases hprepare

/-- A start is refused as busy exactly if it gets to open a lock file that a session holds. -/
theorem start_busy_iff (hfetch : env.FetchesUnlocked) :
    (h.start m env profile b).1 = .error (.error (.sessionBusy path)) ↔
      ∃ d lock d', h.Opens env profile b path d lock d' ∧ h.isLocked lock = true := by
  constructor
  · exact opens_of_busy (Provisioner.provision_ne_busy hfetch)
  · rintro ⟨d, lock, d', ho, hl⟩
    obtain ⟨p, hp⟩ := start_of_locked ho hl (m := m)
    rw [hp]

/-- A configuration that is written gives a fresh session that has the lock, and the grace period of
the host. -/
theorem configure_ok {s : Session} {after : Host}
    (hok : h.configure m profile b install = (.ok s, after)) :
    (∃ lock d, openFile (Path.join install Session.lockFile) h.disk = (.ok lock, d) ∧
      h.isLocked lock = false ∧ s.lock = lock) ∧ s.installPath = install ∧ s.Fresh ∧
      s.pump.grace = h.options.gracePeriod := by
  obtain ⟨e, -, hc⟩ := configures hok
  cases hc with
  | emptied lock d d' config t opened free _ _ result =>
    cases t with
    | error _ => cases result
    | ok _ =>
      cases result
      exact ⟨⟨lock, d, opened, free, rfl⟩, rfl, ⟨⟨_, _, _, _, _, rfl⟩, ⟨_, rfl⟩⟩, rfl⟩
  | _ => next result => cases result

/-- What a start does: nothing, provisioning, or all that comes up to a new session. -/
theorem start_steps (m : Machine) (h : Host) (env : ProvisionEnv) (profile : Profile) (b : Backend) :
    (h.start m env profile b).2 = h ∨ ∃ r p d,
      h.provisioner.provision env b.descriptor h.disk = (r, p, d) ∧
      ((h.start m env profile b).2 = { h with provisioner := p }.withDisk d ∨
        r = .ok (b.descriptor.installPath h.provisioner.root) ∧ ∃ r' e,
          ({ h with provisioner := p }.withDisk d).Configures m profile b
            (b.descriptor.installPath h.provisioner.root) r' e ∧
          (h.start m env profile b).2 = { { h with provisioner := p }.withDisk e with
            sessions := h.sessions ++ r'.toOption.toList }) := by
  have hstart : (h.start m env profile b).2 = { (h.prepare m env profile b).2 with
      sessions := (h.prepare m env profile b).2.sessions ++
        (h.prepare m env profile b).1.toOption.toList } := by
    unfold start
    rcases h.prepare m env profile b with ⟨_ | s, after⟩
    · simp [Except.toOption]
    · rfl
  rw [hstart]
  unfold prepare
  rcases hp : h.provisioner.provision env b.descriptor h.disk with ⟨r, p, d⟩
  cases profile.check with
  | error e => exact .inl (by simp [Except.toOption])
  | ok _ =>
    refine .inr ⟨r, p, d, rfl, ?_⟩
    cases r with
    | error halt => exact .inl (by simp [Except.toOption])
    | ok install =>
      obtain rfl : install = b.descriptor.installPath h.provisioner.root :=
        Provisioner.provision_ok hp
      simp only
      split
      · exact .inl (by simp [Except.toOption])
      · rcases hc : ({ h with provisioner := p }.withDisk d).configure m profile b
          (b.descriptor.installPath h.provisioner.root) with ⟨r', last⟩
        obtain ⟨e, rfl, hconf⟩ := configures hc
        refine .inr ⟨trivial, r', e, hconf, ?_⟩
        cases r' <;> simp only [hc, Except.toOption] <;> rfl

/-- A start leaves the workers, the options and the root as they are. -/
theorem start_leaves (m : Machine) (h : Host) (env : ProvisionEnv) (profile : Profile) (b : Backend) :
    (h.start m env profile b).2.site.workers = h.site.workers ∧
      (h.start m env profile b).2.options = h.options ∧
      (h.start m env profile b).2.provisioner.root = h.provisioner.root := by
  rcases h.start_steps m env profile b with he | ⟨_, p, d, hp, he | ⟨-, _, e, -, he⟩⟩ <;> rw [he]
  · exact ⟨rfl, rfl, rfl⟩
  · exact ⟨rfl, rfl, Provisioner.root_of_provision hp⟩
  · exact ⟨rfl, rfl, Provisioner.root_of_provision hp⟩

/-- A start that succeeds adds a fresh session that has its lock. -/
theorem start_ok {n : Nat} (hok : (h.start m env profile b).1 = .ok n) :
    ∃ s d d', (h.start m env profile b).2.sessions = h.sessions ++ [s] ∧
      h.Opens env profile b s.installPath d s.lock d' ∧ h.isLocked s.lock = false ∧ s.Fresh ∧
      s.pump.grace = h.options.gracePeriod := by
  rcases hp : h.prepare m env profile b with ⟨halt | s, after⟩
  · simp [start, hp] at hok
  · have hsessions := h.sessions_prepare m env profile b
    rw [hp] at hsessions
    have hs : (h.start m env profile b).2.sessions = h.sessions ++ [s] := by
      simp only [start, hp]
      rw [← hsessions]
    unfold prepare at hp
    cases hcheck : profile.check with
    | error e =>
      simp only [hcheck] at hp
      cases hp
    | ok _ =>
      rcases hr : h.provisioner.provision env b.descriptor h.disk with ⟨halt | install, p, d⟩
      · simp only [hcheck, hr] at hp
        cases hp
      · by_cases hw : env.cancelledAfter = true
        · simp [hcheck, hr, hw] at hp
        · simp only [hcheck, hr, hw, Bool.false_eq_true, if_false] at hp
          rcases hc : ({ h with provisioner := p }.withDisk d).configure m profile b install with
            ⟨e | t, last⟩ <;> simp only [hc] at hp <;> cases hp
          obtain ⟨⟨lock, d', hopen, hl, rfl⟩, rfl, hfresh, hgrace⟩ := configure_ok hc
          exact ⟨s, d, d', hs, ⟨hcheck, ⟨p, hr⟩, by simpa using hw, hopen⟩, hl, hfresh, hgrace⟩

/-- What a start that is refused as busy has done is its provisioning, and at most the lock file that
a running session holds is new after that. -/
theorem disk_of_busy_start
    (hp : (h.provisioner.provision env b.descriptor h.disk).1 ≠ .error (.error (.sessionBusy path)))
    (hbusy : (h.start m env profile b).1 = .error (.error (.sessionBusy path))) :
    ∃ p d, h.provisioner.provision env b.descriptor h.disk = (.ok path, p, d) ∧
      ∃ s ∈ h.sessions, s.holdsLock = true ∧
        GainsOnly s.lock d (h.start m env profile b).2.disk := by
  obtain ⟨d, lock, d', ho, hl⟩ := opens_of_busy hp hbusy
  obtain ⟨p, hprovisioned⟩ := ho.provisioned
  obtain ⟨s, hs, hlocked⟩ := List.any_eq_true.1 hl
  obtain ⟨rfl, hholds⟩ : s.lock = lock ∧ s.holdsLock = true := by simpa using hlocked
  obtain ⟨p', hstart⟩ := start_of_locked ho hl (m := m)
  refine ⟨p, d, hprovisioned, s, hs, hholds, ?_⟩
  rw [hstart]
  exact gainsOnly_openFile ho.opened

/-- If the program was in place, a start that is refused as busy leaves every file as it was, and at
most the lock file that a running session holds is new. -/
theorem files_of_busy_start (hplace : h.provisioner.isInstalled h.disk b.descriptor = true)
    (hbusy : (h.start m env profile b).1 = .error (.error (.sessionBusy path))) :
    path = h.provisioner.installPath b.descriptor ∧ ∃ s ∈ h.sessions, s.holdsLock = true ∧
      GainsOnly s.lock h.disk (h.start m env profile b).2.disk := by
  obtain ⟨hp, hsame⟩ := Provisioner.provision_of_isInstalled hplace env path
  obtain ⟨p, d, hprovisioned, s, hs, hholds, hgains⟩ := disk_of_busy_start hp hbusy
  rw [hprovisioned] at hsame
  exact ⟨Provisioner.provision_ok hprovisioned, s, hs, hholds, hsame.gainsOnly hgains⟩

/-- The disk of a session that runs in `/r/xmrig`. -/
def occupied (program : List (Place × Node)) : Disk where
  nodes := [(["r"], .dir), (["r", "xmrig"], .dir),
    (["r", "xmrig", Session.lockFile], .file ⟨0, [], defaultMode⟩),
    (["r", "xmrig", "config.json"], .file ⟨1, Text.utf8 "of the session", defaultMode⟩)] ++ program
  nextId := 3

def occupiedHost (d : Disk) : Host :=
  let h : Host := .new { installRoot := "/r" } d
  { h with sessions := [h.newSession .xmrig "/r/xmrig" "/r/xmrig/session.log" 0
      ⟨"/r/xmrig/config.json", .json, "of the session"⟩] }

def anyMachine : Machine where
  processors := 1
  execute := fun _ _ _ => .error .notFound
  simulate := fun _ _ => ⟨[], none⟩

/-- A release that holds a configuration as well. -/
def configured : ProvisionEnv :=
  Provision.delivering
    [Provision.packed "v/config.json" .file "", Provision.packed "v/xmrig" .file ""]

def installedHost : Host :=
  occupiedHost (occupied [(["r", "xmrig", "xmrig"], .file ⟨2, [], 0o755⟩)])

theorem files_of_busy_start_installed :
    (installedHost.start anyMachine configured (.sample "randomx") .xmrig).1 =
      .error (.error (.sessionBusy "/r/xmrig")) ∧
    (installedHost.start anyMachine configured (.sample "randomx") .xmrig).2.disk.get?
      ["r", "xmrig", "config.json"] =
        some (.file ⟨1, Text.utf8 "of the session", defaultMode⟩) := by
  have hbusy : (installedHost.start anyMachine configured (.sample "randomx") .xmrig).1 =
      .error (.error (.sessionBusy "/r/xmrig")) := by decide +kernel
  have hplace : installedHost.provisioner.isInstalled installedHost.disk
      Backend.xmrig.descriptor = true := by decide +kernel
  obtain ⟨-, _, -, -, hgains⟩ := files_of_busy_start hplace hbusy
  exact ⟨hbusy, hgains.kept _ _ (by decide +kernel)⟩

/-- Without its program, a release goes over the files of the session that runs there. -/
theorem not_always_untouched : ¬ ∀ (m : Machine) (h : Host) (env : ProvisionEnv)
    (profile : Profile) (b : Backend) (path : Path),
    (h.start m env profile b).1 = .error (.error (.sessionBusy path)) →
    ∀ I q f, h.disk.Reaches maxLinks path I → isWithin I q = true →
      h.disk.get? q = some (.file f) → (∀ s ∈ h.sessions, f.id ≠ s.lock) →
      ∃ f', (h.start m env profile b).2.disk.get? q = some (.file f') ∧ f'.data = f.data := by
  intro hall
  obtain ⟨f, hf, hdata⟩ := hall anyMachine (occupiedHost (occupied [])) configured
    (.sample "randomx") .xmrig "/r/xmrig" (by decide +kernel) ["r", "xmrig"]
    ["r", "xmrig", "config.json"] ⟨1, Text.utf8 "of the session", defaultMode⟩ (by decide +kernel)
    (by decide) (by decide +kernel) (by decide +kernel)
  have hnow : ((occupiedHost (occupied [])).start anyMachine configured (.sample "randomx")
      .xmrig).2.disk.get? ["r", "xmrig", "config.json"] = some (.file ⟨4, [], defaultMode⟩) := by
    decide +kernel
  rw [hnow] at hf
  cases hf
  revert hdata
  decide

end Host

end RigWarden
