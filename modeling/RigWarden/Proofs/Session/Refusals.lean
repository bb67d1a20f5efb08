import Mathlib.Data.Prod.Basic
import RigWarden.Proofs.Config.Writing
import RigWarden.Proofs.Session.Starts

/-!
# What a start that fails leaves behind

A start that ends with an error has started no worker and has no session, so it holds no lock and has no
stream to hand out. Files that were there keep their data. What is new comes from a release that was
fetched, is the lock file, or is a configuration that was written before the log could not be emptied.
-/

namespace RigWarden

open Disk Text

/-! Provisioning that fetches nothing -/

theorem Disk.Drafted.wellFormed_without {made e : Disk} {place : Place} {p : Path} {bs : Bytes}
    (h : Drafted made place bs e) (hf : made.find .entry p = .ok (.vacant place))
    (hmade : made.WellFormed) : (e.without p).WellFormed := by
  rw [h.without_eq hf]
  refine (h.wellFormed hmade).erase (Bool.eq_false_iff.2 fun hw => ?_)
  obtain ⟨r, hr⟩ := isWithin_iff.1 hw
  have hstart := hmade.start
  rw [← h.start, hr, hmade.of_vacant h.free] at hstart
  cases hstart

theorem Disk.Same.sameFiles {d e : Disk} (h : Same d e) : SameFiles d e := fun q f => by rw [h.get? q]

theorem Disk.SameFiles.trans {d e f : Disk} (h : SameFiles d e) (h' : SameFiles e f) :
    SameFiles d f := fun q a => (h' q a).trans (h q a)

theorem Disk.contents_subset_of_sameFiles {d e : Disk} (h : SameFiles d e) (he : e.WellFormed) :
    e.contents ⊆ d.contents := fun _ hx => by
  obtain ⟨q, f, hq, rfl⟩ := exists_of_mem_contents he hx
  exact mem_contents ((h q f).1 hq)

namespace Provisioner

variable {p p' : Provisioner} {env : ProvisionEnv} {desc : Descriptor} {d after : Disk}

/-- The program is missing, and its release is fetched before the deadline. -/
def Downloads (p : Provisioner) (env : ProvisionEnv) (desc : Descriptor) (d : Disk) : Prop :=
  p.isInstalled d desc = false ∧ ∃ artifact deadline items, desc.artifact = some artifact ∧
    env.now.add? env.timeout = some deadline ∧ (env.fetch artifact.url deadline).result = .ok items

theorem unfetched_of_makeDirs {path : Path} {r : Except SystemError Unit} (hd : d.WellFormed)
    (h : makeDirs path d = (r, after)) : after.WellFormed ∧ SameFiles d after :=
  ⟨(grown_of_makeDirs hd h).wellFormed, sameFiles_makeDirs h⟩

/-- A release that could not be fetched leaves directories at most. -/
theorem unfetched_of_fetch {artifact : Artifact} {deadline : Clock} {r : Except Error Unit}
    {e : Error} (hd : d.WellFormed) (he : (env.fetch artifact.url deadline).result = .error e)
    (h : p.fetchAndInstall env desc artifact deadline d = (r, p', after)) :
    after.WellFormed ∧ SameFiles d after := by
  unfold fetchAndInstall at h
  rcases ho : p.openDownload desc d with ⟨_ | download, q, opened⟩ <;> rw [ho] at h
  · cases h
    rcases Provision.openDownload_cases ho with ⟨_, fs, -, rfl⟩ | ⟨_, _, _, _, _, -, hr, -⟩
    · obtain ⟨hwf, hsame⟩ := unfetched_of_makeDirs hd (Prod.eta (makeDirs p.root d)).symm
      exact ⟨hwf.withFaults fs, hsame⟩
    · cases hr
  rcases Provision.openDownload_cases ho with
    ⟨_, _, hr, -⟩ | ⟨made, s, _, fs, place, hmk, hr, -, -, -, hf, hopened⟩
  · cases hr
  cases hr
  simp only [fetch, he] at h
  cases h
  obtain ⟨hwf, hsame⟩ := unfetched_of_makeDirs hd hmk
  have hdraft : Drafted made place [] opened := hopened ▸ drafted_created fs hf
  exact ⟨hdraft.wellFormed_without hf hwf, hsame.trans (hdraft.same_without hf hwf).sameFiles⟩

/-- Where nothing is fetched, provisioning makes directories at most. -/
theorem unfetched {r : Except Halt Path} (hd : d.WellFormed) (hno : ¬ p.Downloads env desc d)
    (h : p.provision env desc d = (r, p', after)) : after.WellFormed ∧ SameFiles d after := by
  unfold provision at h
  split at h
  · unfold provisionBuiltIn at h
    simp only at h
    split at h <;> next hmk =>
      cases h
      obtain ⟨_, hop⟩ := of_doing hmk
      exact unfetched_of_makeDirs hd hop
  · next artifact hart =>
    split at h
    · cases h
      exact ⟨hd, .refl d⟩
    · next hmissing =>
      split at h
      · cases h
        exact ⟨hd, .refl d⟩
      · next deadline ht =>
        cases hfetch : (env.fetch artifact.url deadline).result with
        | ok items =>
          exact absurd ⟨by simpa using hmissing, artifact, deadline, items, hart, ht, hfetch⟩ hno
        | error e =>
          cases h
          exact unfetched_of_fetch hd hfetch rfl

end Provisioner

/-! Configurations -/

namespace Backend

variable {b : Backend} {processors : Nat} {p : Profile} {install : Path} {d after : Disk}

theorem contents_of_makeDirs {path : Path} {r : Except SystemError Unit}
    (h : makeDirs path d = (r, after)) : after.contents = d.contents := by
  have hblind : Blind fun e => e.contents = d.contents := fun _ _ he => he
  refine (Keeps.makeDirs hblind.fading (fun _ _ e place he hf => ?_) d rfl r after h).1
  rw [contents_set (vacant_of_find hf) rfl, he]

/-- A file that is there after a configuration was written was there before, or is the
configuration. -/
theorem contents_of_writeConfig {r : Except Error RenderedConfig} (hb : d.Bounded)
    (h : b.writeConfig processors p install d = (r, after)) {x : Nat × Bytes}
    (hx : x ∈ after.contents) : x ∈ d.contents ∨ ∃ c, b.preview processors p install = .ok c ∧
      r = .ok c ∧ d.nextId ≤ x.1 ∧ x.2 = utf8 c.contents := by
  rcases writeConfig_cases hb h with
    ⟨e, -, -, rfl⟩ | ⟨c, m, made, r', hpreview, hmk, houtcome, rfl⟩
  · exact .inl hx
  · have hnext := ((durable_unwritten d).makeDirs _ d hb.unwritten _ _ hmk).1.next
    rcases houtcome.contents hx with hmade | ⟨rfl, rfl⟩
    · exact .inl (contents_of_makeDirs hmk ▸ hmade)
    · exact .inr ⟨c, hpreview, rfl, hnext, rfl⟩

/-- A file that was there stays, unless the configuration takes its place. -/
theorem kept_of_writeConfig {r : Except Error RenderedConfig} (hd : d.WellFormed)
    (h : b.writeConfig processors p install d = (r, after)) {q : Place} {f : FileData}
    (hq : d.get? q = some (.file f)) : after.get? q = some (.file f) ∨
      ∃ c, b.preview processors p install = .ok c ∧
        after.get? q = some (.file ⟨d.nextId, utf8 c.contents, 0o600⟩) := by
  obtain ⟨hrefused, hdone⟩ := writeConfig_whole hd h
  cases hpreview : b.preview processors p install with
  | error e =>
    rw [(hrefused e hpreview).2]
    exact .inl hq
  | ok c =>
    obtain ⟨made, hmade, ⟨_, -, hsame⟩ | ⟨-, _, there, -, hplaced, -⟩⟩ := hdone c hpreview
    · exact .inl ((hsame.get? q).trans (hmade.has hq))
    · rw [hplaced.get?, hmade.next]
      split
      · exact .inr ⟨c, rfl, rfl⟩
      · exact .inl (hmade.has hq)

end Backend

/-! Lock files -/

namespace Disk

variable {d e : Disk} {p : Path}

theorem wellFormed_openFile {r : Except SystemError Nat} (hd : d.WellFormed)
    (h : openFile p d = (r, e)) : e.WellFormed := by
  obtain ⟨fs, ⟨_, -, rfl⟩ | ⟨_, _, -, -, rfl⟩ | ⟨place, hf, -, rfl⟩⟩ := openFile_cases h
  · exact hd.withFaults fs
  · exact hd.withFaults fs
  · have hv := vacant_of_find hf
    have hdir := dir_of_walk_vacant hd hd.start (walk_of_find hf)
    exact (hd.withFaults fs).create hv hdir

theorem contents_of_openFile {id : Nat} (h : openFile p d = (.ok id, e)) {x : Nat × Bytes}
    (hx : x ∈ e.contents) :
    x ∈ d.contents ∨ (∃ place, d.find .make p = .ok (.vacant place)) ∧ x = (id, []) := by
  obtain ⟨fs, ⟨_, hr, -⟩ | ⟨_, _, -, -, rfl⟩ | ⟨place, hf, hr, rfl⟩⟩ := openFile_cases h
  · cases hr
  · exact .inl hx
  · cases hr
    have hx : x ∈ ({ { d with faults := fs }.set place (.file ⟨d.nextId, [], defaultMode⟩) with
      nextId := d.nextId + 1 } : Disk).contents := hx
    have hv := vacant_of_find hf
    rw [contents_create (d := { d with faults := fs }) hv] at hx
    exact (List.mem_append.1 hx).imp_right fun he => ⟨⟨place, hf⟩, List.mem_singleton.1 he⟩

end Disk

/-! Starts -/

namespace Host

variable {m : Machine} {h after : Host} {env : ProvisionEnv} {profile : Profile} {b : Backend}
  {install : Path} {d : Disk}

/-- What the disk holds when a configuration has failed: what it held before, with the lock file, or
with what was written of the configuration. -/
inductive Halted (m : Machine) (profile : Profile) (b : Backend) (install : Path) (d : Disk) :
    Disk → Prop
  | unlocked : Halted m profile b install d d
  | locked {lock d'} (ho : openFile (Path.join install Session.lockFile) d = (.ok lock, d')) :
      Halted m profile b install d d'
  | written {lock d' r last} (ho : openFile (Path.join install Session.lockFile) d = (.ok lock, d'))
      (hw : b.writeConfig m.processors profile install d' = (r, last)) :
      Halted m profile b install d last

section halted

variable {last : Disk}

theorem Halted.contents (hh : Halted m profile b install d last) (hb : d.Bounded) {x : Nat × Bytes}
    (hx : x ∈ last.contents) : x ∈ d.contents ∨
      ∃ lock d', openFile (Path.join install Session.lockFile) d = (.ok lock, d') ∧
        ((∃ place, d.find .make (Path.join install Session.lockFile) = .ok (.vacant place)) ∧
            x = (lock, []) ∨
          ∃ c, b.preview m.processors profile install = .ok c ∧ d'.nextId ≤ x.1 ∧
            x.2 = utf8 c.contents) := by
  cases hh with
  | unlocked => exact .inl hx
  | locked ho => exact (contents_of_openFile ho hx).imp_right fun hnew => ⟨_, _, ho, .inl hnew⟩
  | written ho hw =>
    have hb' := ((durable_unwritten d).openFile _ d hb.unwritten _ _ ho).1.bounded
    rcases Backend.contents_of_writeConfig hb' hw hx with hx | ⟨c, hpreview, -, hnew⟩
    · exact (contents_of_openFile ho hx).imp_right fun hnew => ⟨_, _, ho, .inl hnew⟩
    · exact .inr ⟨_, _, ho, .inr ⟨c, hpreview, hnew⟩⟩

theorem Halted.kept (hh : Halted m profile b install d last) (hd : d.WellFormed) {q : Place}
    {f : FileData} (hq : d.get? q = some (.file f)) : last.get? q = some (.file f) ∨
      ∃ c id, b.preview m.processors profile install = .ok c ∧
        last.get? q = some (.file ⟨id, utf8 c.contents, 0o600⟩) := by
  cases hh with
  | unlocked => exact .inl hq
  | locked ho => exact .inl ((gainsOnly_openFile ho).kept q f hq)
  | written ho hw =>
    have hq' := (gainsOnly_openFile ho).kept q f hq
    exact (Backend.kept_of_writeConfig (wellFormed_openFile hd ho) hw hq').imp_right
      fun ⟨c, hpreview, htaken⟩ => ⟨c, _, hpreview, htaken⟩

end halted

theorem halted_of_configure {e : Error}
    (hc : h.configure m profile b install = (.error e, after)) :
    ∃ fs last, after.disk = { last with faults := fs } ∧
      Halted m profile b install h.disk last := by
  obtain ⟨final, rfl, hconf⟩ := configures hc
  cases hconf with
  | unopened cause opened _ =>
    obtain ⟨fs, rfl⟩ := attempt_error opened
    exact ⟨fs, _, rfl, .unlocked⟩
  | busy lock opened _ _ => exact ⟨final.faults, final, rfl, .locked opened⟩
  | unwritten lock d' _ opened _ written _ => exact ⟨final.faults, final, rfl, .written opened written⟩
  | emptied lock d' last config t opened _ written emptied result =>
    cases t with
    | ok _ => cases result
    | error _ =>
      rcases emptyLog_cases emptied with ⟨hr, -⟩ | ⟨_, hempty, ⟨-, hr⟩ | ⟨⟨cause, rfl⟩, -⟩⟩
      · cases hr
      · cases hr
      · obtain ⟨fs, rfl⟩ := attempt_error hempty
        exact ⟨fs, last, rfl, .written opened written⟩

/-- How far a start has come that fails. -/
theorem start_error_cases {halt : Halt} (herr : h.start m env profile b = (.error halt, after)) :
    (∃ e, profile.check = .error e ∧ halt = .error e ∧ after = h) ∨
      profile.check = .ok () ∧ ∃ r p d, h.provisioner.provision env b.descriptor h.disk = (r, p, d) ∧
        ∃ fs last, after.disk = { last with faults := fs } ∧
          (last = d ∨ ∃ install, r = .ok install ∧ env.cancelledAfter = false ∧
            Halted m profile b install d last) := by
  have hprepare : h.prepare m env profile b = (.error halt, after) := by
    unfold start at herr
    split at herr <;> cases herr
    assumption
  unfold prepare at hprepare
  cases hcheck : profile.check with
  | error e =>
    simp only [hcheck] at hprepare
    cases hprepare
    exact .inl ⟨e, rfl, rfl, rfl⟩
  | ok _ =>
    refine .inr ⟨rfl, ?_⟩
    rcases hr : h.provisioner.provision env b.descriptor h.disk with ⟨halt' | install, p, d⟩
    · simp only [hcheck, hr] at hprepare
      cases hprepare
      exact ⟨_, p, d, rfl, d.faults, d, rfl, .inl rfl⟩
    refine ⟨_, p, d, rfl, ?_⟩
    by_cases hw : env.cancelledAfter = true
    · simp only [hcheck, hr, hw, if_true] at hprepare
      cases hprepare
      exact ⟨d.faults, d, rfl, .inl rfl⟩
    · simp only [hcheck, hr, hw, Bool.false_eq_true, if_false] at hprepare
      rcases hc : ({ h with provisioner := p }.withDisk d).configure m profile b install with
        ⟨e | s, last⟩ <;> rw [hc] at hprepare <;> cases hprepare
      obtain ⟨fs, last, hlast, hhalted⟩ := halted_of_configure hc
      exact ⟨fs, last, hlast, .inr ⟨install, rfl, by simpa using hw, hhalted⟩⟩

/-- What a file can be that is there after a start has failed. -/
inductive Origin (m : Machine) (h : Host) (env : ProvisionEnv) (profile : Profile) (b : Backend)
    (f : FileData) : Prop
  /-- It was there with the data that it has. -/
  | old {q : Place} {g : FileData} (hq : h.disk.get? q = some (.file g)) (hid : g.id = f.id)
      (hdata : g.data = f.data)
  /-- It was made while a release was installed that has been fetched. -/
  | release {r p d} (hfetched : h.provisioner.Downloads env b.descriptor h.disk)
      (hp : h.provisioner.provision env b.descriptor h.disk = (r, p, d))
      (hnew : h.disk.nextId ≤ f.id) (hmade : f.id < d.nextId)
  /-- It is the lock file, which was missing, and it is empty. -/
  | lock {install : Path} {d d' : Disk} {place : Place} (ho : h.Opens env profile b install d f.id d')
      (hmissing : d.find .make (Path.join install Session.lockFile) = .ok (.vacant place))
      (hdata : f.data = [])
  /-- It is the configuration that was previewed, made after the lock file was opened. -/
  | config {install : Path} {d d' : Disk} {lock : Nat} {c : RenderedConfig}
      (ho : h.Opens env profile b install d lock d')
      (hpreview : b.preview m.processors profile install = .ok c)
      (hnew : d'.nextId ≤ f.id) (hdata : f.data = utf8 c.contents)

/-- The file is where it was, unless the configuration is there now. -/
def Stays (m : Machine) (h : Host) (profile : Profile) (b : Backend) (after : Host) (q : Place)
    (f : FileData) : Prop :=
  after.disk.get? q = some (.file f) ∨
    ∃ c id, b.preview m.processors profile (h.provisioner.installPath b.descriptor) = .ok c ∧
      after.disk.get? q = some (.file ⟨id, utf8 c.contents, 0o600⟩)

/-- What a start that fails has not done. -/
structure Unstarted (m : Machine) (h : Host) (env : ProvisionEnv) (profile : Profile) (b : Backend)
    (after : Host) : Prop where
  workers : after.site.workers = h.site.workers
  /-- There is no new session, so none whose stream could be handed out. -/
  sessions : after.sessions = h.sessions
  locks : ∀ lock, after.isLocked lock = h.isLocked lock
  origin : ∀ q f, after.disk.get? q = some (.file f) → Origin m h env profile b f
  /-- Where nothing was fetched, every file stays. -/
  kept : ¬ h.provisioner.Downloads env b.descriptor h.disk → ∀ q f,
    h.disk.get? q = some (.file f) → Stays m h profile b after q f
  /-- What provisioning has left there stays in any case. -/
  provisioned : profile.check = .ok () → ∀ r p d,
    h.provisioner.provision env b.descriptor h.disk = (r, p, d) → d.WellFormed → ∀ q f,
      d.get? q = some (.file f) → Stays m h profile b after q f

theorem origin_of_provision {r : Except Halt Path} {p : Provisioner} (hd : h.disk.WellFormed)
    (hp : h.provisioner.provision env b.descriptor h.disk = (r, p, d)) {f : FileData}
    (hf : (f.id, f.data) ∈ d.contents) : Origin m h env profile b f := by
  have hunwritten := (durable_unwritten h.disk).provision hd.bounded.unwritten hp
  by_cases hold : f.id < h.disk.nextId
  · obtain ⟨q, g, hq, he⟩ := exists_of_mem_contents hd (hunwritten.had _ hf hold)
    exact .old hq (Prod.mk.inj he).1 (Prod.mk.inj he).2
  · by_cases hfetched : h.provisioner.Downloads env b.descriptor h.disk
    · exact .release hfetched hp (Nat.le_of_not_lt hold) (hunwritten.bounded _ hf)
    · obtain ⟨hwf, hsame⟩ := Provisioner.unfetched hd hfetched hp
      exact absurd (hd.bounded _ (contents_subset_of_sameFiles hsame hwf hf)) hold

/-- A start that fails has started nothing, and a profile that is rejected changes nothing at all. -/
theorem unstarted_of_error (hd : h.disk.WellFormed) {halt : Halt}
    (herr : h.start m env profile b = (.error halt, after)) :
    Unstarted m h env profile b after ∧
      ∀ e, profile.check = .error e → halt = .error e ∧ after = h := by
  have hsessions : after.sessions = h.sessions := by
    rcases start_cases m h env profile b with ⟨_, _, hs, -⟩ | ⟨_, _, hs, hsame⟩ <;> rw [herr] at hs <;>
      cases hs
    exact hsame
  have hworkers : after.site.workers = h.site.workers := by
    simpa only [herr] using (h.start_leaves m env profile b).1
  have hlocks : ∀ lock, after.isLocked lock = h.isLocked lock := fun lock => by
    rw [isLocked, isLocked, hsessions]
  rcases start_error_cases herr with
    ⟨e, hcheck, rfl, rfl⟩ | ⟨hcheck, r, p, d, hp, fs, last, hlast, hend⟩
  · refine ⟨⟨rfl, rfl, fun _ => rfl, fun q f hq => .old hq rfl rfl, fun _ q f hq => .inl hq,
      fun hok => ?_⟩, fun e' he => ?_⟩ <;> rw [hcheck] at *
    · cases hok
    · cases he
      exact ⟨rfl, rfl⟩
  have hget : ∀ q, after.disk.get? q = last.get? q := fun q => by rw [hlast]; rfl
  have hstays : d.WellFormed → ∀ q f, d.get? q = some (.file f) →
      Stays m h profile b after q f := by
    intro hwf q f hq
    rw [Stays, hget]
    rcases hend with rfl | ⟨install, rfl, -, hhalted⟩
    · exact .inl hq
    · obtain rfl := Provisioner.provision_ok hp
      exact hhalted.kept hwf hq
  refine ⟨⟨hworkers, hsessions, hlocks, fun q f hq => ?_, fun hno q f hq => ?_,
    fun _ r' p' d' hp' hwf => ?_⟩, fun e he => ?_⟩
  · have hbounded := ((durable_unwritten h.disk).provision hd.bounded.unwritten hp).bounded
    have hf : (f.id, f.data) ∈ last.contents := mem_contents ((hget q).symm.trans hq)
    rcases hend with rfl | ⟨install, rfl, hwaited, hhalted⟩
    · exact origin_of_provision hd hp hf
    · rcases hhalted.contents hbounded hf with hf | ⟨lock, d', ho, ⟨⟨place, hv⟩, he⟩ | ⟨c, hpre, hnew⟩⟩
      · exact origin_of_provision hd hp hf
      · obtain ⟨rfl, hdata⟩ := Prod.mk.inj he
        exact .lock ⟨hcheck, ⟨p, hp⟩, hwaited, ho⟩ hv hdata
      · exact .config ⟨hcheck, ⟨p, hp⟩, hwaited, ho⟩ hpre hnew.1 hnew.2
  · obtain ⟨hwf, hsame⟩ := Provisioner.unfetched hd hno hp
    exact hstays hwf q f ((hsame q f).2 hq)
  · rw [hp] at hp'
    cases hp'
    exact hstays hwf
  · rw [hcheck] at he
    cases he

/-- A host whose sessions keep their log in the lock file of the simulator. -/
def loggingHost : Host :=
  .new { installRoot := "/r", logFile := some "/r/simulated/.session.lock" } {}

/-- A profile whose worker has the name of a token. -/
def tokenWorker : Profile := { Profile.sample "randomx" with worker := "\x7b\x7bpool\x7d\x7d" }

/-- A start that comes to write its configuration and cannot. -/
def tokenStart : Except Halt Nat × Host :=
  loggingHost.start anyMachine (Provision.delivering []) tokenWorker .simulated

def tokenHalt : Halt :=
  .error (.configuration "simulator.txt" (.unresolvedToken "\x7b\x7bpool\x7d\x7d"))

theorem tokenStart_eq : tokenStart = (.error tokenHalt, tokenStart.2) :=
  have hfails : tokenStart.1 = .error tokenHalt := by decide +kernel
  Prod.fst_eq_iff.1 hfails

theorem wellFormed_loggingHost : loggingHost.disk.WellFormed :=
  wellFormed_of_nodes (by simp [loggingHost, Host.new, disk]) rfl
    (by simp [loggingHost, Host.new, disk]) (by simp [loggingHost, Host.new, disk])

theorem unstarted_of_tokenStart : loggingHost.disk.WellFormed ∧
    tokenStart = (.error tokenHalt, tokenStart.2) ∧
      Unstarted anyMachine loggingHost (Provision.delivering []) tokenWorker .simulated tokenStart.2 :=
  ⟨wellFormed_loggingHost, tokenStart_eq, (unstarted_of_error wellFormed_loggingHost tokenStart_eq).1⟩

/-- Neither a release nor a configuration is written to the log here, but the lock file is the log. -/
theorem not_always_logless : ¬ ∀ (m : Machine) (h : Host) (env : ProvisionEnv) (profile : Profile)
    (b : Backend) (halt : Halt) (after : Host), h.disk.WellFormed → b.descriptor.artifact = none →
      h.logPath (h.provisioner.installPath b.descriptor) ≠
        b.descriptor.configPath (h.provisioner.installPath b.descriptor) →
      h.start m env profile b = (.error halt, after) →
        after.disk.exists? (h.logPath (h.provisioner.installPath b.descriptor)) =
          h.disk.exists? (h.logPath (h.provisioner.installPath b.descriptor)) := by
  intro hall
  have hlog := hall _ _ _ _ _ _ _ wellFormed_loggingHost rfl (by decide +kernel) tokenStart_eq
  revert hlog
  decide +kernel

end Host
end RigWarden
