import RigWarden.Proofs.Provision.Premises
import RigWarden.Proofs.Session.Exclusion

/-!
# Sessions side by side

Where no other place is given for the logs, each session keeps its log in the install directory of
its backend. A host whose root is in good order stays like that, whatever its sessions and their
workers do in their turns: the file that a worker writes to is never found in the install directory
of another backend.
-/

namespace RigWarden

open Disk Provision

namespace Backend

/-- The install directories of the backends. -/
def Home (x : String) : Prop := ∃ b : Backend, x = b.descriptor.installDir

def logPath (root : Path) (b : Backend) : Path :=
  Path.join (b.descriptor.installPath root) Session.logFile

theorem visible_of_length {s : String} (hs : '/' ∉ s.toList) (hlen : 2 < s.toList.length)
    (hdot : s.toList.head? ≠ some '.') : Visible s := ⟨plain_of_length hs hlen, hdot⟩

theorem visible_home : ∀ x, Home x → Visible x := by
  rintro x ⟨b, rfl⟩
  cases b <;> exact visible_of_length (by decide) (by decide) (by decide)

theorem visible_configFile (b : Backend) : Visible b.descriptor.configFile := by
  cases b <;> exact visible_of_length (by decide) (by decide) (by decide)

theorem lodger_descriptor (b : Backend) : Lodger b.descriptor Home :=
  ⟨plainNames_descriptor b, b, rfl⟩

theorem installDir_injective {b b' : Backend}
    (h : b.descriptor.installDir = b'.descriptor.installDir) : b = b' := by
  cases b <;> cases b' <;> first | rfl | exact absurd h (by decide)

theorem executable_of_artifact (b : Backend) (h : b.descriptor.artifact ≠ none) :
    b.descriptor.executable ≠ none := by
  cases b with
  | simulated => exact absurd rfl h
  | _ => exact nofun

end Backend

theorem plain_lockFile : Path.Plain Session.lockFile := plain_of_length (by decide) (by decide)

theorem plain_logFile : Path.Plain Session.logFile := plain_of_length (by decide) (by decide)

/-- No file in `x` has the identity `id`. -/
def Disk.Astray (d : Disk) (R : Place) (x : String) (id : Nat) : Prop :=
  ∀ q file, Below (R ++ [x]) q → d.get? q = some (.file file) → file.id ≠ id

section astray

variable {d e : Disk} {root : Path} {dirs N : String → Prop} {R : Place} {x ins : String} {id : Nat}

/-- No file comes into an install directory from elsewhere. -/
theorem Disk.Astray.confines (h : d.Astray R x id) (hlt : id < d.nextId) (hd : d.WellFormed)
    (hx : Visible x) (hi : Issues d e) (hc : Confines N d e R ins) : e.Astray R x id := by
  intro q file hq hfile hid
  by_cases hins : x = ins
  · subst hins
    have hold : file.id ∈ d.ids := hi.old _ (mem_ids hfile) (hid ▸ hlt)
    obtain ⟨p, old, hp, hpid⟩ := exists_of_mem_ids hd hold
    have hout : ¬ Below (R ++ [x]) p := fun hb => h p old hb hp (hpid.trans hid)
    have he := hc.spares.has p _ hout hp
    obtain rfl := hi.toNumbered.place_eq he hfile hpid
    exact hout hq
  · rw [hc.spares.get?_eq hx hins hq.1] at hfile
    exact h q file hq hfile hid

theorem Disk.Astray.updateFile (h : d.Astray R x id) (k : Nat) {u : FileData → FileData}
    (hu : ∀ data, (u data).id = data.id) : (d.updateFile k u).Astray R x id := by
  intro q file hq hfile
  rw [get?_updateFile] at hfile
  obtain ⟨n, hn, he⟩ := Option.map_eq_some_iff.1 hfile
  cases n with
  | file old =>
    cases he
    split
    · rw [hu]
      exact h q old hq hn
    · exact h q old hq hn
  | _ => cases he

/-- Where all files of an identity are in one install directory, none is in another one. -/
theorem Disk.Numbered.astray (hd : d.Numbered) {place : Place} {file : FileData}
    (hfile : d.get? place = some (.file file)) (hb : Below (R ++ [ins]) place) (hne : x ≠ ins) :
    d.Astray R x file.id := fun q other hq hother hid => by
  obtain rfl := hd.place_eq hother hfile hid
  exact hne (isWithin_unique hq.1 hb.1)

theorem Provision.Settled.update (h : Provision.Settled d root dirs R) (id : Nat)
    {u : FileData → FileData} (hu : ∀ data, (u data).id = data.id) : Provision.Settled (d.updateFile id u) root dirs R :=
  ⟨h.wellFormed.updateFile id hu, h.neat.alike (alike_updateFile d id u)⟩

/-- What is written elsewhere does not change the log. -/
theorem Provision.Settled.find_of_astray {b : Backend} (h : Provision.Settled d root Backend.Home R)
    (ha : d.Astray R b.descriptor.installDir id) (u : FileData → FileData) :
    (d.updateFile id u).find .through (b.logPath root) = d.find .through (b.logPath root) := by
  have hdir := b.lodger_descriptor.mem
  rw [find_updateFile]
  rcases hf : d.find .through (b.logPath root) with _ | ⟨place, n⟩ | place
  · rfl
  · cases n with
    | file file =>
      have hfile := get?_of_find hf
      have hb : Below (R ++ [b.descriptor.installDir]) place :=
        h.neat.below_of_find hdir
          (Backend.visible_home _ hdir).plain plain_logFile hf
          (by rw [Found.place, hfile]; simp)
      simp [Except.map, Found.updated, Node.updated, ha place file hb hfile]
    | _ => rfl
  · rfl

end astray

/-- In its install directory the configuration touches its own file and temporary ones. -/
theorem Provision.Settled.writeConfig {d e : Disk} {root : Path} {R : Place} {b : Backend}
    (h : Provision.Settled d root Backend.Home R) {N : String → Prop} (hN : N b.descriptor.configFile)
    (htmp : ∀ k, N (".config-" ++ Number.decimal k ++ "")) {processors : Nat} {profile : Profile}
    {r : Except Error RenderedConfig}
    (hw : b.writeConfig processors profile (b.descriptor.installPath root) d = (r, e)) :
    Confines N d e R b.descriptor.installDir := by
  have hdir := b.lodger_descriptor.mem
  unfold Backend.writeConfig at hw
  rcases bind_cases hw with ⟨_, -, hp⟩ | ⟨config, mid, hp, hw⟩
  · obtain ⟨-, rfl⟩ := Prod.mk.inj hp
    exact h.refl
  obtain ⟨hpreview, rfl⟩ := Prod.mk.inj hp
  obtain ⟨-, hrender, -⟩ := Backend.preview_eq_ok.1 hpreview
  have hpath := Backend.path_of_render hrender
  have hparent : Path.parent? config.path = some (b.descriptor.installPath root) := by
    rw [hpath]
    exact Path.parent?_join root (Backend.visible_home _ hdir).plain b.visible_configFile.plain
  have hwritten : ∀ {r last}, config.write d = (r, last) →
      Confines N d last R b.descriptor.installDir := fun hr => by
    unfold RenderedConfig.write at hr
    rw [hparent] at hr
    exact h.writeIn hdir Backend.visible_home b.visible_configFile hN htmp hpath hr
  rcases bind_cases hw with ⟨_, -, hr⟩ | ⟨⟨⟩, last, hr, hend⟩
  · exact hwritten hr
  · cases hend
    exact hwritten hr

namespace Backend

/-- What the workers of the backend are called by their supervisor. -/
def programIn (install : Path) : Backend → String
  | .xmrig => Path.join install "xmrig"
  | .srbMiner => Path.join install "SRBMiner-MULTI"
  | .simulated => "built-in simulator"

theorem program_launchSpec (b : Backend) (options : Simulator.Options) (install : Path)
    (config : RenderedConfig) :
    (b.launchSpec options install config).program = b.programIn install := by
  cases b <;> rfl

/-- The pump of a session that is about to start its first worker, and to follow the log that the
install directory holds in `d`. -/
def freshPump (options : SessionOptions) (root : Path) (d : Disk) (b : Backend) : Pump :=
  .new b (b.programIn (b.descriptor.installPath root)) options.restart options.gracePeriod
    (.fromEnd (Host.viewLog d (b.logPath root)))

end Backend

/-- The session of a backend has its log in its install directory, and nothing has happened to it. -/
structure Session.Boards (s : Session) (options : SessionOptions) (root : Path) (d : Disk)
    (b : Backend) : Prop where
  backend : s.backend = b
  logPath : s.logPath = b.logPath root
  pump : s.pump = b.freshPump options root d

namespace Host

/-- A start has worked in the install directory of its backend, and nowhere else. -/
structure Works (d e : Disk) (R : Place) (b : Backend) : Prop where
  confined : Confines Anything d e R b.descriptor.installDir
  issues : Issues d e

section works

variable {d e f : Disk} {root : Path} {R : Place} {b : Backend}

theorem Works.trans (hw : Works d e R b) (hw' : Works e f R b) : Works d f R b :=
  ⟨hw.confined.trans hw'.confined, hw.issues.trans hw'.issues⟩

theorem Works.settled (hw : Works d e R b) (hd : Provision.Settled d root Backend.Home R) :
    Provision.Settled e root Backend.Home R :=
  hd.confines b.lodger_descriptor.mem Backend.visible_home hw.confined

variable (hd : Provision.Settled d root Backend.Home R) (hn : d.Numbered)
include hd hn

theorem works_openFile {name : String} (hname : Path.Plain name) {o : Except SystemError Nat}
    (ho : openFile (Path.join (b.descriptor.installPath root) name) d = (o, e)) : Works d e R b := by
  have hdir := b.lodger_descriptor.mem
  have hopen := hd.openFile hdir (Backend.visible_home _ hdir).plain Backend.visible_home hname ho
  exact ⟨hopen.1, (KeepsIds.openFile _).issues hn ho⟩

theorem works_writeConfig {processors : Nat} {profile : Profile} {r : Except Error RenderedConfig}
    (hw : b.writeConfig processors profile (b.descriptor.installPath root) d = (r, e)) :
    Works d e R b :=
  ⟨hd.writeConfig trivial (fun _ => trivial) hw,
    (KeepsIds.writeConfig b processors profile _).issues hn hw⟩

theorem works_emptyLog {options : SessionOptions} {r : Except Error Unit}
    (he : emptyLog options (b.logPath root) d = (r, e)) : Works d e R b := by
  have hdir := b.lodger_descriptor.mem
  rcases emptyLog_cases he with ⟨-, rfl⟩ | ⟨_, hempty, -⟩
  · exact ⟨hd.refl, hn.issues⟩
  · exact ⟨hd.emptyFile hn hdir (Backend.visible_home _ hdir).plain Backend.visible_home plain_logFile
      hempty, (KeepsIds.emptyFile _).issues hn hempty⟩

end works

section starts

variable {h after : Host} {m : Machine} {root : Path} {R : Place} {b : Backend}
  {profile : Profile} {env : ProvisionEnv} {e : Disk}

theorem works_configures {r : Except Error Session}
    (hc : h.Configures m profile b (b.descriptor.installPath root) r e)
    (hlog : h.options.logFile = none) (hd : Provision.Settled h.disk root Backend.Home R)
    (hn : h.disk.Numbered) :
    Works h.disk e R b ∧ ∀ s, r = .ok s → s.Boards h.options root e b := by
  have hlogPath : h.logPath (b.descriptor.installPath root) = b.logPath root := by
    rw [logPath, hlog]
    rfl
  cases hc with
  | unopened cause opened result =>
    subst result
    exact ⟨works_openFile hd hn plain_lockFile opened, fun s hs => by cases hs⟩
  | busy lock opened held result =>
    subst result
    exact ⟨works_openFile hd hn plain_lockFile opened, fun s hs => by cases hs⟩
  | unwritten lock d _ opened free written result =>
    subst result
    have hopen := works_openFile hd hn plain_lockFile opened
    exact ⟨hopen.trans (works_writeConfig (hopen.settled hd) hopen.issues.toNumbered written),
      fun s hs => by cases hs⟩
  | emptied lock d d' config t opened free written emptied result =>
    rw [hlogPath] at emptied result
    have hopen := works_openFile hd hn plain_lockFile opened
    have hwrite := hopen.trans (works_writeConfig (hopen.settled hd) hopen.issues.toNumbered written)
    refine ⟨hwrite.trans (works_emptyLog (hwrite.settled hd) hwrite.issues.toNumbered emptied),
      fun s hs => ?_⟩
    rw [result] at hs
    cases t <;> cases hs
    exact ⟨rfl, rfl, congrArg (Pump.new b · _ _ _) (b.program_launchSpec _ _ config)⟩

/-- The sessions after a start: those before it, and perhaps one more in its install directory. -/
def Adds (h after : Host) (b : Backend) : Prop :=
  after.sessions = h.sessions ∨ ∃ s, after.sessions = h.sessions ++ [s] ∧
    s.Boards h.options h.provisioner.root after.disk b

/-- A session that was not there before keeps its log in the install directory. -/
theorem Adds.boards (ha : h.Adds after b) {j : Nat} {s : Session} (hs : after.sessions[j]? = some s)
    (hj : h.sessions.length ≤ j) : s.Boards h.options h.provisioner.root after.disk b := by
  rcases ha with he | ⟨s', he, hboards⟩
  · rw [he, List.getElem?_eq_none hj] at hs
    cases hs
  · rw [he, List.getElem?_append_right hj] at hs
    obtain rfl : s = s' := by simpa using List.mem_of_getElem? hs
    exact hboards

/-- What is prepared in an install path is all that there is of a session. -/
theorem adds_of_boards {p : Provisioner} {r : Except Error Session}
    (hboards : ∀ s, r = .ok s → s.Boards h.options h.provisioner.root e b) :
    h.Adds { { h with provisioner := p }.withDisk e with
      sessions := h.sessions ++ r.toOption.toList } b := by
  cases r with
  | error _ => exact .inl (List.append_nil _)
  | ok s => exact .inr ⟨s, rfl, hboards s rfl⟩

theorem works_start (m : Machine) (profile : Profile) (b : Backend)
    (hd : Provision.Settled h.disk h.provisioner.root Backend.Home R) (hn : h.disk.Numbered)
    (hlog : h.options.logFile = none) (horder : ∀ l, (env.order l).Perm l) :
    Works h.disk (h.start m env profile b).2.disk R b ∧ h.Adds (h.start m env profile b).2 b := by
  rcases h.start_steps m env profile b with he | ⟨r, p, d, hp, hend⟩
  · rw [he]
    exact ⟨⟨hd.refl, hn.issues⟩, .inl rfl⟩
  have hwork : Works h.disk d R b := ⟨hd.provision Backend.visible_home b.lodger_descriptor horder
    (fun _ _ _ _ _ _ _ _ _ _ => trivial) hp, issues_provision hn hp⟩
  rcases hend with he | ⟨-, r', e, hconf, he⟩
  · rw [he]
    exact ⟨hwork, .inl rfl⟩
  · rw [he]
    obtain ⟨hlast, hboards⟩ := works_configures hconf hlog (hwork.settled hd) hwork.issues.toNumbered
    exact ⟨hwork.trans hlast, adds_of_boards hboards⟩

/-- The first start that comes to a session has made the root, if it was not there. -/
theorem start_tidy (m : Machine) (profile : Profile) (b : Backend)
    (ht : Tidy h.disk h.provisioner.root Backend.Home) (hn : h.disk.Numbered)
    (hlog : h.options.logFile = none) (horder : ∀ l, (env.order l).Perm l) :
    let after := (h.start m env profile b).2
    Tidy after.disk h.provisioner.root Backend.Home ∧ after.disk.Numbered ∧
      (after.sessions = h.sessions ∨ h.Adds after b ∧
        ∃ R, Provision.Settled after.disk h.provisioner.root Backend.Home R) := by
  intro after
  rcases h.start_steps m env profile b with he | ⟨r, p, d, hp, hend⟩
  · simp only [after, he]
    exact ⟨ht, hn, .inl trivial⟩
  have htidy := (ht.provision Backend.visible_home b.lodger_descriptor horder hp).1.tidy
  have hnum := (issues_provision hn hp).toNumbered
  rcases hend with he | ⟨rfl, r', last, hconf, he⟩
  · simp only [after, he]
    exact ⟨htidy, hnum, .inl rfl⟩
  · obtain ⟨k, R, hl⟩ := ht.leads_of_provision Backend.visible_home b.lodger_descriptor horder
      b.executable_of_artifact hp
    obtain ⟨hwork, hboards⟩ := works_configures hconf hlog (htidy.settled hl) hnum
    have hsettled := hwork.settled (htidy.settled hl)
    simp only [after, he]
    exact ⟨hsettled.tidy, hwork.issues.toNumbered, .inr ⟨adds_of_boards hboards, R, hsettled⟩⟩

end starts

end Host

/-! Workers -/

/-- No worker of the machine removes files. -/
structure Machine.IsTame (m : Machine) : Prop where
  execute : ∀ program data n b, m.execute program data n = .ok b → b.IsTame
  simulate : ∀ settings text, (m.simulate settings text).IsTame

namespace Site

variable {m : Machine} {s t : Site} {spec : LaunchSpec} {log : Path} {b : Behaviour}

theorem isTame_behaviour (hm : m.IsTame) (h : s.behaviour m spec = .ok b) : b.IsTame := by
  unfold behaviour at h
  split at h
  · unfold load at h
    split at h
    · cases h
    · split at h
      · cases h
      · cases h
      · cases h
      · unfold loadFrom at h
        split at h
        · cases h
        · cases h
        · split at h
          · cases h
          · exact hm.execute _ _ _ _ h
      · cases h
  · cases h
    exact hm.simulate _ _

/-- A start opens the log, whether a worker comes of it or not. -/
theorem spawn_opens (m : Machine) (s : Site) (spec : LaunchSpec) (log : Path) :
    ∃ o, openFile log s.disk = (o, (s.spawn m spec log).2.disk) ∧
      ((∃ e, (s.spawn m spec log).1 = .error e) ∧ (s.spawn m spec log).2.workers = s.workers ∨
        ∃ worker, o = .ok worker.log ∧ (s.spawn m spec log).1 = .ok s.workers.length ∧
          (s.spawn m spec log).2.workers = s.workers ++ [worker] ∧ worker.exit = none ∧
          (m.IsTame → worker.IsSober)) := by
  unfold spawn
  rcases openFile log s.disk with ⟨cause | id, disk⟩
  · exact ⟨_, rfl, .inl ⟨⟨_, rfl⟩, rfl⟩⟩
  · simp only
    split
    · exact ⟨_, rfl, .inl ⟨⟨_, rfl⟩, rfl⟩⟩
    · next behaviour hb =>
      exact ⟨_, rfl, .inr ⟨⟨spec.program, isSimulation spec, id, behaviour, none⟩, rfl, rfl, rfl, rfl,
        fun hm => ⟨isTame_behaviour hm hb, nofun⟩⟩⟩

/-- What a worker is about to write. -/
def output (s : Site) (w : Nat) : Text.Bytes :=
  match (s.workers[w]?).bind (·.behaviour.acts.head?) with
  | some (.write bytes) => bytes
  | _ => []

/-- A worker that removes no files leaves the disk alone, or appends to its log. -/
theorem disk_step {w : Nat} (h : ∀ worker, s.workers[w]? = some worker → worker.IsSober) :
    (s.step w).disk = s.disk ∧ s.output w = [] ∨
      ∃ worker, s.workers[w]? = some worker ∧ worker.exit = none ∧
        (s.step w).disk =
          s.disk.updateFile worker.log fun f => { f with data := f.data ++ s.output w } := by
  unfold step output
  cases hw : s.workers[w]? with
  | none => exact .inl ⟨rfl, rfl⟩
  | some worker =>
    obtain ⟨htame, hretired⟩ := h worker hw
    simp only [Option.bind_some]
    cases hacts : worker.behaviour.acts with
    | nil => exact .inl ⟨rfl, rfl⟩
    | cons act acts =>
      cases act with
      | write bytes =>
        refine .inr ⟨worker, rfl, Option.not_isSome_iff_eq_none.1 fun he => ?_, rfl⟩
        rw [hretired he] at hacts
        cases hacts
      | remove p => exact absurd (hacts ▸ List.mem_cons_self) (htame.acts p)
      | pause _ => exact .inl ⟨rfl, rfl⟩
      | exit _ => exact .inl ⟨rfl, rfl⟩

@[simp] theorem disk_request (s : Site) (w : Nat) : (s.request w).disk = s.disk := by
  unfold request
  split
  · rfl
  · split <;> rfl

@[simp] theorem disk_kill (s : Site) (w : Nat) : (s.kill w).2.disk = s.disk := by
  unfold kill
  split
  · rfl
  · split <;> rfl

end Site

namespace Host

variable {h : Host} {m : Machine} {s : Session}

@[simp] theorem disk_killIfForced (site : Site) (p q : Pump) (o : Observation) :
    (killIfForced site p q o).disk = site.disk := by
  unfold killIfForced
  split
  · exact site.disk_kill _
  · rfl

/-- A pump that launches opens the log of its session, and a new worker writes to that. No other step
of a pump touches the disk or brings a worker. -/
theorem effect_opens (m : Machine) (h : Host) (s : Session) :
    (∃ n o, s.pump.phase = .launching n ∧ openFile s.logPath h.disk = (o, (h.effect m s).2.disk) ∧
      ((∃ e, (h.effect m s).1 = .error e) ∧ (h.effect m s).2.workers = h.site.workers ∨
        ∃ worker, o = .ok worker.log ∧ (h.effect m s).1 = .ok h.site.workers.length ∧
          (h.effect m s).2.workers = h.site.workers ++ [worker] ∧ worker.exit = none ∧
          (m.IsTame → worker.IsSober))) ∨
    (h.effect m s).1 = .error .cancelled ∧ (h.effect m s).2.disk = h.disk ∧
      (h.effect m s).2.workers.length = h.site.workers.length := by
  rcases h.effect_cases m s with ⟨n, hn, -, he⟩ | ⟨w, -, -, he⟩ | he
  · obtain ⟨o, ho⟩ := h.site.spawn_opens m s.launch s.logPath
    rw [he]
    exact .inl ⟨n, o, hn, ho⟩
  · rw [he]
    exact .inr ⟨rfl, h.site.disk_request w, h.site.length_request w⟩
  · rw [he]
    exact .inr ⟨rfl, rfl, rfl⟩

end Host

/-! Turns -/

/-- A worker of the backend writes to no file of another backend, and removes none. -/
structure Worker.Hand (worker : Worker) (d : Disk) (R : Place) (b : Backend) : Prop where
  sober : worker.IsSober
  log_lt : worker.log < d.nextId
  astray : ∀ b', b' ≠ b → d.Astray R b'.descriptor.installDir worker.log

section hand

variable {worker worker' : Worker} {d e : Disk} {root : Path} {N : String → Prop} {R : Place}
  {b : Backend} {ins : String}

theorem Worker.Hand.ages (h : worker.Hand d R b) (ha : worker.Ages worker') : worker'.Hand d R b :=
  ⟨ha.sober h.sober, ha.log ▸ h.log_lt, ha.log ▸ h.astray⟩

theorem Worker.Hand.confines (h : worker.Hand d R b) (hd : d.WellFormed) (hi : Issues d e)
    (hc : Confines N d e R ins) : worker.Hand e R b :=
  ⟨h.sober, Nat.lt_of_lt_of_le h.log_lt hi.next, fun b' hb =>
    (h.astray b' hb).confines h.log_lt hd (Backend.visible_home _ ⟨b', rfl⟩) hi hc⟩

theorem Worker.Hand.updateFile (h : worker.Hand d R b) (id : Nat) {u : FileData → FileData}
    (hu : ∀ data, (u data).id = data.id) : worker.Hand (d.updateFile id u) R b :=
  ⟨h.sober, h.log_lt, fun b' hb => (h.astray b' hb).updateFile id hu⟩

end hand

/-- A turn of the host's own: nobody else has a hand in it, and a directory is listed in some order. -/
def Host.Turn.IsOwn : Host.Turn → Prop
  | .start env _ _ => ∀ l, (env.order l).Perm l
  | .host _ _ | .disk _ => False
  | _ => True

namespace Crew

open Host

/-- The sessions have their logs in install directories in `R`, and no worker reaches over into
another one. -/
structure Docked (c : Crew) (root : Path) (R : Place) : Prop where
  minded : c.Minded
  settled : Provision.Settled c.host.disk root Backend.Home R
  numbered : c.host.disk.Numbered
  rooted : c.host.provisioner.root = root
  unlogged : c.host.options.logFile = none
  logPath : ∀ (i : Nat) s, c.host.sessions[i]? = some s → s.logPath = s.backend.logPath root
  hands : ∀ w i s worker, c.Started w i s → c.host.site.workers[w]? = some worker →
    worker.Hand c.host.disk R s.backend

variable {c d : Crew} {root : Path} {R : Place} {m : Machine} {t : Turn}

/-- A worker has a starter. -/
theorem Minded.exists_started (h : c.Minded) {w : Nat} (hw : w < c.host.site.workers.length) :
    ∃ i s, c.Started w i s := by
  rw [← h.counted] at hw
  have hi := h.known _ (List.getElem_mem hw)
  exact ⟨_, _, List.getElem?_eq_getElem hw, List.getElem?_eq_getElem hi⟩

/-- What a turn leaves of those who were there: sessions keep what they are, and only a pump that makes
a step brings a worker. -/
structure Past (c d : Crew) (t : Turn) : Prop where
  ages : c.host.site.Ages d.host.site
  sessions : ∀ (i : Nat) s, d.host.sessions[i]? = some s → i < c.host.sessions.length →
    ∃ s₀, c.host.sessions[i]? = some s₀ ∧ s₀.backend = s.backend ∧ s₀.logPath = s.logPath ∧
      (s₀.pump = s.pump ∨ ∃ now clock, t = .pump i now clock ∧ s₀.pump.isOver = false)
  starters : ∀ (w i : Nat), d.starters[w]? = some i → c.starters[w]? = some i ∨
    c.host.site.workers.length ≤ w ∧ ∃ now clock s, t = .pump i now clock ∧
      c.host.sessions[i]? = some s ∧ s.pump.isOver = false

/-- Only a pump that makes a step brings a worker, which is its own. -/
theorem Minded.starters_pump (h : c.Minded) (i : Nat) (now : Instant) (clock : Clock) (w j : Nat)
    (hj : (c.turn m (.pump i now clock)).starters[w]? = some j) : c.starters[w]? = some j ∨
      c.host.site.workers.length ≤ w ∧ i = j ∧
        ∃ s, c.host.sessions[j]? = some s ∧ s.pump.isOver = false := by
  have hsame : c.host.pumpStep m now clock i = c.host → c.starters[w]? = some j := fun he => by
    have hturn : c.turn m (.pump i now clock) = c := by simp [Crew.turn, Host.turn, he]
    rwa [hturn] at hj
  cases hs : c.host.sessions[i]? with
  | none => exact .inl (hsame (by simp [pumpStep, hs]))
  | some s =>
    cases hover : s.pump.isOver with
    | true => exact .inl (hsame (by simp [pumpStep, hs, hover]))
    | false =>
      by_cases hw : w < c.starters.length
      · rw [Crew.turn, List.getElem?_append_left hw] at hj
        exact .inl hj
      · rw [Crew.turn, List.getElem?_append_right (Nat.le_of_not_lt hw)] at hj
        obtain rfl := List.eq_of_mem_replicate (List.mem_of_getElem? hj)
        exact .inr ⟨h.counted ▸ Nat.le_of_not_lt hw, rfl, s, hs, hover⟩

theorem ages_turn (m : Machine) (c : Crew) (t : Turn) :
    c.host.site.Ages (c.turn m t).host.site := by
  cases t with
  | start env profile b => exact .of_workers_eq (c.host.start_leaves m env profile b).1
  | askStop i => exact .of_workers_eq (congrArg Site.workers (c.host.askStop_leaves i).1)
  | pump i now clock =>
    change c.host.site.Ages (c.host.pumpStep m now clock i).site
    cases hs : c.host.sessions[i]? with
    | none => exact .of_workers_eq (by simp [pumpStep, hs])
    | some s =>
      cases hover : s.pump.isOver with
      | true => exact .of_workers_eq (by simp [pumpStep, hs, hover])
      | false =>
        obtain ⟨channel, he⟩ := pumpStep_eq hs hover m now clock
        rw [he]
        exact c.host.ages_advance m s now clock
  | worker w => exact c.host.site.ages_step w
  | host _ _ => exact .refl _
  | disk _ => exact .of_workers_eq rfl

theorem Minded.past (h : c.Minded) (t : Turn) : c.Past (c.turn m t) t := by
  refine ⟨ages_turn m c t, fun i s hs hi => ?_, fun w j hj => ?_⟩
  · rw [host_turn] at hs
    cases becomes_turn hs with
    | fresh _ _ _ _ _ _ new _ _ _ _ => exact absurd new hi.ne
    | stays s₀ was same _ _ _ =>
      rw [same]
      exact ⟨s₀, was, rfl, rfl, .inl rfl⟩
    | steps s₀ now clock spawned was running turn same _ =>
      rw [same]
      exact ⟨s₀, was, rfl, rfl, .inr ⟨now, clock, turn, running⟩⟩
  · cases t with
    | pump i now clock =>
      rcases h.starters_pump i now clock w j hj with hold | ⟨hw, rfl, s, hs, hover⟩
      · exact .inl hold
      · exact .inr ⟨hw, now, clock, s, rfl, hs, hover⟩
    | _ => exact .inl hj

/-- What has to be looked at when a turn is over: the disk, and who is new. -/
theorem Docked.next (h : c.Docked root R)
    (hsettled : Provision.Settled (c.turn m t).host.disk root Backend.Home R)
    (hnum : (c.turn m t).host.disk.Numbered)
    (hroot : (c.turn m t).host.provisioner.root = c.host.provisioner.root)
    (hoptions : (c.turn m t).host.options = c.host.options)
    (hadded : ∀ (i : Nat) s, (c.turn m t).host.sessions[i]? = some s → c.host.sessions.length ≤ i →
      s.logPath = s.backend.logPath root)
    (hhand : ∀ (worker : Worker) b, worker.Hand c.host.disk R b →
      worker.Hand (c.turn m t).host.disk R b)
    (hnew : ∀ w i s worker, c.host.site.workers.length ≤ w → (c.turn m t).Started w i s →
      (c.turn m t).host.site.workers[w]? = some worker →
      worker.Hand (c.turn m t).host.disk R s.backend) :
    (c.turn m t).Docked root R := by
  have hpast := h.minded.past (m := m) t
  refine ⟨h.minded.turn t, hsettled, hnum, hroot.trans h.rooted, hoptions ▸ h.unlogged,
    fun i s hs => ?_, fun w i s worker' hw hworker' => ?_⟩
  · by_cases hi : i < c.host.sessions.length
    · obtain ⟨s₀, hs₀, hb, hl, -⟩ := hpast.sessions i s hs hi
      rw [← hb, ← hl, h.logPath i s₀ hs₀]
    · exact hadded i s hs (Nat.le_of_not_lt hi)
  · by_cases hlt : w < c.host.site.workers.length
    · have hstarter := (hpast.starters w i hw.1).resolve_right fun hge => by omega
      have hknown := h.minded.known i (List.mem_of_getElem? hstarter)
      obtain ⟨s₀, hs₀, hb, -⟩ := hpast.sessions i s hw.2 hknown
      obtain ⟨aged, haged, ha⟩ := hpast.ages w _ (List.getElem?_eq_getElem hlt)
      rw [hworker'] at haged
      cases haged
      have hold := h.hands w i s₀ _ ⟨hstarter, hs₀⟩ (List.getElem?_eq_getElem hlt)
      exact (hhand _ _ (hb ▸ hold)).ages ha
    · exact hnew w i s worker' (Nat.le_of_not_lt hlt) hw hworker'

/-- The turn is one of a session of the backend, or of a worker of one. -/
def Concerns (c : Crew) (b : Backend) : Turn → Prop
  | .start _ _ b' => b' = b
  | .pump i _ _ => ∃ s, c.host.sessions[i]? = some s ∧ s.backend = b ∧ s.pump.isOver = false
  | .worker w => ∃ i s, c.Started w i s ∧ s.backend = b ∧ c.host.site.isAlive w = true
  | _ => False

/-- The log of the backend is found where it was found, as it was. -/
def SameLog (c d : Crew) (root : Path) (b : Backend) : Prop :=
  d.host.disk.find .through (b.logPath root) = c.host.disk.find .through (b.logPath root)

theorem SameLog.of_confines {b b' : Backend} (h : c.Docked root R)
    (hc : Confines Anything c.host.disk d.host.disk R b'.descriptor.installDir) (hb : b' ≠ b) :
    c.SameLog d root b :=
  hc.spares.find_eq h.settled.neat b'.lodger_descriptor.mem b.lodger_descriptor.mem
    (Backend.visible_home _ b.lodger_descriptor.mem)
    (fun he => hb (Backend.installDir_injective he).symm) plain_logFile _

theorem Docked.start (h : c.Docked root R) {env : ProvisionEnv}
    (horder : ∀ l, (env.order l).Perm l) (profile : Profile) (b : Backend) :
    (c.turn m (.start env profile b)).Docked root R ∧
      ∀ b', b' ≠ b → c.SameLog (c.turn m (.start env profile b)) root b' := by
  obtain ⟨hwork, hadds⟩ := works_start m profile b (h.rooted ▸ h.settled)
    h.numbered h.unlogged horder
  obtain ⟨hworkers, hoptions, hroot⟩ := c.host.start_leaves m env profile b
  refine ⟨h.next (hwork.settled h.settled) hwork.issues.toNumbered hroot hoptions
    (fun i s hs hge => ?_) (fun worker b' hh => hh.confines h.settled.wellFormed hwork.issues hwork.confined)
    fun w i s worker hge _ hworker => ?_, fun b' hb => .of_confines h hwork.confined
      fun he => hb he.symm⟩
  · have hboards := hadds.boards hs hge
    rw [hboards.logPath, hboards.backend, h.rooted]
  · change (c.host.start m env profile b).2.site.workers[w]? = some worker at hworker
    rw [hworkers, List.getElem?_eq_none hge] at hworker
    cases hworker

theorem Docked.askStop (h : c.Docked root R) (i : Nat) : (c.turn m (.askStop i)).Docked root R := by
  obtain ⟨hsite, hoptions, hprovisioner⟩ := c.host.askStop_leaves i
  have hdisk : (c.turn m (.askStop i)).host.disk = c.host.disk := congrArg Site.disk hsite
  refine h.next (hdisk ▸ h.settled) (hdisk ▸ h.numbered) (congrArg Provisioner.root hprovisioner)
    hoptions (fun j s hs hge => ?_) (fun worker b hh => hdisk ▸ hh) fun w j s worker hge _ hworker => ?_
  · change (c.host.askStop i).sessions[j]? = some s at hs
    rw [List.getElem?_eq_none (by rw [c.host.length_askStop]; exact hge)] at hs
    cases hs
  · change (c.host.askStop i).site.workers[w]? = some worker at hworker
    rw [hsite, List.getElem?_eq_none hge] at hworker
    cases hworker

/-- What a step of a pump comes to on the disk, and the worker that it may have started. -/
theorem Docked.advance (h : c.Docked root R) (hm : m.IsTame) {i : Nat} {s : Session}
    (hs : c.host.sessions[i]? = some s) (now : Instant) (clock : Clock) :
    Confines Anything c.host.disk (c.host.advance m s now clock).1.disk R
        s.backend.descriptor.installDir ∧
      Issues c.host.disk (c.host.advance m s now clock).1.disk ∧
      ∀ w worker, c.host.site.workers.length ≤ w →
        (c.host.advance m s now clock).1.workers[w]? = some worker →
        worker.Hand (c.host.advance m s now clock).1.disk R s.backend := by
  have hdir := s.backend.lodger_descriptor.mem
  simp only [Host.advance, disk_killIfForced]
  rcases c.host.effect_opens m s with ⟨n, o, hp, hopen, hcases⟩ | ⟨-, hdisk, hlength⟩
  · rw [h.logPath i s hs] at hopen
    obtain ⟨hc, hopened⟩ := h.settled.openFile hdir (Backend.visible_home _ hdir).plain
      Backend.visible_home plain_logFile hopen
    have hissues := (KeepsIds.openFile _).issues h.numbered hopen
    refine ⟨hc, hissues, fun w worker hge hworker => ?_⟩
    simp only [killIfForced, hp] at hworker
    rcases hcases with ⟨-, he⟩ | ⟨new, rfl, -, he, -, hsober⟩ <;> rw [he] at hworker
    · rw [List.getElem?_eq_none hge] at hworker
      cases hworker
    · rw [List.getElem?_append_right hge] at hworker
      obtain rfl : worker = new := by simpa using List.mem_of_getElem? hworker
      obtain ⟨place, file, hid, hb, hfound⟩ := hopened _ rfl
      have hfile := get?_of_find hfound
      have hnum := hissues.toNumbered
      exact ⟨hsober hm, hid ▸ hnum.lt hfile, fun b' hb' => hid ▸ hnum.astray hfile hb
        fun he => hb' (Backend.installDir_injective he)⟩
  · rw [hdisk]
    refine ⟨h.settled.refl, h.numbered.issues, fun w worker hge hworker => ?_⟩
    rw [List.getElem?_eq_none (by rw [length_killIfForced, hlength]; exact hge)] at hworker
    cases hworker

theorem Docked.pump (h : c.Docked root R) (hm : m.IsTame) (i : Nat) (now : Instant) (clock : Clock) :
    (c.turn m (.pump i now clock)).Docked root R ∧
      ∀ b, ¬ c.Concerns b (.pump i now clock) →
        c.SameLog (c.turn m (.pump i now clock)) root b := by
  have hsame : c.host.pumpStep m now clock i = c.host → c.turn m (.pump i now clock) = c := by
    intro he
    simp [turn, Host.turn, he]
  cases hs : c.host.sessions[i]? with
  | none =>
    rw [hsame (by simp [pumpStep, hs])]
    exact ⟨h, fun _ _ => rfl⟩
  | some s =>
    cases hover : s.pump.isOver with
    | true =>
      rw [hsame (by simp [pumpStep, hs, hover])]
      exact ⟨h, fun _ _ => rfl⟩
    | false =>
      obtain ⟨hc, hissues, hnew⟩ := h.advance hm hs now clock
      obtain ⟨channel, he⟩ := pumpStep_eq hs hover m now clock
      have hi := (List.getElem?_eq_some_iff.1 hs).1
      have hdisk : (c.turn m (.pump i now clock)).host.disk = (c.host.advance m s now clock).1.disk :=
        congrArg Host.disk he
      refine ⟨?_, fun b hb => .of_confines h (hdisk ▸ hc) fun hbs => hb ⟨s, hs, hbs, hover⟩⟩
      have hhost : (c.turn m (.pump i now clock)).host = _ := he
      refine h.next (hdisk ▸ h.settled.confines s.backend.lodger_descriptor.mem Backend.visible_home hc)
        (hdisk ▸ hissues.toNumbered) (by rw [hhost]; rfl) (by rw [hhost]; rfl) (fun j u hu hge => ?_)
        (fun worker b hh => hdisk ▸ hh.confines h.settled.wellFormed hissues hc)
        fun w j u worker hge hw hworker => ?_
      · rw [hhost, List.getElem?_eq_none (by rw [length_setSession]; exact hge)] at hu
        cases hu
      · have hpast := h.minded.past (m := m) (.pump i now clock)
        rcases hpast.starters w j hw.1 with hold | ⟨-, _, _, u₀, ht, hu₀, -⟩
        · have hlt := (List.getElem?_eq_some_iff.1 hold).1
          rw [h.minded.counted] at hlt
          omega
        · cases ht
          obtain ⟨u₁, hu₁, hb, -⟩ := hpast.sessions i u hw.2 hi
          rw [hs] at hu₁
          cases hu₁
          rw [hhost] at hworker
          rw [hdisk, ← hb]
          exact hnew w worker hge hworker

theorem Docked.sober (h : c.Docked root R) {w : Nat} {worker : Worker}
    (hw : c.host.site.workers[w]? = some worker) : worker.IsSober := by
  obtain ⟨i, s, hstarted⟩ := h.minded.exists_started (List.getElem?_eq_some_iff.1 hw).1
  exact (h.hands w i s worker hstarted hw).sober

theorem Docked.worker (h : c.Docked root R) (w : Nat) :
    (c.turn m (.worker w)).Docked root R ∧
      ∀ b, ¬ c.Concerns b (.worker w) → c.SameLog (c.turn m (.worker w)) root b := by
  have hlength := c.host.site.length_step w
  have hnext : Provision.Settled (c.host.site.step w).disk root Backend.Home R →
      (c.host.site.step w).disk.Numbered →
      (∀ (worker : Worker) b,
        worker.Hand c.host.disk R b → worker.Hand (c.host.site.step w).disk R b) →
      (c.turn m (.worker w)).Docked root R := by
    intro hsettled hnum hhand
    refine h.next hsettled hnum rfl rfl (fun i s hs hge => ?_) hhand
      fun v i s worker hge _ hworker => ?_
    · change c.host.sessions[i]? = some s at hs
      rw [List.getElem?_eq_none hge] at hs
      cases hs
    · change (c.host.site.step w).workers[v]? = some worker at hworker
      rw [List.getElem?_eq_none (hlength.symm ▸ hge)] at hworker
      cases hworker
  have hdisk : (c.turn m (.worker w)).host.disk = (c.host.site.step w).disk := rfl
  rcases c.host.site.disk_step (w := w) fun worker => h.sober with
    ⟨he, -⟩ | ⟨worker, hworker, hlive, he⟩
  · refine ⟨hnext (he ▸ h.settled) (he ▸ h.numbered) fun worker b hh => he ▸ hh, fun b _ => ?_⟩
    rw [SameLog, hdisk, he]
    rfl
  · have hissues := h.numbered.issues.updateFile worker.log
      (u := fun f => { f with data := f.data ++ c.host.site.output w }) fun _ => rfl
    refine ⟨hnext (he ▸ h.settled.update _ fun _ => rfl) (he ▸ hissues.toNumbered)
      fun worker b hh => he ▸ hh.updateFile _ fun _ => rfl, fun b hb => ?_⟩
    obtain ⟨i, s, hstarted⟩ := h.minded.exists_started (List.getElem?_eq_some_iff.1 hworker).1
    have hne : b ≠ s.backend := fun hbs => hb ⟨i, s, hstarted, hbs.symm,
      Site.isAlive_iff.2 ⟨worker, hworker, hlive⟩⟩
    have hastray := (h.hands w i s worker hstarted hworker).astray b hne
    rw [SameLog, hdisk, he]
    exact h.settled.find_of_astray hastray _

/-- Every turn of the host's own leaves the sessions in their docks, and the logs that it does not
concern as they are. -/
theorem Docked.turn (h : c.Docked root R) (hm : m.IsTame) (ht : t.IsOwn) :
    (c.turn m t).Docked root R ∧ ∀ b, ¬ c.Concerns b t → c.SameLog (c.turn m t) root b := by
  cases t with
  | start env profile b =>
    obtain ⟨hd, hsame⟩ := h.start (m := m) ht profile b
    exact ⟨hd, fun b' hb => hsame b' fun he => hb he.symm⟩
  | askStop i =>
    exact ⟨h.askStop i, fun b _ =>
      congrArg (fun site : Site => site.disk.find .through (b.logPath root)) (c.host.askStop_leaves i).1⟩
  | pump i now clock => exact h.pump hm i now clock
  | worker w => exact h.worker w
  | host _ _ => exact ht.elim
  | disk _ => exact ht.elim

/-- No session was started yet. -/
structure Unused (c : Crew) (root : Path) : Prop where
  minded : c.Minded
  sessions : c.host.sessions = []
  rooted : c.host.provisioner.root = root
  unlogged : c.host.options.logFile = none
  tidy : Tidy c.host.disk root Backend.Home
  numbered : c.host.disk.Numbered

def Moored (c : Crew) (root : Path) : Prop := c.Unused root ∨ ∃ R, c.Docked root R

theorem Unused.workers (h : c.Unused root) : c.host.site.workers = [] := by
  rw [← List.length_eq_zero_iff, ← h.minded.counted, List.length_eq_zero_iff,
    List.eq_nil_iff_forall_not_mem]
  intro i hi
  have hlt := h.minded.known i hi
  rw [h.sessions] at hlt
  cases hlt

theorem Unused.start (h : c.Unused root) {env : ProvisionEnv} (horder : ∀ l, (env.order l).Perm l)
    (profile : Profile) (b : Backend) : (c.turn m (.start env profile b)).Moored root := by
  have hrooted := h.rooted
  subst hrooted
  obtain ⟨htidy, hnum, hcases⟩ := start_tidy m profile b h.tidy h.numbered h.unlogged horder
  obtain ⟨hsame, hoptions, hrooted⟩ := c.host.start_leaves m env profile b
  have hminded := h.minded.turn (m := m) (.start env profile b)
  have hworkers := hsame.trans h.workers
  have hunlogged : (c.host.start m env profile b).2.options.logFile = none := hoptions ▸ h.unlogged
  rcases hcases with hsame | ⟨hadds, R, hsettled⟩
  · exact .inl ⟨hminded, hsame.trans h.sessions, hrooted, hunlogged, htidy, hnum⟩
  · refine .inr ⟨R, hminded, hsettled, hnum, hrooted, hunlogged, fun i s hs => ?_,
      fun w i s worker _ hworker => ?_⟩
    · have hboards := hadds.boards hs (by simp [h.sessions])
      rw [hboards.logPath, hboards.backend]
    · change (c.host.start m env profile b).2.site.workers[w]? = some worker at hworker
      rw [hworkers] at hworker
      cases hworker

theorem Unused.turn (h : c.Unused root) (ht : t.IsOwn) : (c.turn m t).Moored root := by
  have hsame : c.turn m t = c → (c.turn m t).Moored root := fun he => he.symm ▸ .inl h
  cases t with
  | start env profile b => exact h.start ht profile b
  | askStop i => exact hsame (by simp [Crew.turn, Host.turn, Host.askStop, Host.modify, h.sessions])
  | pump i now clock => exact hsame (by simp [Crew.turn, Host.turn, pumpStep, h.sessions])
  | worker w => exact hsame (by simp [Crew.turn, Host.turn, workerStep, Site.step, h.workers])
  | host _ _ => exact ht.elim
  | disk _ => exact ht.elim

theorem Moored.turn (h : c.Moored root) (hm : m.IsTame) (ht : t.IsOwn) :
    (c.turn m t).Moored root := by
  rcases h with h | ⟨R, h⟩
  · exact h.turn ht
  · exact .inr ⟨R, (h.turn hm ht).1⟩

theorem Moored.turns (h : c.Moored root) (hm : m.IsTame) {ts : List Turn}
    (hts : ∀ t ∈ ts, t.IsOwn) : (c.turns m ts).Moored root := by
  induction ts generalizing c with
  | nil => exact h
  | cons t ts ih =>
    rw [List.forall_mem_cons] at hts
    exact ih (h.turn hm hts.1) hts.2

theorem Moored.adds (h : c.Moored root) {env : ProvisionEnv} (horder : ∀ l, (env.order l).Perm l)
    (m : Machine) (profile : Profile) (b : Backend) :
    c.host.Adds (c.host.start m env profile b).2 b := by
  rcases h with h | ⟨R, h⟩
  · have hrooted := h.rooted
    subst hrooted
    rcases (start_tidy m profile b h.tidy h.numbered h.unlogged horder).2.2 with he | ⟨hadds, -⟩
    · exact .inl he
    · exact hadds
  · exact (works_start m profile b (h.rooted ▸ h.settled) h.numbered h.unlogged horder).2

theorem Moored.minded (h : c.Moored root) : c.Minded := by
  rcases h with h | ⟨R, h⟩
  · exact h.minded
  · exact h.minded

theorem Moored.rooted (h : c.Moored root) : c.host.provisioner.root = root := by
  rcases h with h | ⟨R, h⟩
  · exact h.rooted
  · exact h.rooted

/-- In good order a host begins. -/
theorem moored_new {options : SessionOptions} {disk : Disk} (hlog : options.logFile = none)
    (ht : Tidy disk options.installRoot Backend.Home) (hn : disk.Numbered) :
    (Crew.mk (.new options disk) []).Moored options.installRoot :=
  .inl ⟨minded_new options disk, rfl, rfl, hlog, ht, hn⟩

end Crew

end RigWarden
