import RigWarden.Proofs.Session.Moorings

/-!
# The lock file of an install path

A start opens the lock file of its install path after it has provisioned the backend. Where the install
directories lie side by side and no release of the backend holds an entry of that name, none of this
takes the lock file away, and neither does any other turn of a session. So as long as nobody else takes
it away, a start finds the lock of the session that runs there, whoever has started that one.
-/

namespace RigWarden

open Disk Provision

namespace Host

/-- The lock file that a path leads to. -/
def lockFile? (d : Disk) (install : Path) : Option Nat :=
  match d.find .make (Path.join install Session.lockFile) with
  | .ok (.node _ (.file f)) => some f.id
  | _ => none

/-- The root is in good order, and the lock file in the install directory of `b` is not a link. -/
structure Guarded (d : Disk) (root : Path) (b : Backend) : Prop where
  tidy : Tidy d root Backend.Home
  no_link : ∀ m R t, d.LeadsTo Anywhere root m R →
    d.get? (R ++ [b.descriptor.installDir] ++ [Session.lockFile]) ≠ some (.link t)

/-- Good order lasts, and the lock file that was found is found. -/
structure KeepsLock (root : Path) (b : Backend) (d e : Disk) : Prop where
  guarded : Guarded e root b
  found : ∀ lock, lockFile? d (b.descriptor.installPath root) = some lock →
    lockFile? e (b.descriptor.installPath root) = some lock

section locks

variable {d e f : Disk} {root : Path} {b b' : Backend} {R : Place} {m lock : Nat}

theorem lockFile?_eq_some {install : Path} : lockFile? d install = some lock ↔ ∃ place file,
    d.find .make (Path.join install Session.lockFile) = .ok (.node place (.file file)) ∧
      file.id = lock := by
  unfold lockFile?
  split
  · next place file hf => simp [hf]
  · next hno =>
    simp only [reduceCtorEq, false_iff, not_exists, not_and]
    exact fun place file hf => absurd hf (hno place file)

/-- A file that is there is opened as it is. -/
theorem lock_of_lockFile? {install : Path} {l : Nat} (hl : lockFile? d install = some l)
    (ho : openFile (Path.join install Session.lockFile) d = (.ok lock, e)) : lock = l := by
  obtain ⟨place, file, hf, rfl⟩ := lockFile?_eq_some.1 hl
  obtain ⟨fs, ⟨_, hr, -⟩ | ⟨_, _, hf', hr, -⟩ | ⟨_, hf', -, -⟩⟩ := openFile_cases ho
  · cases hr
  · rw [hf] at hf'
    cases hf'
    exact Except.ok.inj hr
  · rw [hf] at hf'
    cases hf'

theorem leads_of_lockFile (h : lockFile? d (b.descriptor.installPath root) = some lock) :
    ∃ m R, d.LeadsTo Anywhere root m R := by
  obtain ⟨place, file, hf, -⟩ := lockFile?_eq_some.1 h
  have hw := walk_of_find hf
  rw [Descriptor.installPath,
    steps_join_join root (Backend.visible_home _ ⟨b, rfl⟩).plain plain_lockFile] at hw
  obtain ⟨m, R, hl, -⟩ := walk_append (by simp) hw
  exact ⟨m, R, hl⟩

theorem Guarded.refl (h : Guarded d root b) : KeepsLock root b d d := ⟨h, fun _ => id⟩

theorem KeepsLock.trans (h : KeepsLock root b d e) (h' : KeepsLock root b e f) :
    KeepsLock root b d f :=
  ⟨h'.guarded, fun lock hd => h'.found lock (h.found lock hd)⟩

/-- The lock file is found where the install directory and the file in it have stayed. -/
theorem Guarded.found (h : Guarded d root b) {A : Place → Prop} {k : Nat}
    (hl : d.LeadsTo Anywhere root m R) (hl' : e.LeadsTo A root k R)
    (hdir : d.get? (R ++ [b.descriptor.installDir]) = some .dir →
      e.get? (R ++ [b.descriptor.installDir]) = some .dir)
    (hfile : ∀ file, d.get? (R ++ [b.descriptor.installDir] ++ [Session.lockFile]) = some (.file file) →
      ∃ file', file'.id = file.id ∧
        e.get? (R ++ [b.descriptor.installDir] ++ [Session.lockFile]) = some (.file file'))
    (hlock : lockFile? d (b.descriptor.installPath root) = some lock) :
    lockFile? e (b.descriptor.installPath root) = some lock := by
  obtain ⟨place, file, hf, rfl⟩ := lockFile?_eq_some.1 hlock
  have hmem := b.lodger_descriptor.mem
  obtain ⟨hget, hfind⟩ := (h.tidy.neat m R hl).find_kept hmem (Backend.visible_home _ hmem).plain
    plain_lockFile (fun t => h.no_link m R t hl) hl' hdir hf
  obtain ⟨file', hid, hget'⟩ := hfile file hget
  exact lockFile?_eq_some.2 ⟨_, file', hfind file' hget', hid⟩

theorem Guarded.written (h : Guarded d root b) (hw : Written d e) : KeepsLock root b d e := by
  refine ⟨⟨h.tidy.alike hw.wellFormed hw.alike, fun m R t hl ht => ?_⟩, fun lock hlock => ?_⟩
  · exact h.no_link m R t (hw.alike.symm.leadsTo hl) ((hw.alike.same _ (.link t) nofun).2 ht)
  · obtain ⟨m, R, hl⟩ := leads_of_lockFile hlock
    exact h.found hl (hw.alike.leadsTo hl) (hw.alike.same _ .dir nofun).1 (hw.kept _) hlock

/-- What is done in an install directory takes no lock away, if it keeps off that name in its own. -/
theorem Guarded.confines (h : Guarded d root b) {N : String → Prop}
    (hl : d.LeadsTo Anywhere root m R) (hc : Confines N d e R b'.descriptor.installDir)
    (hN : b' = b → ¬ N Session.lockFile) : KeepsLock root b d e := by
  have hsettled := h.tidy.settled hl
  have hmem := b'.lodger_descriptor.mem
  obtain ⟨k, -, hway⟩ := hc.spares.way hsettled.neat hmem
  have hentry := hc.spares.get?_entry (s := Session.lockFile)
    (Backend.visible_home _ b.lodger_descriptor.mem) fun he => hN (Backend.installDir_injective he.symm)
  refine ⟨⟨(hsettled.confines hmem Backend.visible_home hc).tidy, fun k' R' t hl' => ?_⟩, fun lock =>
    h.found hl hway (hc.spares.has _ _ (not_below_snoc _)) fun file hfile => ⟨file, rfl, ?_⟩⟩
  · obtain ⟨-, rfl⟩ := hway.unique hl'
    rw [hentry]
    exact h.no_link m _ t hl
  · rw [hentry, hfile]

/-! Starts -/

variable {p p' : Provisioner} {env : ProvisionEnv} {profile : Profile} {h after : Host} {mach : Machine}

/-- No release that is fetched for the backend holds an entry with the name of the lock file. -/
def NoLockIn (env : ProvisionEnv) (b : Backend) : Prop :=
  ∀ artifact, b.descriptor.artifact = some artifact → FetchesNamed env artifact (· ≠ Session.lockFile)

theorem Guarded.provision (hg : Guarded d p.root b) (horder : ∀ l, (env.order l).Perm l)
    (hN : b' = b → NoLockIn env b) {r : Except Halt Path}
    (hrun : p.provision env b'.descriptor d = (r, p', e)) : KeepsLock p.root b d e := by
  obtain ⟨N, hfetch, hlock⟩ : ∃ N : String → Prop,
      (∀ artifact, b'.descriptor.artifact = some artifact → FetchesNamed env artifact N) ∧
        (b' = b → ¬ N Session.lockFile) := by
    by_cases hb : b' = b
    · subst hb
      exact ⟨(· ≠ Session.lockFile), hN rfl, fun _ hno => hno rfl⟩
    · exact ⟨Path.Plain, fun artifact _ => fetchesNamed_plain env artifact, fun he => absurd he hb⟩
  by_cases hleads : ∃ m R, d.LeadsTo Anywhere p.root m R
  · obtain ⟨m, R, hl⟩ := hleads
    exact hg.confines hl ((hg.tidy.settled hl).provision Backend.visible_home b'.lodger_descriptor horder
      hfetch hrun) hlock
  · refine ⟨⟨(hg.tidy.provision Backend.visible_home b'.lodger_descriptor horder hrun).1.tidy,
      fun k R t hR ht => ?_⟩, fun lock hl => absurd (leads_of_lockFile hl) hleads⟩
    cases hg.tidy.dir_of_provision Backend.visible_home b'.lodger_descriptor horder hfetch hleads hrun hR
      (Backend.visible_home _ b.lodger_descriptor.mem)
      (fun he => hlock (Backend.installDir_injective he.symm)) ht

theorem configFile_ne_lockFile (b : Backend) : b.descriptor.configFile ≠ Session.lockFile := by
  cases b <;> decide

theorem temporary_ne_lockFile (k : Nat) : ".config-" ++ Number.decimal k ++ "" ≠ Session.lockFile := by
  intro he
  have hsecond := congrArg (fun s : String => s.toList[1]?) he
  simp [String.toList_append, Session.lockFile] at hsecond

theorem Guarded.writeConfig (hg : Guarded d root b) (hl : d.LeadsTo Anywhere root m R)
    {processors : Nat} {r : Except Error RenderedConfig}
    (hw : b'.writeConfig processors profile (b'.descriptor.installPath root) d = (r, e)) :
    KeepsLock root b d e :=
  hg.confines hl ((hg.tidy.settled hl).writeConfig (N := (· ≠ Session.lockFile))
    (configFile_ne_lockFile b') temporary_ne_lockFile hw) fun _ hno => hno rfl

theorem Guarded.emptyLog (hg : Guarded d root b) {options : SessionOptions} {log : Path}
    {r : Except Error Unit} (he : Host.emptyLog options log d = (r, e)) : KeepsLock root b d e := by
  rcases emptyLog_cases he with ⟨-, rfl⟩ | ⟨_, hempty, -⟩
  · exact hg.refl
  · exact hg.written (written_emptyFile hg.tidy.wellFormed hempty)

/-- What was opened as a lock file is found as one. -/
theorem lockFile_of_openFile {install : Path}
    (ho : openFile (Path.join install Session.lockFile) d = (.ok lock, e)) :
    lockFile? e install = some lock := by
  obtain ⟨fs, ⟨_, hr, -⟩ | ⟨place, file, hf, hr, rfl⟩ | ⟨place, hf, hr, rfl⟩⟩ := openFile_cases ho
  · cases hr
  · cases hr
    exact lockFile?_eq_some.2 ⟨place, file, (find_withFaults ..).trans hf, rfl⟩
  · cases hr
    exact lockFile?_eq_some.2 ⟨place, _, find_created (d := { d with faults := fs })
      ((find_withFaults ..).trans hf) _, rfl⟩

/-- Whatever comes of preparing an install path, no lock file is lost, and a session that comes of it
has the lock of the one that is there. -/
theorem keepsLock_configures {r : Except Error Session}
    (hc : h.Configures mach profile b' (b'.descriptor.installPath root) r e)
    (hg : Guarded h.disk root b) (hl : h.disk.LeadsTo Anywhere root m R) :
    KeepsLock root b h.disk e ∧
      ∀ s, r = .ok s → b' = b → lockFile? e (b.descriptor.installPath root) = some s.lock := by
  have hopens : ∀ {o d}, openFile (Path.join (b'.descriptor.installPath root) Session.lockFile)
      h.disk = (o, d) → KeepsLock root b h.disk d ∧ d.LeadsTo Anywhere root m R := fun ho => by
    have hw := written_openFile hg.tidy.wellFormed ho
    exact ⟨hg.written hw, hw.alike.leadsTo hl⟩
  cases hc with
  | unopened cause opened result =>
    subst result
    exact ⟨(hopens opened).1, fun s hs => by cases hs⟩
  | busy lock opened held result =>
    subst result
    exact ⟨(hopens opened).1, fun s hs => by cases hs⟩
  | unwritten lock d _ opened free written result =>
    subst result
    obtain ⟨hopen, hl'⟩ := hopens opened
    exact ⟨hopen.trans (hopen.guarded.writeConfig hl' written), fun s hs => by cases hs⟩
  | emptied lock d d' config t opened free written emptied result =>
    obtain ⟨hopen, hl'⟩ := hopens opened
    have hwrite := hopen.guarded.writeConfig hl' written
    have hempty := hwrite.trans (hwrite.guarded.emptyLog emptied)
    refine ⟨hopen.trans hempty, ?_⟩
    rintro s hs rfl
    rw [result] at hs
    cases t <;> cases hs
    exact hempty.found lock (lockFile_of_openFile opened)

/-- A start takes no lock file away, and its session has the lock of the file that is there. -/
theorem Guarded.start (hg : Guarded h.disk h.provisioner.root b) (horder : ∀ l, (env.order l).Perm l)
    (hN : b' = b → NoLockIn env b) (mach : Machine) (profile : Profile) :
    KeepsLock h.provisioner.root b h.disk (h.start mach env profile b').2.disk ∧
      ∀ s, (h.start mach env profile b').2.sessions[h.sessions.length]? = some s → b' = b →
        lockFile? (h.start mach env profile b').2.disk (b.descriptor.installPath h.provisioner.root) =
          some s.lock := by
  have hnone : ∀ s, h.sessions[h.sessions.length]? = some s → False := fun s hs => by simp at hs
  rcases h.start_steps mach env profile b' with he | ⟨r, p, d, hp, hend⟩
  · rw [he]
    exact ⟨hg.refl, fun s hs => (hnone s hs).elim⟩
  have hprov := hg.provision horder hN hp
  rcases hend with he | ⟨rfl, r', e, hconf, he⟩
  · rw [he]
    exact ⟨hprov, fun s hs => (hnone s hs).elim⟩
  · rw [he]
    obtain ⟨k, R, hl⟩ := hg.tidy.leads_of_provision Backend.visible_home b'.lodger_descriptor horder
      b'.executable_of_artifact hp
    obtain ⟨hkeeps, hlock⟩ := keepsLock_configures hconf hprov.guarded hl
    refine ⟨hprov.trans hkeeps, fun s hs => hlock s ?_⟩
    rw [List.getElem?_append_right (Nat.le_refl _), Nat.sub_self] at hs
    cases r' with
    | error _ => cases hs
    | ok s' => exact congrArg _ (Option.some.inj hs)

end locks

/-! Turns -/

/-- The file that a worker is about to remove. -/
def removal? (site : Site) (w : Nat) : Option Path :=
  match (site.workers[w]?).bind (·.behaviour.acts.head?) with
  | some (.remove p) => some p
  | _ => none

/-- In the turn nobody takes the lock file of `b` away: a start lists directories in some order and no
release of `b` holds one, other hosts have the same root, and neither workers nor others remove it. -/
def Turn.SparesLock (root : Path) (b : Backend) (h : Host) : Turn → Prop
  | .start env _ b' => (∀ l, (env.order l).Perm l) ∧ (b' = b → NoLockIn env b)
  | .host _ provisioner => provisioner.root = root
  | .disk d => KeepsLock root b h.disk d
  | .worker w => ∀ p, removal? h.site w = some p → KeepsLock root b h.disk (removeFile p h.disk).2
  | .askStop _ | .pump _ _ _ => True

section turns

variable {h : Host} {m : Machine} {t : Turn} {root : Path} {b : Backend}

theorem Guarded.pump (hg : Guarded h.disk root b) (m : Machine) (now : Instant) (clock : Clock)
    (i : Nat) : KeepsLock root b h.disk (h.pumpStep m now clock i).disk := by
  cases hs : h.sessions[i]? with
  | none =>
    rw [pumpStep, hs]
    exact hg.refl
  | some s =>
    cases hover : s.pump.isOver with
    | true =>
      simp only [pumpStep, hs, hover, if_true]
      exact hg.refl
    | false =>
      obtain ⟨channel, he⟩ := pumpStep_eq hs hover m now clock
      have hdisk : (h.pumpStep m now clock i).disk = (h.effect m s).2.disk := by
        rw [he]
        exact disk_killIfForced _ _ _ _
      rw [hdisk]
      rcases h.effect_opens m s with ⟨_, _, -, hopen, -⟩ | ⟨-, hsame, -⟩
      · exact hg.written (written_openFile hg.tidy.wellFormed hopen)
      · rw [hsame]
        exact hg.refl

theorem Guarded.worker (hg : Guarded h.disk root b) {w : Nat}
    (hr : ∀ p, removal? h.site w = some p → KeepsLock root b h.disk (removeFile p h.disk).2) :
    KeepsLock root b h.disk (h.workerStep w).disk := by
  unfold removal? at hr
  change KeepsLock root b h.disk (h.site.step w).disk
  unfold Site.step
  cases hw : h.site.workers[w]? with
  | none => exact hg.refl
  | some worker =>
    simp only
    cases hacts : worker.behaviour.acts with
    | nil => exact hg.refl
    | cons act acts =>
      cases act with
      | write bytes =>
        exact hg.written (written_updateFile (u := fun f => { f with data := f.data ++ bytes })
          hg.tidy.wellFormed worker.log fun _ => rfl)
      | remove p => exact hr p (by simp [hw, hacts])
      | pause _ => exact hg.refl
      | exit _ => exact hg.refl

/-- A turn that spares the lock file leaves it where it is found. -/
theorem Guarded.turn (hg : Guarded h.disk root b) (hroot : h.provisioner.root = root)
    (ht : t.SparesLock root b h) : KeepsLock root b h.disk (h.turn m t).disk := by
  cases t with
  | start env profile b' =>
    subst hroot
    exact (hg.start ht.1 ht.2 m profile).1
  | askStop i =>
    have hdisk : (h.askStop i).disk = h.disk := congrArg Site.disk (h.askStop_leaves i).1
    change KeepsLock root b h.disk (h.askStop i).disk
    rw [hdisk]
    exact hg.refl
  | pump i now clock => exact hg.pump m now clock i
  | worker w => exact hg.worker ht
  | host _ _ => exact hg.refl
  | disk d => exact ht

end turns

/-- Each session that runs in the install path of `b` has the lock of the file that is found there, and
there is one at most. -/
structure Tenured (h : Host) (root : Path) (b : Backend) : Prop where
  rooted : h.provisioner.root = root
  guarded : Guarded h.disk root b
  locks : ∀ s ∈ h.sessions, s.installPath = b.descriptor.installPath root → s.holdsLock = true →
    lockFile? h.disk (b.descriptor.installPath root) = some s.lock
  sole : h.Sole (b.descriptor.installPath root)

section tenured

variable {h : Host} {m : Machine} {t : Turn} {root : Path} {b b' : Backend}

theorem installPath_injective (he : b.descriptor.installPath root = b'.descriptor.installPath root) :
    b = b' := by
  have hsteps := congrArg Path.steps he
  rw [Descriptor.installPath, Descriptor.installPath,
    Path.steps_join_plain _ (Backend.visible_home _ ⟨b, rfl⟩).plain,
    Path.steps_join_plain _ (Backend.visible_home _ ⟨b', rfl⟩).plain] at hsteps
  exact Backend.installDir_injective (by simpa using hsteps)

/-- A start that gets to open the lock file in the install path of `b` is one of `b`, and opens the
lock file that was found before it. -/
theorem Tenured.lock_of_opens (ht : h.Tenured root b) {env : ProvisionEnv} {profile : Profile}
    (horder : ∀ l, (env.order l).Perm l) (hN : b' = b → NoLockIn env b) {d d' : Disk} {lock l : Nat}
    (ho : h.Opens env profile b' (b.descriptor.installPath root) d lock d')
    (hl : lockFile? h.disk (b.descriptor.installPath root) = some l) : lock = l := by
  obtain ⟨p, hp⟩ := ho.provisioned
  have hrooted := ht.rooted
  subst hrooted
  exact lock_of_lockFile? ((ht.guarded.provision horder hN hp).found l hl) ho.opened

theorem Tenured.turn (ht : h.Tenured root b) (hspares : t.SparesLock root b h) :
    (h.turn m t).Tenured root b := by
  have hkeeps := ht.guarded.turn ht.rooted hspares (m := m)
  refine ⟨?_, hkeeps.guarded, fun s hs hpath hheld => ?_, ?_⟩
  · cases t with
    | start env profile b' => exact (h.start_leaves m env profile b').2.2.trans ht.rooted
    | askStop i => exact (congrArg Provisioner.root (h.askStop_leaves i).2.2).trans ht.rooted
    | pump i now clock =>
      exact (congrArg Provisioner.root (h.pumpStep_leaves m now clock i).2).trans ht.rooted
    | worker w => exact ht.rooted
    | host _ _ => exact hspares
    | disk d => exact ht.rooted
  · obtain ⟨i, hi⟩ := List.mem_iff_getElem?.1 hs
    rcases session_turn hi with
      ⟨s₀, hs₀, hlock, hpath₀, hheld₀⟩ | ⟨rfl, env, profile, b', d, d', rfl, ho, -⟩
    · rw [← hlock]
      exact hkeeps.found _
        (ht.locks s₀ (List.mem_of_getElem? hs₀) (hpath₀.trans hpath) (hheld₀ hheld))
    · obtain ⟨p, hp⟩ := ho.provisioned
      have hsame : b'.descriptor.installPath root = b.descriptor.installPath root := by
        rw [← hpath, Provisioner.provision_ok hp, Provisioner.installPath, ht.rooted]
      have hrooted := ht.rooted
      subst hrooted
      exact (ht.guarded.start hspares.1 hspares.2 m profile).2 s hi (installPath_injective hsame)
  · apply ht.sole.turn
    rintro env profile b' d lock d' rfl hopens hfree u hu hheld hpath
    have hlock := ht.lock_of_opens hspares.1 hspares.2 hopens (ht.locks u hu hpath hheld)
    exact not_holds_of_free hfree hu hheld hlock.symm

end tenured

end Host

namespace Crew

open Host

variable {c : Crew} {m : Machine} {root : Path} {b : Backend}

/-- In no turn of the run anybody takes the lock file of `b` away. -/
def SparesLock (m : Machine) (root : Path) (b : Backend) (c : Crew) : List Turn → Prop
  | [] => True
  | t :: ts => t.SparesLock root b c.host ∧ (c.turn m t).SparesLock m root b ts

theorem tenured_turns (h : c.host.Tenured root b) {ts : List Turn} (hts : c.SparesLock m root b ts) :
    (c.turns m ts).host.Tenured root b := by
  induction ts generalizing c with
  | nil => exact h
  | cons t ts ih =>
    refine ih ?_ hts.2
    rw [host_turn]
    exact h.turn hts.1

theorem tenured_new {options : SessionOptions} {disk : Disk} (hg : Guarded disk options.installRoot b) :
    (Host.new options disk).Tenured options.installRoot b :=
  ⟨rfl, hg, fun s hs => absurd hs List.not_mem_nil, fun i j s u hs => absurd hs (by simp [Host.new])⟩

/-- Whatever the grace period and the workers are and in whatever order sessions are started and
stopped: when the stop of a session has returned, its worker has ended, or it is a thread of the
simulator that goes on. And where the install directories lie side by side and nobody takes the lock
file of a backend away, one worker at most is alive in its install path, apart from such threads, as
long as no pump there is lost. -/
theorem one_alive_in_path (m : Machine) (options : SessionOptions) (disk : Disk) (ts : List Turn) :
    let c := (Crew.mk (.new options disk) []).turns m ts
    (∀ w i s, c.Started w i s → s.pump.stopIsOver = true →
      c.host.site.isAlive w = false ∨ c.Outlives w) ∧
    ∀ b : Backend, Guarded disk options.installRoot b →
      (Crew.mk (.new options disk) []).SparesLock m options.installRoot b ts →
      (∀ s ∈ c.host.sessions, s.installPath = b.descriptor.installPath options.installRoot →
        s.pump.phase ≠ .lost) →
      c.Exclusive (b.descriptor.installPath options.installRoot) := by
  have hminded := (minded_new options disk).turns ts (m := m)
  exact ⟨fun _ _ _ hstarted hover => hminded.ended hstarted hover,
    fun b hg hspares hlost => hminded.exclusive hlost (tenured_turns (tenured_new hg) hspares).sole⟩

theorem sparesLock_of_forall {ts : List Turn} (h : ∀ t ∈ ts, ∀ host : Host, t.SparesLock root b host)
    (c : Crew) : c.SparesLock m root b ts := by
  induction ts generalizing c with
  | nil => trivial
  | cons t ts ih =>
    exact ⟨h t List.mem_cons_self _, ih (fun t' ht' => h t' (List.mem_cons_of_mem t ht')) _⟩

/-- The workers that are alive in `p`. -/
def aliveIn (c : Crew) (p : Path) : List Nat :=
  (List.range c.starters.length).filter fun w => c.host.site.isAlive w &&
    ((c.starters[w]?).bind (c.host.sessions[·]?)).any (·.installPath = p)

theorem mem_aliveIn {p : Path} {w : Nat} : w ∈ c.aliveIn p ↔ c.LivesIn p w := by
  simp only [aliveIn, List.mem_filter, List.mem_range, Bool.and_eq_true, Option.any_eq_true,
    Option.bind_eq_some_iff, decide_eq_true_eq, LivesIn, Started]
  constructor
  · rintro ⟨-, hlive, s, ⟨i, hi, hs⟩, hp⟩
    exact ⟨hlive, i, s, ⟨hi, hs⟩, hp⟩
  · rintro ⟨hlive, i, s, ⟨hi, hs⟩, hp⟩
    exact ⟨(List.getElem?_eq_some_iff.1 hi).1, hlive, s, ⟨i, hi, hs⟩, hp⟩

def startSimulated : Turn := .start (delivering []) (.sample "randomx") .simulated

/-- A start is refused beside the session that runs, that one is stopped, and another one starts. -/
def overlapping : List Turn :=
  [startSimulated] ++ List.replicate 3 (look 0) ++ [startSimulated, .askStop 0] ++
    List.replicate 6 (look 0) ++ [startSimulated, look 1]

/-- With no grace period, what becomes of an empty disk. -/
def hastily (ts : List Turn) : Crew :=
  (Crew.mk (.new { installRoot := "/r", gracePeriod := .zero } {}) []).turns slowMachine ts

/-- The second start is refused. The third finds that the first session is over, and both simulators
are alive. -/
theorem overlapped_facts :
    ((hastily (overlapping.take 4)).host.start slowMachine (delivering []) (.sample "randomx")
        .simulated).1 = .error (.error (.sessionBusy "/r/simulated")) ∧
      (hastily overlapping).host.sessions.map (fun s => (s.installPath, s.pump.phase)) =
        [("/r/simulated", .done), ("/r/simulated", .draining)] ∧
      (hastily overlapping).starters = [0, 1] ∧
      (hastily overlapping).aliveIn "/r/simulated" = [0, 1] := by
  decide +kernel

theorem guarded_nothing (b : Backend) : Guarded {} "/r" b :=
  ⟨tidy_nothing _, fun _ _ _ hl => absurd hl not_leadsTo_nothing⟩

theorem sparesLock_overlapping : ∀ t ∈ overlapping, ∀ host : Host,
    t.SparesLock "/r" .simulated host := by
  intro t ht host
  have hcases : t = startSimulated ∨ t = .askStop 0 ∨ ∃ i, t = look i := by
    simp only [overlapping, List.mem_append, List.mem_replicate, List.mem_cons, List.not_mem_nil,
      or_false] at ht
    aesop
  rcases hcases with rfl | rfl | ⟨i, rfl⟩
  · refine ⟨fun l => .refl l, fun _ artifact hartifact => ?_⟩
    cases hartifact
  · trivial
  · trivial

/-- A start is refused beside a running session, and the simulator of that session outlives its stop
beside the worker of the next one. -/
theorem one_alive_in_path_overlapping :
    ((hastily (overlapping.take 4)).host.start slowMachine (delivering []) (.sample "randomx")
        .simulated).1 = .error (.error (.sessionBusy "/r/simulated")) ∧
      (hastily overlapping).aliveIn "/r/simulated" = [0, 1] ∧ (hastily overlapping).Outlives 0 ∧
      (hastily overlapping).Exclusive "/r/simulated" := by
  obtain ⟨hbusy, hsessions, hstarters, halive⟩ := overlapped_facts
  obtain ⟨hended, hexclusive⟩ := one_alive_in_path slowMachine
    { installRoot := "/r", gracePeriod := .zero } {} overlapping
  refine ⟨hbusy, halive, ?_, ?_⟩
  · obtain ⟨hlive, i, s, ⟨hi, hs⟩, -⟩ := mem_aliveIn.1 (halive ▸ List.mem_cons_self : 0 ∈ _)
    obtain rfl : 0 = i := by simpa [hstarters] using hi
    have hfirst := congrArg (·[0]?) hsessions
    simp only [List.getElem?_map, hs, Option.map_some, List.getElem?_cons_zero, Option.some.injEq,
      Prod.mk.injEq] at hfirst
    have hdead : (hastily overlapping).host.site.isAlive 0 = false ∨
        (hastily overlapping).Outlives 0 :=
      hended 0 0 s ⟨hi, hs⟩ (by simp [Pump.stopIsOver, hfirst.2])
    simpa [hlive] using hdead
  · apply hexclusive .simulated (guarded_nothing _) (sparesLock_of_forall sparesLock_overlapping _)
    intro s hs _ hlost
    have hmem := List.mem_map_of_mem (f := fun s : Session => (s.installPath, s.pump.phase)) hs
    rw [hastily] at hsessions
    rw [hsessions, hlost] at hmem
    simp at hmem

/-- Two workers that belong to `p` are alive. -/
def Crowded (c : Crew) (p : Path) : Prop := ∃ v w, v ≠ w ∧ c.LivesIn p v ∧ c.LivesIn p w

theorem crowded_of_aliveIn {p : Path} (h : c.aliveIn p = [0, 1]) : c.Crowded p :=
  ⟨0, 1, by decide, mem_aliveIn.1 (by simp [h]), mem_aliveIn.1 (by simp [h])⟩

/-- With the default grace period, what becomes of a disk. -/
def patiently (m : Machine) (disk : Disk) (ts : List Turn) : Crew :=
  (Crew.mk (.new { installRoot := "/r" } disk) []).turns m ts

/-- Somebody removes the lock file beside the running session. -/
def removedLock : Crew :=
  patiently slowMachine {} [startSimulated, look 0, .disk { nextId := 9 }, startSimulated, look 1]

theorem crowded_removedLock : removedLock.Crowded "/r/simulated" := by
  apply crowded_of_aliveIn
  decide +kernel

/-- The lock file is a link to the configuration file, which each start replaces. -/
def linkedLock : Crew :=
  patiently slowMachine
    { nodes := [(["r"], .dir), (["r", "simulated"], .dir),
        (["r", "simulated", Session.lockFile], .link Backend.simulated.descriptor.configFile)] }
    [startSimulated, look 0, startSimulated, look 1]

theorem crowded_linkedLock : linkedLock.Crowded "/r/simulated" := by
  apply crowded_of_aliveIn
  decide +kernel

/-- A release with an entry that has the name of the lock file. -/
def locking : ProvisionEnv :=
  delivering [packed "v/SRBMiner-MULTI" .file "", packed ("v/" ++ Session.lockFile) .file ""]

/-- The program removes its own file, and the release is fetched again beside the running session. -/
def fetchedLock : Crew :=
  let start := Turn.start locking (.sample "randomx") .srbMiner
  patiently ⟨1, fun program _ _ => .ok ⟨[.remove program], none⟩, fun _ _ => ⟨[], none⟩⟩ {}
    [start, look 0, .worker 0, start, look 1]

theorem crowded_fetchedLock : fetchedLock.Crowded "/r/srbminer" := by
  apply crowded_of_aliveIn
  decide +kernel

/-- The install directory of a backend that is fetched beside the running session is a link to that of
the session. -/
def linkedDir : Crew :=
  patiently slowMachine
    { nodes := [(["r"], .dir), (["r", "simulated"], .dir), (["r", "srbminer"], .link "simulated")] }
    [startSimulated, look 0,
      .start { locking with cancelledAfter := true } (.sample "randomx") .srbMiner, startSimulated, look 1]

theorem crowded_linkedDir : linkedDir.Crowded "/r/simulated" := by
  apply crowded_of_aliveIn
  decide +kernel

/-- Two workers are alive in one install path after a stop with no grace period, and also where the
lock file is removed, is a link or comes with a release of the backend, and where another backend has
the same directory. -/
theorem not_always_one_alive :
    (hastily overlapping).Crowded "/r/simulated" ∧ removedLock.Crowded "/r/simulated" ∧
      linkedLock.Crowded "/r/simulated" ∧ fetchedLock.Crowded "/r/srbminer" ∧
      linkedDir.Crowded "/r/simulated" :=
  ⟨crowded_of_aliveIn overlapped_facts.2.2.2, crowded_removedLock, crowded_linkedLock,
    crowded_fetchedLock, crowded_linkedDir⟩

end Crew

end RigWarden
