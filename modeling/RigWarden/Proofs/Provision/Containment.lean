import RigWarden.Proofs.Provision.Executable
import RigWarden.Provision.Provisioner

/-!
# Provisioning stays in the install root

Whatever is fetched and whatever fails on the way, nothing outside the install root changes, but that
the directories on the way to the root are made. The temporary files are removed where they were
made, since the root leads to the same place all the time.
-/

namespace RigWarden.Provision

open Disk

/-- Outside `R` the disk is as before, and the root leads nowhere but to `R`. -/
structure Near (base : Disk) (root : Path) (R : Place) (d : Disk) : Prop where
  outside : ∀ q, isWithin R q = false → d.get? q = base.get? q
  root_leads : ∀ m there, d.LeadsTo Anywhere root m there → there = R

section near

variable {base d e : Disk} {root p : Path} {R place : Place} {s : String}

theorem near_of_leads {A : Place → Prop} {k : Nat}
    (hout : ∀ q, isWithin R q = false → d.get? q = base.get? q) (hl : d.LeadsTo A root k R) :
    Near base root R d := ⟨hout, fun _ _ h => (hl.unique h).2⟩

theorem Near.part (h : Near base root R d) (hp : Part e d)
    (hout : ∀ q, isWithin R q = false → e.get? q = d.get? q) : Near base root R e :=
  ⟨fun q hq => (hout q hq).trans (h.outside q hq), fun _ _ hl => h.root_leads _ _ (hp.leadsTo hl)⟩

theorem Near.alike (h : Near base root R d) (ha : Alike d e)
    (hout : ∀ q, isWithin R q = false → e.get? q = d.get? q) : Near base root R e :=
  ⟨fun q hq => (hout q hq).trans (h.outside q hq),
    fun _ _ hl => h.root_leads _ _ (ha.symm.leadsTo hl)⟩

theorem Near.withFaults (h : Near base root R d) (fs : List (Option SystemError)) :
    Near base root R { d with faults := fs } := h.alike (alike_withFaults d fs) fun _ _ => rfl

theorem Near.trans (h : Near base root R d) (h' : Near d root R e) : Near base root R e :=
  ⟨fun q hq => (h'.outside q hq).trans (h.outside q hq), h'.root_leads⟩

theorem Near.erase (h : Near base root R d) (hp : isWithin R place = true)
    (fs : List (Option SystemError)) : Near base root R { d.erase place with faults := fs } :=
  h.part (part_erase d place fs) fun q hq => by
    change (d.erase place).get? q = d.get? q
    rw [get?_erase, if_neg fun hw => Bool.eq_false_iff.1 (not_isWithin_of_isWithin hp hq) hw.2]

theorem Near.without_cases (h : Near base root R d)
    (hp : Path.steps p = Path.steps root ++ [.name s]) :
    d.without p = d ∨ d.without p = d.erase (R ++ [s]) := by
  unfold Disk.without
  split
  · next place n hf =>
    obtain ⟨m, dir, hl, -, he⟩ := find_entry_cases hp hf
    obtain rfl := h.root_leads m dir hl
    split at he <;> cases he
    exact .inr rfl
  · exact .inl rfl

/-- What is removed from the root lies in it. -/
theorem Near.without (h : Near base root R d) (hp : Path.steps p = Path.steps root ++ [.name s]) :
    Near base root R (d.without p) := by
  rcases h.without_cases hp with he | he <;> rw [he]
  · exact h
  · exact h.erase (isWithin_append R [s]) d.faults

theorem Near.get?_without (h : Near base root R d)
    (hp : Path.steps p = Path.steps root ++ [.name s]) {q : Place}
    (hq : isWithin (R ++ [s]) q = false) : (d.without p).get? q = d.get? q := by
  rcases h.without_cases hp with he | he <;> rw [he]
  rw [get?_erase, if_neg fun hw => Bool.eq_false_iff.1 hq hw.2]

end near

section setting

variable {d base e u after : Disk} {root staging install : Path} {R I : Place} {stg ins : String}
  {m : Nat}

theorem Setting.near_staged (h : Setting d base root staging install R stg ins)
    (hst : Archive.Staged base (R ++ [stg]) e) : Near d root R e := by
  obtain ⟨k, -, hroot⟩ := h.enclosed.root_leads
  refine near_of_leads (fun q hq => h.outside hst ?_) ((h.part hst).leadsTo hroot)
  exact not_isWithin_of_isWithin (isWithin_append R _) hq

theorem Setting.near_grown (h : Setting d base root staging install R stg ins)
    (hst : Archive.Staged base (R ++ [stg]) e) (hgrown : Grown e (· = R ++ [ins]) u) :
    Near d root R u := by
  obtain ⟨k, -, hroot⟩ := h.enclosed.root_leads
  refine near_of_leads (fun q hq => ?_) (((h.part hst).trans hgrown.part).leadsTo hroot)
  rw [← (h.near_staged hst).outside q hq]
  refine (hgrown.same q).resolve_right fun ⟨he, _⟩ => Bool.eq_false_iff.1 hq ?_
  rw [he]
  exact isWithin_append R _

theorem Moving.near {names : List String} (hmoving : Moving u install (R ++ [stg]) I m names e)
    (hscene : Scene u root staging install R I stg m) (hI : isWithin R I = true) :
    Near u root R e := by
  obtain ⟨k, hroot⟩ := hmoving.root_leads hscene
  refine near_of_leads (A := Spared (R ++ [stg]) I names) (k := k) (fun q hq => ?_) ?_
  · refine hmoving.kept q (fun hb => ?_) fun x _ => ?_
    · exact Bool.eq_false_iff.1 (not_isWithin_of_isWithin (isWithin_append R _) hq) hb.1
    · exact not_isWithin_of_isWithin (isWithin_trans hI (isWithin_append I _)) hq
  · rw [LeadsTo, hmoving.start]
    exact hmoving.toMoved.spared_leads hroot

theorem near_moveEntries (h : Near d root R u)
    (hscene : Scene u root staging install R I stg m) (hI : isWithin R I = true)
    {names : List String} (hplain : ∀ x ∈ names, Path.Plain x) (hnodup : names.Nodup)
    {r : Except Error Unit} (hmoves : moveEntries staging install names u = (r, after)) :
    Near d root R after := by
  rcases hscene.moving.run hscene hplain (by simpa using hnodup) hmoves with
    ⟨-, hmoving⟩ | ⟨_, before, x, _, mid, fs, -, -, hmoving, -, hafter⟩
  · exact h.trans (hmoving.near hscene hI)
  · have hmid := h.trans (hmoving.near hscene hI)
    rcases hafter with rfl | rfl
    · exact hmid.withFaults fs
    · exact hmid.erase (isWithin_trans hI (isWithin_append I _)) fs

theorem Setting.near_moveIntoPlace (h : Setting d base root staging install R stg ins)
    (hst : Archive.Staged base (R ++ [stg]) e) {order : List String → List String}
    (horder : ∀ l, (order l).Perm l) {r : Except Error Unit}
    (hm : moveIntoPlace order staging install e = (r, after)) : Near d root R after := by
  rcases h.moveIntoPlace_cases hst horder hm with
    ⟨_, -, hgrown, -⟩ | ⟨u, I, m, names, hgrown, hscene, hI, hnodup, hplain, -, -, hmoves⟩
  · exact h.near_grown hst hgrown
  · exact near_moveEntries (h.near_grown hst hgrown) hscene hI hplain hnodup hmoves

/-- The mode is changed of a file that was not there before. -/
theorem Setting.near_makeExecutable (h : Setting d base root staging install R stg ins)
    (hst : Archive.Staged base (R ++ [stg]) e) {order : List String → List String}
    (horder : ∀ l, (order l).Perm l) {name : String} (hname : Path.Plain name)
    (hfile : e.isFile (Path.join staging name) = true)
    (hm : moveIntoPlace order staging install e = (.ok (), u)) {r : Except Error Unit}
    (hx : makeExecutable (Path.join install name) u = (r, after)) : Near d root R after := by
  have hnear := h.near_moveIntoPlace hst horder hm
  obtain ⟨fs, rfl | ⟨place, f, hfind, rfl⟩⟩ := makeExecutable_cases hx
  · exact hnear.withFaults fs
  have hid : base.nextId ≤ f.id := by
    rcases h.moveIntoPlace_cases hst horder hm with
      ⟨_, hr, -⟩ | ⟨v, I, m, names, hgrown, hscene, -, hnodup, hplain, hall, -, hmoves⟩
    · cases hr
    · rcases hscene.moving.run hscene hplain (by simpa using hnodup) hmoves with
        ⟨-, hmoving⟩ | ⟨_, _, _, _, _, _, hr, -⟩
      · obtain ⟨_, hf, hid⟩ := h.prepared.executable_new hst hname hfile hgrown hscene
          (fun x hx => (hall x).2 hx) hmoving hfind
        cases hf
        exact hid
      · cases hr
  refine (hnear.withFaults fs).alike (alike_updateFile _ _ _) fun q hq => ?_
  rw [h.site.2.2.1] at hid
  rw [get?_updateFile, (hnear.withFaults fs).outside q hq, h.wellFormed.map_updated hid]

/-- Whatever is installed, only the root changes. -/
theorem Setting.near_installStaged (h : Setting d base root staging install R stg ins)
    {order : List String → List String} (horder : ∀ l, (order l).Perm l) {desc : Descriptor}
    (hname : ∀ name, desc.executable = some name → Path.Plain name)
    (goOn : Nat → Except Error Unit) (strip : Nat) (items : List Archive.Item)
    {r : Except Error Unit}
    (hi : installStaged goOn order desc strip install staging items base = (r, after)) :
    Near d root R after := by
  have hsite := h.site.2.1
  have hunpack := Archive.keeps_unpack hsite goOn strip items base hsite.staged
  rcases installStaged_cases hi with ⟨_, -, hu⟩ | ⟨e, hu, hrest⟩
  · exact h.near_staged (hunpack _ _ hu).1
  have hst := (hunpack _ _ hu).1
  rcases hrest with ⟨-, hm⟩ | ⟨name, hexe, ⟨-, -, rfl⟩ | ⟨hfile, ⟨_, -, hm⟩ | ⟨u, hm, hx⟩⟩⟩
  · exact h.near_moveIntoPlace hst horder hm
  · exact h.near_staged hst
  · exact h.near_moveIntoPlace hst horder hm
  · exact h.near_makeExecutable hst horder (hname name hexe) hfile hm hx

end setting

/-- The descriptor names a directory in the install root, and a file in that. -/
structure PlainNames (desc : Descriptor) : Prop where
  installDir : Path.Plain desc.installDir
  executable : ∀ name, desc.executable = some name → Path.Plain name

/-- The names of all backends are plain. -/
theorem plainNames_descriptor (b : Backend) : PlainNames b.descriptor := by
  refine ⟨?_, fun name h => ?_⟩
  · cases b <;> exact plain_of_length (by decide) (by decide)
  · cases b <;> cases h <;> exact plain_of_length (by decide) (by decide)

section provision

variable {d after : Disk} {root : Path} {R : Place} {desc : Descriptor}

theorem near_install (hd : d.WellFormed) (he : Enclosed d root (desc.installPath root) R)
    (hdesc : PlainNames desc) {order : List String → List String} (horder : ∀ l, (order l).Perm l)
    {goOn : Nat → Except Error Unit} {strip : Nat} {items : List Archive.Item} {r : Except Error Unit}
    (h : install goOn order desc strip root items d = (r, after)) : Near d root R after := by
  obtain ⟨k, -, hroot⟩ := he.root_leads
  have hself : Near d root R d := near_of_leads (fun _ _ => rfl) hroot
  obtain ⟨stg, hnamed, hsteps⟩ := steps_staging d root
  unfold install at h
  rcases bind_cases h with ⟨_, -, hask⟩ | ⟨_, mid, hask, h⟩
  · cases hask
  cases hask
  rcases bind_cases h with ⟨_, -, hmk⟩ | ⟨⟨⟩, base, hmk, h⟩
  · obtain ⟨_, hop⟩ := doing_error hmk
    obtain ⟨fs, rfl⟩ := attempt_error hop
    exact hself.withFaults fs
  have hsetting : Setting d base root (d.temporaryPath root ".staging-" "") (desc.installPath root) R
      stg desc.installDir :=
    ⟨hd, he, hnamed, hsteps, Path.steps_join_plain root hdesc.installDir, doing_ok hmk⟩
  unfold TaskM.removing at h
  rcases hi : installStaged goOn order desc strip (desc.installPath root)
    (d.temporaryPath root ".staging-" "") items base with ⟨r', last⟩
  simp only [hi] at h
  cases h
  exact (hsetting.near_installStaged horder hdesc.executable goOn strip items hi).without hsteps

/-- A download is opened in the root that was made, if that leads anywhere. -/
theorem openDownload_cases {p p' : Provisioner} {r : Except Error Path}
    (h : p.openDownload desc d = (r, p', after)) :
    (∃ e fs, r = .error e ∧ after = { (makeDirs p.root d).2 with faults := fs }) ∨
      ∃ made s download fs place, makeDirs p.root d = (.ok (), made) ∧ r = .ok download ∧
        p'.root = p.root ∧ s.toList.head? = some '.' ∧
        Path.steps download = Path.steps p.root ++ [.name s] ∧
        made.find .entry download = .ok (.vacant place) ∧
        after = { { made with faults := fs }.set place (.file ⟨made.nextId, [], 0o600⟩) with
          nextId := made.nextId + 1 } := by
  unfold Provisioner.openDownload at h
  split at h
  · next hmk =>
    cases h
    obtain ⟨_, hop⟩ := doing_error hmk
    rw [hop]
    exact .inl ⟨_, after.faults, rfl, rfl⟩
  · next made hmk =>
    have hop := doing_ok hmk
    rw [hop]
    simp only at h
    split at h
    · next hnew =>
      cases h
      obtain ⟨_, hnew⟩ := doing_error hnew
      obtain ⟨fs, rfl⟩ := attempt_error hnew
      exact .inl ⟨_, fs, rfl, rfl⟩
    · next hnew =>
      cases h
      obtain ⟨fs, place, hf, -, rfl⟩ := createNew_ok (doing_ok hnew)
      obtain ⟨s, hdot, hs⟩ := steps_download made p.root
      exact .inr ⟨made, s, _, fs, place, rfl, rfl, rfl, hdot, hs, hf, rfl⟩

theorem near_download {download : Path} {s : String} {k : Nat} {place : Place} (hd : d.WellFormed)
    (hroot : d.LeadsTo Anywhere root k R)
    (hs : Path.steps download = Path.steps root ++ [.name s])
    (hf : d.find .entry download = .ok (.vacant place)) (fs : List (Option SystemError)) (mode : Nat) :
    let e := { { d with faults := fs }.set place (.file ⟨d.nextId, [], mode⟩) with
      nextId := d.nextId + 1 }
    e.WellFormed ∧ Alike d e ∧ (∀ q, q ≠ R ++ [s] → e.get? q = d.get? q) ∧ Near d root R e := by
  obtain ⟨m, dir, hl, -, he⟩ := find_entry_cases hs hf
  obtain ⟨-, rfl⟩ := hroot.unique hl
  split at he
  · next hv =>
    cases he
    have halike : Alike d { { d with faults := fs }.set (dir ++ [s]) (.file ⟨d.nextId, [], mode⟩) with
        nextId := d.nextId + 1 } :=
      (alike_withFaults d fs).trans (alike_create (by simp) hv)
    have hsame : ∀ q, q ≠ dir ++ [s] →
        ({ d with faults := fs }.set (dir ++ [s]) (.file ⟨d.nextId, [], mode⟩)).get? q = d.get? q :=
      fun q hq => by
        rw [get?_set (by simp), if_neg hq]
        rfl
    refine ⟨(hd.withFaults fs).create hv ?_, halike, hsame, ?_⟩
    · rw [List.dropLast_concat]
      exact hl.dir hd hd.start
    · refine (near_of_leads (fun _ _ => rfl) hroot).alike halike fun q hq => hsame q ?_
      rintro rfl
      rw [isWithin_append] at hq
      cases hq
  · cases he

theorem near_fetchAndInstall {p p' : Provisioner} {env : ProvisionEnv} {artifact : Artifact}
    {deadline : Clock} {r : Except Error Unit} {made : Disk} {m : Except SystemError Unit}
    (hmk : makeDirs p.root d = (m, made)) (hd : made.WellFormed)
    (henc : ∀ R, made.Reaches maxLinks p.root R → Enclosed made p.root (desc.installPath p.root) R)
    (hdesc : PlainNames desc) (horder : ∀ l, (env.order l).Perm l)
    (h : p.fetchAndInstall env desc artifact deadline d = (r, p', after)) :
    (∃ fs, after = { made with faults := fs }) ∨
      ∃ R, made.Reaches maxLinks p.root R ∧ Near made p.root R after := by
  unfold Provisioner.fetchAndInstall at h
  rcases ho : p.openDownload desc d with ⟨_ | download, q, e⟩ <;> rw [ho] at h
  · cases h
    rcases openDownload_cases ho with ⟨_, fs, -, rfl⟩ | ⟨_, _, _, _, _, -, hr, -⟩
    · rw [hmk]
      exact .inl ⟨fs, rfl⟩
    · cases hr
  rcases openDownload_cases ho with ⟨_, _, hr, -⟩ | ⟨made', s, _, fs, place, hmk', hr, hq, -, hs, hf, rfl⟩
  · cases hr
  cases hr
  rw [hmk] at hmk'
  cases hmk'
  obtain ⟨k, R, hroot⟩ := leadsTo_of_makeDirs hmk
  have hreach : made.Reaches maxLinks p.root R := reaches_iff.2 ⟨k, hroot⟩
  obtain ⟨he, halike, -, hnear⟩ := near_download hd hroot hs hf fs 0o600
  refine .inr ⟨R, hreach, ?_⟩
  simp only at h
  rcases hfetch : q.fetch env desc artifact deadline with ⟨_ | items, q'⟩ <;> rw [hfetch] at h
  · cases h
    exact hnear.without hs
  · have hq' : q'.root = p.root := by
      unfold Provisioner.fetch at hfetch
      simp only at hfetch
      split at hfetch <;> cases hfetch
      exact hq
    simp only at h
    rcases hi : q'.install env desc artifact deadline items _ with ⟨r', last⟩
    rw [hi] at h
    cases h
    unfold Provisioner.install at hi
    rw [hq'] at hi
    exact (hnear.trans (near_install he ((henc R hreach).alike halike) hdesc horder hi)).without hs

end provision

/-- All that provisioning a downloaded backend can do to the disk. -/
theorem provision_disk {p : Provisioner} {env : ProvisionEnv} {desc : Descriptor} {d : Disk}
    (hart : desc.artifact ≠ none) :
    (p.provision env desc d).2.2 = d ∨ ∃ artifact deadline,
      (p.provision env desc d).2.2 = (p.fetchAndInstall env desc artifact deadline d).2.2 := by
  unfold Provisioner.provision
  split
  · exact absurd ‹_› hart
  · split
    · exact .inl rfl
    · split
      · exact .inl rfl
      · exact .inr ⟨_, _, rfl⟩

/-- Whatever is looked up below `staging` while an archive is unpacked there lies below the place that
`staging` leads to. The failures `fs` can end the unpacking after any of its operations. -/
def UnpacksInside (base : Disk) (staging : Path) : Prop :=
  ∃ P, base.Reaches maxLinks staging P ∧ ∀ fs goOn strip items (ns : List String) l found,
    ns ≠ [] → (∀ s ∈ ns, Path.Plain s) →
    (Archive.unpack goOn staging strip items { base with faults := fs }).2.find l
      (Path.join staging ("/".intercalate ns)) = .ok found →
    isWithin P found.place = true

theorem unpacksInside_of_makeDir {d base : Disk} {staging : Path} (hd : d.WellFormed)
    (hmk : makeDir staging d = (.ok (), base)) : UnpacksInside base staging := by
  obtain ⟨_, s, _, dir, -, -, -, hsite, -⟩ := site_of_makeDir hd hmk
  refine ⟨dir ++ [s], reaches_iff.2 hsite.leads, fun fs goOn strip items ns l found hne hns hf => ?_⟩
  have hstart := Archive.staged_blind Path.Plain base (dir ++ [s]) base fs hsite.staged
  have hst := (Archive.keeps_unpack hsite goOn strip items _ hstart _ _ rfl).1
  exact hst.within_of_find hsite hne hns hf

/-- Provisioning changes nothing outside the install root, except that missing directories on the way
to it are made; and all that is unpacked stays in its staging directory. -/
theorem provision_contained (p : Provisioner) (env : ProvisionEnv) (desc : Descriptor) (d : Disk)
    (hd : d.WellFormed) (hart : desc.artifact ≠ none) (hdesc : PlainNames desc)
    (horder : ∀ l, (env.order l).Perm l)
    (henc : ∀ R, (makeDirs p.root d).2.Reaches maxLinks p.root R →
      Enclosed (makeDirs p.root d).2 p.root (p.installPath desc) R) :
    (∀ q, (∀ R, (makeDirs p.root d).2.Reaches maxLinks p.root R → isWithin R q = false) →
      (p.provision env desc d).2.2.get? q = d.get? q ∨
        d.isDir p.root = false ∧ d.get? q = none ∧ (makeDirs p.root d).2.get? q = some .dir ∧
          (p.provision env desc d).2.2.get? q = some .dir) ∧
    ∀ (e base : Disk) staging, e.WellFormed → makeDir staging e = (.ok (), base) →
      UnpacksInside base staging := by
  refine ⟨fun q hq => ?_, fun _ _ _ he hmk => unpacksInside_of_makeDir he hmk⟩
  rcases provision_disk hart with he | ⟨artifact, deadline, he⟩
  · exact .inl (by rw [he])
  rw [he]
  rcases hmk : makeDirs p.root d with ⟨m, made⟩
  rw [hmk] at hq henc
  have hgrown := grown_of_makeDirs hd hmk
  have hsame : (p.fetchAndInstall env desc artifact deadline d).2.2.get? q = made.get? q := by
    rcases hrun : p.fetchAndInstall env desc artifact deadline d with ⟨r, p', after⟩
    rcases near_fetchAndInstall hmk hgrown.wellFormed henc hdesc horder hrun with
      ⟨fs, rfl⟩ | ⟨R, hR, hnear⟩
    · rfl
    · exact hnear.outside q (hq R hR)
  rw [hsame]
  rcases hgrown.same q with hold | ⟨-, hnone, hdir⟩
  · exact .inl hold
  · by_cases hroot : d.isDir p.root = true
    · obtain ⟨-, _, _, hl⟩ := isDir_iff.1 hroot
      exact .inl (((grown_of_leads hd hl hmk).same q).resolve_right fun h => h.1)
    · exact .inr ⟨by simpa using hroot, hnone, hdir, hdir⟩

/-! Roots with links -/

/-- No link of the disk leads to a directory outside `R`. -/
def linksStayIn (d : Disk) (R : Place) : Bool :=
  d.nodes.all fun e =>
    match e.2 with
    | .link t =>
      match d.walk .through maxLinks false e.1.dropLast (Path.steps t) with
      | .ok (.node there .dir) => isWithin R there
      | _ => true
    | _ => true

theorem confined_of_linksStayIn {d : Disk} {R : Place} (h : linksStayIn d R = true) :
    Confined d R := by
  intro dir s t there _ ht hw
  have hall := List.all_eq_true.1 h _ (mem_nodes_of_get? (by simp) ht)
  simpa [hw] using hall

/-- No step starts like the name of a staging directory. -/
def looksUnaware (cs : List Path.Component) : Bool :=
  cs.all fun
    | .name s => !".staging-".toList.isPrefixOf s.toList
    | _ => true

theorem unaware_of_looksUnaware {cs : List Path.Component} (h : looksUnaware cs = true) :
    Unaware cs := by
  rintro s hs ⟨n, rfl⟩
  have hstart := List.all_eq_true.1 h _ hs
  simp only [String.toList_append, List.isPrefixOf_iff_prefix.2 (List.prefix_append _ _)] at hstart
  cases hstart

def packed (name : Path) (kind : Archive.EntryKind) (link : Path) : Archive.Item :=
  .entry ⟨name, kind, 0o644, [], link⟩

/-- A link to where it lies, and the program. -/
def release : List Archive.Item :=
  [packed "v/here" .symlink ".", packed "v/xmrig" .file ""]

def delivering (items : List Archive.Item) : ProvisionEnv where
  fetch := fun _ _ => ⟨.ok items, false⟩
  now := ⟨0, 0⟩
  timeout := .ofSecs 60
  looks := fun _ => ⟨⟨0, 0⟩, false⟩

def provisioner (root : Path) : Provisioner := { root := root }

def provisioned (root : Path) (d : Disk) : Except Halt Path × Provisioner × Disk :=
  (provisioner root).provision (delivering release) Backend.xmrig.descriptor d

/-- The install path is a link to a directory beside it. -/
def linked : Disk where
  nodes := [(["home"], .dir), (["r"], .dir), (["r", "v1"], .dir), (["r", "xmrig"], .link "v1")]

theorem enclosed_linked : Enclosed linked "/r" "/r/xmrig" ["r"] where
  root_near := by decide
  install_near := fun I hI => by
    have hreach : linked.Reaches maxLinks "/r/xmrig" ["r", "v1"] := by decide
    rw [hreach.unique hI]
    decide
  confined := confined_of_linksStayIn (by decide)
  unaware := unaware_of_looksUnaware (by decide)
  links_unaware := fun q t ht => by
    have hq : q ≠ [] := by
      rintro rfl
      cases ht
    have hmem := mem_nodes_of_get? hq ht
    obtain ⟨-, rfl⟩ : q = ["r", "xmrig"] ∧ t = "v1" := by simpa [linked] using hmem
    exact unaware_of_looksUnaware (by decide)

theorem wellFormed_linked : linked.WellFormed :=
  wellFormed_of_nodes (by decide) rfl (by simp [linked]) (by decide)

theorem provision_contained_linked :
    (provisioned "/r" linked).1 = .ok "/r/xmrig" ∧
      (provisioned "/r" linked).2.2.get? ["r", "v1", "here"] = some (.link ".") ∧
      (provisioned "/r" linked).2.2.get? ["home"] = linked.get? ["home"] := by
  refine ⟨by decide +kernel, by decide +kernel, ?_⟩
  have hmade : (makeDirs (provisioner "/r").root linked).2 = linked := by rfl
  have hreach : linked.Reaches maxLinks "/r" ["r"] := by decide
  have hroot : ∀ R, (makeDirs (provisioner "/r").root linked).2.Reaches maxLinks
      (provisioner "/r").root R → R = ["r"] := by
    intro R hR
    rw [hmade] at hR
    exact hreach.unique hR
  have hpath : (provisioner "/r").installPath Backend.xmrig.descriptor = "/r/xmrig" := by
    decide +kernel
  have hcontained := provision_contained (provisioner "/r") (delivering release)
    Backend.xmrig.descriptor linked wellFormed_linked nofun (plainNames_descriptor .xmrig)
    (fun _ => .refl _) fun R hR => by
      rw [hmade, hroot R hR, hpath]
      exact enclosed_linked
  have hdir : linked.isDir "/r" = true := by decide
  unfold provisioned
  rcases hcontained.1 ["home"] fun R hR => by rw [hroot R hR]; rfl with h | ⟨h, -⟩
  · exact h
  · exact absurd (hdir.symm.trans h) (by decide)

/-- The install path leads over a chain of twenty links that begins at `here`. -/
def chained : Disk where
  nodes := [(["r"], .dir), (["r", "xmrig"], .link "q/here/../../.."), (["r", "q"], .dir),
      (["r", "q", "here"], .link "1")] ++
    (List.range 18).map (fun n =>
      (["r", "q", Number.decimal (n + 1)], .link (Number.decimal (n + 2)))) ++
    [(["r", "q", "19"], .link "d/e/f"), (["r", "q", "d"], .dir), (["r", "q", "d", "e"], .dir),
      (["r", "q", "d", "e", "f"], .dir)]

/-- The install path is a link over the staging directory, which is not there yet. -/
def foreseen : Disk where
  nodes := [(["out"], .dir), (["r"], .dir), (["r", "xmrig"], .link ".staging-0/../../out")]

/-- Without a link to the outside something is made there: a directory above the root, or a file when
the install path leads over too many links or over the staging directory. -/
theorem not_always_contained :
    (linksStayIn {} ["a", "b"] = true ∧
      (provisioned "a/b" {}).2.2.get? ["a"] = some .dir) ∧
    (linksStayIn chained ["r"] = true ∧ chained.get? ["xmrig"] = none ∧
      (provisioned "/r" chained).2.2.get? ["xmrig"] ≠ none) ∧
    linksStayIn foreseen ["r"] = true ∧ foreseen.get? ["out", "xmrig"] = none ∧
      (provisioned "/r" foreseen).2.2.get? ["out", "xmrig"] ≠ none := by
  decide +kernel

end RigWarden.Provision
