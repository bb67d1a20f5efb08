import RigWarden.Proofs.Provision.Moves

/-!
# Where a release is installed

An install root is enclosed when no link below it leads to a directory elsewhere, nothing names the
staging directory before it is made, and the install path is reached over few links. Then the staged
entries are moved within the root.
-/

namespace RigWarden.Provision

open Disk

/-! Temporary names -/

theorem plain_of_length {s : String} (h : '/' ∉ s.toList) (hlen : 2 < s.toList.length) :
    Path.Plain s := by
  refine ⟨h, ?_⟩
  have hne : ∀ cs : List Char, cs.length ≤ 2 → s.toList ≠ cs := fun cs hcs he => by
    rw [he] at hlen
    omega
  rw [Path.Component.ofPiece, if_neg (hne [] (by simp)), if_neg (hne ['.'] (by simp)),
    if_neg (hne ['.', '.'] (by simp)), String.ofList_toList]

theorem notMem_decimal (n : Nat) : '/' ∉ (Number.decimal n).toList := by
  intro h
  rw [Number.decimal, String.toList_ofList, Number.digits] at h
  exact absurd (Nat.isDigit_of_mem_toDigits (by decide) (by decide) h) (by decide)

theorem plain_temporary {start final : String} (hs : '/' ∉ start.toList)
    (hlen : 2 < start.toList.length) (hf : '/' ∉ final.toList) (n : Nat) :
    Path.Plain (start ++ Number.decimal n ++ final) := by
  refine plain_of_length ?_ (by simp; omega)
  simp [hs, hf, notMem_decimal n]

theorem freshPath_eq (d : Disk) (dir : Path) (start final : String) (tries n : Nat) :
    ∃ k, d.freshPath dir start final tries n =
      Path.join dir (start ++ Number.decimal k ++ final) := by
  induction tries generalizing n with
  | zero => exact ⟨n, rfl⟩
  | succ tries ih =>
    rw [freshPath]
    split
    · exact ih (n + 1)
    · exact ⟨n, rfl⟩

/-- A name that a staging directory may get. -/
def IsStagingName (s : String) : Prop := ∃ n, s = ".staging-" ++ Number.decimal n

theorem IsStagingName.plain {s : String} (h : IsStagingName s) : Path.Plain s := by
  obtain ⟨n, rfl⟩ := h
  simpa using @plain_temporary ".staging-" "" (by decide) (by decide) (by decide) n

theorem steps_staging (d : Disk) (root : Path) :
    ∃ stg, IsStagingName stg ∧
      Path.steps (d.temporaryPath root ".staging-" "") = Path.steps root ++ [.name stg] := by
  obtain ⟨k, hk⟩ := freshPath_eq d root ".staging-" "" d.nodes.length 0
  refine ⟨_, ⟨k, rfl⟩, ?_⟩
  rw [temporaryPath, hk, String.append_empty, Path.steps_join_plain root (IsStagingName.plain ⟨k, rfl⟩)]

theorem IsStagingName.head? {s : String} (h : IsStagingName s) : s.toList.head? = some '.' := by
  obtain ⟨n, rfl⟩ := h
  rw [String.toList_append]
  rfl

theorem steps_download (d : Disk) (root : Path) :
    ∃ s, s.toList.head? = some '.' ∧
      Path.steps (d.temporaryPath root ".download-" ".tar.gz") = Path.steps root ++ [.name s] := by
  obtain ⟨k, hk⟩ := freshPath_eq d root ".download-" ".tar.gz" d.nodes.length 0
  refine ⟨".download-" ++ Number.decimal k ++ ".tar.gz", ?_, ?_⟩
  · rw [String.toList_append, String.toList_append]
    rfl
  · rw [temporaryPath, hk, Path.steps_join_plain root
      (plain_temporary (by decide) (by decide) (by decide) k)]

/-! The install root -/

/-- No link below a place leads to a directory that lies elsewhere. -/
def Confined (d : Disk) (R : Place) : Prop :=
  ∀ dir s t there, isWithin R dir = true → d.get? (dir ++ [s]) = some (.link t) →
    d.walk .through maxLinks false dir (Path.steps t) = .ok (.node there .dir) →
    isWithin R there = true

/-- The steps do not name a staging directory. -/
def Unaware (cs : List Path.Component) : Prop := ∀ s, .name s ∈ cs → ¬ IsStagingName s

/-- The root leads to `R`, where a release can be installed without an effect elsewhere. -/
structure Enclosed (d : Disk) (root install : Path) (R : Place) : Prop where
  root_near : d.Reaches 20 root R
  install_near : ∀ I, d.Reaches maxLinks install I → d.Reaches 20 install I
  confined : Confined d R
  unaware : Unaware (Path.steps install)
  links_unaware : ∀ q t, d.get? q = some (.link t) → Unaware (Path.steps t)

theorem Enclosed.alike {d e : Disk} {root install : Path} {R : Place}
    (h : Enclosed d root install R) (ha : Alike d e) : Enclosed e root install R := by
  refine ⟨ha.reaches_iff.1 h.root_near, fun I hI => ?_, fun dir s t there hdir ht hw => ?_, h.unaware,
    fun q t ht => h.links_unaware q t ((ha.same q (.link t) nofun).2 ht)⟩
  · exact ha.reaches_iff.1 (h.install_near I (ha.reaches_iff.2 hI))
  · refine h.confined dir s t there hdir ((ha.same _ (.link t) nofun).2 ht) ?_
    rcases walk_through_cases hw with ⟨-, m, hl⟩ | ⟨_, _, _, hn, -⟩
    · exact (ha.symm.leads hl).walk_through _
    · cases hn

theorem Enclosed.root_leads {d : Disk} {root install : Path} {R : Place}
    (h : Enclosed d root install R) : ∃ k, 20 ≤ k ∧ d.LeadsTo Anywhere root k R := by
  obtain ⟨k, hk⟩ := reaches_iff.1 h.root_near
  have hshift := hk.shift (j := maxLinks) (by unfold maxLinks; omega)
  exact ⟨_, h.root_near.links_left (by decide) hshift, hshift⟩

/-- An install path that leads somewhere leads into the root, with links left. -/
theorem Enclosed.install_leads {d : Disk} {root install : Path} {R I : Place} {ins : String} {m : Nat}
    (h : Enclosed d root install R) (hins : Path.steps install = Path.steps root ++ [.name ins])
    (hl : d.LeadsTo Anywhere install m I) : 20 ≤ m ∧ isWithin R I = true := by
  refine ⟨(h.install_near I (reaches_iff.2 ⟨m, hl⟩)).links_left (by decide) hl, ?_⟩
  obtain ⟨k, -, hroot⟩ := h.root_leads
  rw [LeadsTo, hins] at hl
  obtain ⟨k', mid, hinit, hlast⟩ := hl.split
  obtain ⟨rfl, rfl⟩ := hroot.unique hinit
  rcases hlast.name_cases with ⟨-, -, -, rfl⟩ | ⟨t, j, ht, rfl, hlink⟩
  · exact isWithin_append _ _
  · have hj := hinit.links_le
    have hshift := hlink.shift (j := maxLinks) (by omega)
    exact h.confined _ _ _ I (isWithin_self _) ht (hshift.walk_through _)

/-- A staging directory was made in a root that leads to `R`. -/
structure Prepared (d base : Disk) (root staging : Path) (R : Place) (stg : String) : Prop where
  wellFormed : d.WellFormed
  root_leads : ∃ k, d.LeadsTo Anywhere root k R
  staging_steps : Path.steps staging = Path.steps root ++ [.name stg]
  made : makeDir staging d = (.ok (), base)

/-- A staging directory was made in an enclosed root. -/
structure Setting (d base : Disk) (root staging install : Path) (R : Place) (stg ins : String) :
    Prop where
  wellFormed : d.WellFormed
  enclosed : Enclosed d root install R
  named : IsStagingName stg
  staging_steps : Path.steps staging = Path.steps root ++ [.name stg]
  install_steps : Path.steps install = Path.steps root ++ [.name ins]
  made : makeDir staging d = (.ok (), base)

section site

variable {d base : Disk} {staging : Path}

/-- A directory that was just made is empty. -/
theorem site_of_makeDir (hd : d.WellFormed) (h : makeDir staging d = (.ok (), base)) :
    ∃ cs s m dir, Path.steps staging = cs ++ [.name s] ∧
      d.Leads Anywhere maxLinks d.workingDir cs m dir ∧ d.get? (dir ++ [s]) = none ∧
      Archive.Site base staging (dir ++ [s]) ∧ base.nextId = d.nextId ∧
      ∀ q, base.get? q = if q = dir ++ [s] then some .dir else d.get? q := by
  obtain ⟨m', P, hl'⟩ := (isDir_iff.1 (isDir_of_makeDir h)).2
  obtain ⟨fs, cs, s, m, dir, -, hcs, hl, hv, hs, rfl⟩ := makeDir_ok h
  have hget : ∀ q, ({ d with faults := fs }.set (dir ++ [s]) .dir).get? q =
      if q = dir ++ [s] then some .dir else d.get? q := get?_set (by simp) _
  refine ⟨cs, s, m, dir, hcs, hl, hv, ⟨?_, ?_, fun q hq => ?_, ?_, ?_⟩, nextId_set _ _ _, hget⟩
  · refine (hd.withFaults fs).set hv ?_ nofun
    rw [List.dropLast_concat]
    exact hl.dir hd hd.start
  · rw [hget, if_pos rfl]
  · obtain ⟨r, rfl⟩ := isWithin_iff.1 hq.1
    rw [hget, if_neg hq.2]
    exact hd.of_vacant hv r
  · rw [workingDir_set, Bool.eq_false_iff]
    intro hw
    obtain ⟨r, hr⟩ := isWithin_iff.1 hw
    have hstart := hd.start
    rw [show d.workingDir = dir ++ [s] ++ r from hr, hd.of_vacant hv r] at hstart
    cases hstart
  · refine ⟨m, ?_⟩
    rw [LeadsTo, hcs, workingDir_set]
    have hinit : ({ d with faults := fs }.set (dir ++ [s]) .dir).Leads Anywhere maxLinks d.workingDir
        cs m dir := hl.mono fun q n _ hn _ => ⟨trivial, has_of_set hv hn⟩
    exact hinit.concat (.down hs trivial (by rw [hget, if_pos rfl]))

end site

section prepared

variable {d base e u : Disk} {root staging install : Path} {R : Place} {stg ins : String}

theorem Prepared.site (h : Prepared d base root staging R stg) :
    d.get? (R ++ [stg]) = none ∧ Archive.Site base staging (R ++ [stg]) ∧
      base.nextId = d.nextId ∧
      ∀ q, base.get? q = if q = R ++ [stg] then some .dir else d.get? q := by
  obtain ⟨cs, s, m, dir, hcs, hl, hrest⟩ := site_of_makeDir h.wellFormed h.made
  rw [h.staging_steps] at hcs
  obtain ⟨rfl, hs⟩ := List.append_inj' hcs rfl
  cases hs
  obtain ⟨k, hroot⟩ := h.root_leads
  obtain ⟨-, rfl⟩ := hroot.unique hl
  exact hrest

/-- What was there before stays there while an archive is unpacked. -/
theorem Prepared.part (h : Prepared d base root staging R stg)
    (hst : Archive.Staged base (R ++ [stg]) e) : Part d e := by
  obtain ⟨hv, hsite, -, hget⟩ := h.site
  obtain ⟨fs, _, _, _, _, -, -, -, -, -, rfl⟩ := makeDir_ok h.made
  refine ⟨?_, fun p n hn => ?_⟩
  · rw [hst.start, workingDir_set]
  · have hne : p ≠ R ++ [stg] := fun he => by
      rw [he, hv] at hn
      cases hn
    rw [hst.outside p fun hb => ?_, hget, if_neg hne, hn]
    obtain ⟨r, rfl⟩ := isWithin_iff.1 hb.1
    rw [h.wellFormed.of_vacant hv r] at hn
    cases hn

theorem Prepared.outside (h : Prepared d base root staging R stg)
    (hst : Archive.Staged base (R ++ [stg]) e) {q : Place}
    (hq : isWithin (R ++ [stg]) q = false) : e.get? q = d.get? q := by
  rw [hst.outside q fun hb => Bool.eq_false_iff.1 hq hb.1, h.site.2.2.2, if_neg]
  rintro rfl
  rw [isWithin_self] at hq
  cases hq

theorem Prepared.grown (h : Prepared d base root staging R stg)
    (hins : Path.steps install = Path.steps root ++ [.name ins])
    (hst : Archive.Staged base (R ++ [stg]) e) {r : Except SystemError Unit}
    (hmk : makeDirs install e = (r, u)) : Grown e (· = R ++ [ins]) u := by
  obtain ⟨k, hroot⟩ := h.root_leads
  exact grown_of_parent hst.wellFormed ((h.part hst).leadsTo hroot) hins hmk

theorem Scene.withFaults {I : Place} {m : Nat} (h : Scene u root staging install R I stg m)
    (fs : List (Option SystemError)) :
    Scene { u with faults := fs } root staging install R I stg m := by
  have halike := alike_withFaults u fs
  obtain ⟨k, hroot⟩ := h.root_leads
  exact ⟨h.wellFormed.withFaults fs, h.away, h.dir, h.staging_steps, h.install_steps,
    ⟨k, halike.leadsTo hroot⟩, halike.leadsTo h.leads, h.spare.imp_right halike.leadsTo⟩

theorem list_ok {p : Path} {names : List String} {after : Disk} {m : Nat} {P : Place}
    (hl : d.LeadsTo Anywhere p m P) (h : list p d = (.ok names, after)) :
    names = d.children P ∧ after = { d with faults := d.faults.drop 1 } := by
  have hop := attempt_ok h
  rw [find_withFaults] at hop
  rcases hf : d.find .through p with _ | ⟨place, n⟩ | place <;>
    simp only [hf, Bind.bind, Except.bind] at hop
  · cases hop
  · cases n <;> cases hop
    rcases walk_through_cases (walk_of_find hf) with ⟨-, k, hk⟩ | ⟨_, _, _, hn, -⟩
    · obtain ⟨-, rfl⟩ := hl.unique hk
      exact ⟨rfl, rfl⟩
    · cases hn
  · cases hop

theorem list_calm {p : Path} {m : Nat} {P : Place} (hcalm : u.faults = []) (hp : Usable p)
    (hl : u.LeadsTo Anywhere p m P) : list p u = (.ok (u.children P), u) := by
  rw [list, attempt_calm hcalm, find_of_usable hp, hl.walk_through]
  rfl

/-- Where the install path that was made makes a scene, the entries that are moved are those that were
staged, each of them once. -/
theorem Prepared.moveIntoPlace_cases (h : Prepared d base root staging R stg)
    (hins : Path.steps install = Path.steps root ++ [.name ins])
    (hst : Archive.Staged base (R ++ [stg]) e) {S : Place → Prop}
    (hscene : ∀ u, makeDirs install e = (.ok (), u) →
      ∃ I m, Scene u root staging install R I stg m ∧ S I)
    {order : List String → List String} (horder : ∀ l, (order l).Perm l) {r : Except Error Unit}
    {after : Disk} (hm : moveIntoPlace order staging install e = (r, after)) :
    (∃ err, r = .error err ∧ Grown e (· = R ++ [ins]) after ∧ (e.faults = [] → after = e)) ∨
      ∃ u I m names, Grown e (· = R ++ [ins]) u ∧ Scene u root staging install R I stg m ∧
        S I ∧ names.Nodup ∧ (∀ x ∈ names, Path.Plain x) ∧
        (∀ x, x ∈ names ↔ u.get? (R ++ [stg] ++ [x]) ≠ none) ∧ (e.faults = [] → u.faults = []) ∧
        moveEntries staging install names u = (r, after) := by
  rcases bind_cases hm with ⟨_, rfl, hmk⟩ | ⟨⟨⟩, u, hmk, hm⟩
  · obtain ⟨_, hop⟩ := doing_error hmk
    obtain ⟨_, hroot⟩ := h.root_leads
    exact .inl ⟨_, rfl, h.grown hins hst hop, fun hcalm =>
      makeDirs_calm_error hcalm ((h.part hst).leadsTo hroot) hins hop⟩
  have hgrown := h.grown hins hst (doing_ok hmk)
  have hquiet : e.faults = [] → u.faults = [] := fun hcalm =>
    (keeps_calm_makeDirs install e hcalm _ _ (doing_ok hmk)).1
  obtain ⟨k, hstaging⟩ := hst.leads h.site.2.1
  rcases bind_cases hm with ⟨_, rfl, hlist⟩ | ⟨names, u', hlist, hm⟩
  · obtain ⟨_, hop⟩ := doing_error hlist
    obtain ⟨_, _, _, _, _, hu, -⟩ := makeDir_ok h.made
    refine .inl ⟨_, rfl, ?_, fun hcalm => ?_⟩
    · obtain ⟨fs, rfl⟩ := attempt_error hop
      exact grown_blind _ _ u fs hgrown
    · rw [list_calm (hquiet hcalm) hu (hgrown.part.leadsTo hstaging)] at hop
      cases hop
  obtain ⟨I, m, hscene, hS⟩ := hscene u (doing_ok hmk)
  obtain ⟨rfl, rfl⟩ := list_ok (hgrown.part.leadsTo hstaging) (doing_ok hlist)
  have hmem : ∀ x, x ∈ order (u.children (R ++ [stg])) ↔ u.get? (R ++ [stg] ++ [x]) ≠ none :=
    fun x => (horder _).mem_iff.trans mem_children_iff
  refine .inr ⟨{ u with faults := u.faults.drop 1 }, I, m, order (u.children (R ++ [stg])),
    grown_blind _ _ u _ hgrown, hscene.withFaults _, hS, ?_, fun x hx => ?_, hmem, fun hcalm => ?_, hm⟩
  · exact (horder _).nodup_iff.2 (hgrown.wellFormed.children_nodup _)
  · refine hst.names x fun hnone => (hmem x).1 hx ?_
    rcases hgrown.same (R ++ [stg] ++ [x]) with he | ⟨he, -⟩
    · rw [he, hnone]
    · have hlen := congrArg List.length he
      simp at hlen
  · simp [hquiet hcalm]

end prepared

section setting

variable {d base e u : Disk} {root staging install : Path} {R : Place} {stg ins : String}

theorem Setting.prepared (h : Setting d base root staging install R stg ins) :
    Prepared d base root staging R stg := by
  obtain ⟨k, -, hroot⟩ := h.enclosed.root_leads
  exact ⟨h.wellFormed, ⟨k, hroot⟩, h.staging_steps, h.made⟩

theorem Setting.site (h : Setting d base root staging install R stg ins) :
    d.get? (R ++ [stg]) = none ∧ Archive.Site base staging (R ++ [stg]) ∧
      base.nextId = d.nextId ∧
      ∀ q, base.get? q = if q = R ++ [stg] then some .dir else d.get? q :=
  h.prepared.site

theorem Setting.part (h : Setting d base root staging install R stg ins)
    (hst : Archive.Staged base (R ++ [stg]) e) : Part d e := h.prepared.part hst

theorem Setting.outside (h : Setting d base root staging install R stg ins)
    (hst : Archive.Staged base (R ++ [stg]) e) {q : Place}
    (hq : isWithin (R ++ [stg]) q = false) : e.get? q = d.get? q := h.prepared.outside hst hq

/-- The install path that was made leads into the root, with links left, and not over the staging
directory. -/
theorem Setting.scene (h : Setting d base root staging install R stg ins)
    (hst : Archive.Staged base (R ++ [stg]) e) (hmk : makeDirs install e = (.ok (), u)) :
    ∃ I m, Scene u root staging install R I stg m ∧ isWithin R I = true := by
  have hgrown := h.prepared.grown h.install_steps hst hmk
  have hpart : Part d u := (h.part hst).trans hgrown.part
  obtain ⟨k, hk, hroot⟩ := h.enclosed.root_leads
  obtain ⟨m, I, hl⟩ := leadsTo_of_makeDirs hmk
  have hsite := h.site.2.1
  have haway : isWithin (R ++ [stg]) u.workingDir = false := by
    rw [hgrown.start, hst.start]
    exact hsite.away
  -- No link outside the staging directory names it, since it has just got its name.
  have havoid := hl.keeps_out haway (fun hmem => h.enclosed.unaware stg hmem h.named)
    fun q t hq ht hmem => by
      have hold : d.get? q = some (.link t) := by
        rw [← h.outside hst hq]
        exact hgrown.eq_of_not_dir ht nofun
      exact h.enclosed.links_unaware q t hold stg hmem h.named
  have hsplit := havoid
  rw [h.install_steps] at hsplit
  obtain ⟨k', mid, hfirst, hlast⟩ := hsplit.split
  obtain ⟨rfl, rfl⟩ := (hpart.leadsTo hroot).unique hfirst
  have hdir : u.get? (mid ++ [stg]) = some .dir := by
    refine hgrown.has ?_
    rw [hst.outside _ fun hb => hb.2 rfl]
    exact hsite.dir
  suffices hend : 20 ≤ m ∧ isWithin mid I = true from
    ⟨I, m, ⟨hgrown.wellFormed, haway, hdir, h.staging_steps, ⟨ins, h.install_steps⟩, ⟨_, hfirst⟩,
      havoid, .inl hend.1⟩, hend.2⟩
  by_cases hins : u.get? (mid ++ [ins]) = some .dir
  · rcases hlast.name_cases with ⟨-, -, rfl, rfl⟩ | ⟨_, _, ht, -⟩
    · exact ⟨hk, isWithin_append _ _⟩
    · rw [hins] at ht
      cases ht
  · -- No directory was made, so the whole way was there before.
    have hold : d.LeadsTo Anywhere install m I := by
      rw [LeadsTo, hpart.start]
      refine havoid.mono fun q n hq hn _ => ⟨trivial, ?_⟩
      rcases hgrown.same q with he | ⟨rfl, -, hd⟩
      · rw [← h.outside hst hq, ← he, hn]
      · exact absurd hd hins
    exact h.enclosed.install_leads h.install_steps hold

/-- The entries that are moved are those that were staged, each of them once. -/
theorem Setting.moveIntoPlace_cases (h : Setting d base root staging install R stg ins)
    (hst : Archive.Staged base (R ++ [stg]) e) {order : List String → List String}
    (horder : ∀ l, (order l).Perm l) {r : Except Error Unit} {after : Disk}
    (hm : moveIntoPlace order staging install e = (r, after)) :
    (∃ err, r = .error err ∧ Grown e (· = R ++ [ins]) after ∧ (e.faults = [] → after = e)) ∨
      ∃ u I m names, Grown e (· = R ++ [ins]) u ∧ Scene u root staging install R I stg m ∧
        isWithin R I = true ∧ names.Nodup ∧ (∀ x ∈ names, Path.Plain x) ∧
        (∀ x, x ∈ names ↔ u.get? (R ++ [stg] ++ [x]) ≠ none) ∧ (e.faults = [] → u.faults = []) ∧
        moveEntries staging install names u = (r, after) :=
  h.prepared.moveIntoPlace_cases h.install_steps hst (fun _ hmk => h.scene hst hmk) horder hm

end setting

end RigWarden.Provision
