import RigWarden.Proofs.Archive.Contents
import RigWarden.Proofs.Provision.Replacement
import RigWarden.Proofs.Provision.Temporary

/-!
# A release that is installed

When nothing fails and nobody stops the work, a sound release with its program is installed over a
tree of files and directories: each of its entries stands in place just as it was packed, nothing of
an older entry of that name is left, and everything else on the disk is as it was.
-/

namespace RigWarden

open Disk

/-- A file with more permissions. -/
def Node.permitting (mode : Nat) : Node → Node
  | file f => file { f with mode := f.mode ||| mode }
  | n => n

namespace Provision

/-- What stands at a place below the install path when a release was installed there. -/
def provided (strip : Nat) (es : List Archive.Entry) (program : String) (q : Place) : Option Node :=
  if q = [program] then (Archive.contents strip es q).map (.permitting 0o755)
  else Archive.contents strip es q

section moves

variable {d base e u : Disk} {root : Path} {R : Place} {stg ins : String} {strip : Nat}
  {es : List Archive.Entry} {program : String} {desc : Descriptor}

/-- The install directory is reached without a look at the staging directory or into itself. -/
theorem Prepared.scene {staging install : Path} (h : Prepared d base root staging R stg)
    (hins : Path.steps install = Path.steps root ++ [.name ins]) (hp : Plainly d root R ins)
    (hne : ins ≠ stg) (hst : Archive.Staged base (R ++ [stg]) e)
    (hgrown : Grown e (· = R ++ [ins]) u) (hdir : u.get? (R ++ [ins]) = some .dir)
    (hshort : (Text.utf8 ins).length ≤ maxName) :
    ∃ m, Scene u root staging install R (R ++ [ins]) stg m := by
  obtain ⟨hv, hsite, -, -⟩ := h.site
  have hpart : Part d u := (h.part hst).trans hgrown.part
  obtain ⟨k, hroot⟩ := hp.root_leads
  have hroot' : u.LeadsTo (fun q => isWithin (R ++ [stg]) q = false ∧ ¬ Below (R ++ [ins]) q) root k
      R := by
    rw [LeadsTo, ← hpart.start]
    refine hroot.mono fun q n hq hn _ => ⟨⟨Bool.eq_false_iff.2 fun hw => ?_, fun hb => ?_⟩,
      hpart.has q n hn⟩
    · obtain ⟨r, rfl⟩ := isWithin_iff.1 hw
      rw [h.wellFormed.of_vacant hv r] at hn
      cases hn
    · exact Bool.eq_false_iff.1 hq hb.1
  have hlast : isWithin (R ++ [stg]) (R ++ [ins]) = false ∧ ¬ Below (R ++ [ins]) (R ++ [ins]) :=
    ⟨not_isWithin_other hne.symm [], fun hb => hb.2 rfl⟩
  have hleads : u.LeadsTo (fun q => isWithin (R ++ [stg]) q = false ∧ ¬ Below (R ++ [ins]) q) install
      k (R ++ [ins]) := by
    rw [LeadsTo, hins]
    exact hroot'.concat (.down hshort hlast hdir)
  refine ⟨k, hgrown.wellFormed, ?_, ?_, h.staging_steps, ⟨ins, hins⟩,
    ⟨k, hroot'.mono fun _ _ hq hn _ => ⟨hq.1, hn⟩⟩, hleads.mono fun _ _ hq hn _ => ⟨hq.1, hn⟩,
    .inr hleads⟩
  · rw [hgrown.start, hst.start]
    exact hsite.away
  · exact hgrown.has (by rw [hst.outside _ fun hb => hb.2 rfl, hsite.dir])

/-- All that was staged is moved, where no link is in the way. -/
theorem Prepared.moveIntoPlace_calm {staging : Path} (h : Prepared d base root staging R stg)
    (hp : Plainly d root R ins) (hne : ins ≠ stg) (hst : Archive.Staged base (R ++ [stg]) e)
    (hcalm : e.faults = []) (hfile : ∀ f, d.get? (R ++ [ins]) ≠ some (.file f))
    (hlinks : ∀ x t, d.get? (R ++ [ins] ++ [x]) ≠ some (.link t)) (hins : Accepted root [ins])
    (hmov : ∀ x, e.get? (R ++ [stg] ++ [x]) ≠ none → Movable staging (Path.join root ins) x)
    {order : List String → List String} (horder : ∀ l, (order l).Perm l) :
    ∃ u m names v, Grown e (· = R ++ [ins]) u ∧
      Direct u staging (Path.join root ins) (R ++ [stg]) (R ++ [ins]) m ∧
      Moved u (R ++ [stg]) (R ++ [ins]) names v ∧ v.faults = [] ∧ u.get? (R ++ [ins]) = some .dir ∧
      (∀ x, x ∈ names ↔ e.get? (R ++ [stg] ++ [x]) ≠ none) ∧
      moveIntoPlace order staging (Path.join root ins) e = (.ok (), v) := by
  have hsteps := Path.steps_join_plain root (hins.plain ins (List.mem_singleton_self _))
  obtain ⟨hv, hsite, -, -⟩ := h.site
  obtain ⟨k, hroot⟩ := hp.root_leads
  have hleads := (h.part hst).leadsTo hroot
  have hR : e.get? R = some .dir := hleads.dir hst.wellFormed hst.wellFormed.start
  have hout : ∀ r, e.get? (R ++ ins :: r) = d.get? (R ++ ins :: r) := fun r =>
    h.outside hst (not_isWithin_other hne.symm r)
  have hpass : Passable e R [ins] := fun as n has hn => by
    rcases List.prefix_cons_iff.1 has with rfl | ⟨as, rfl, htail⟩
    · rw [List.append_nil, hR] at hn
      exact (Option.some.inj hn).symm
    · rw [List.prefix_nil.1 htail, hout] at hn
      cases n with
      | dir => rfl
      | file f => exact absurd hn (hfile f)
      | link t => exact absurd hn (hp.no_link t)
  obtain ⟨u, hfurn, hmk⟩ := makeDirs_child hst.wellFormed hcalm hleads hR hins hpass
  have hgrown : Grown e (· = R ++ [ins]) u := by
    refine ⟨hfurn.wellFormed, hfurn.start, hfurn.next, fun q => ?_⟩
    by_cases hq : q = R ++ [ins]
    · subst hq
      rw [hfurn.made _ rfl]
      cases hn : e.get? (R ++ [ins]) with
      | none => exact .inr ⟨rfl, rfl, rfl⟩
      | some n => exact .inl (by rw [hpass _ n (List.prefix_refl _) hn])
    · exact .inl (hfurn.kept q hq)
  have hdir := hfurn.made _ rfl
  obtain ⟨m, hscene⟩ := h.scene hsteps hp hne hst hgrown hdir (hins.short ins (List.mem_singleton_self _))
  obtain ⟨-, hdirect⟩ := h.direct hsteps hp hne hst hgrown hscene
  obtain ⟨_, _, _, _, _, husable, -⟩ := makeDir_ok h.made
  have hlist := list_calm hfurn.calm husable (hdirect.staging_leads.anywhere)
  have hmem : ∀ x, x ∈ order (u.children (R ++ [stg])) ↔ e.get? (R ++ [stg] ++ [x]) ≠ none :=
    fun x => by
      rw [(horder _).mem_iff, mem_children_iff]
      exact not_congr (by rw [staged_grown hgrown x []])
  obtain ⟨moved, rest, v, hnames, hmoving, hcalm', hend⟩ := hscene.moving.moveEntries_calm hscene hdirect
    hfurn.calm (fun x hx => hst.names x ((hmem x).1 hx)) (fun x hx => hmov x ((hmem x).1 hx))
    (fun x hx => by
      have := (hmem x).1 hx
      rwa [← staged_grown hgrown x []] at this)
    (by simpa using (horder _).nodup_iff.2 (hfurn.wellFormed.children_nodup _))
  rcases hend with ⟨rfl, hmoves⟩ | ⟨x, more, rfl, ⟨-, ⟨t, ht⟩, -⟩, -⟩
  · rw [List.append_nil] at hnames
    subst hnames
    refine ⟨u, m, _, v, hgrown, hdirect, hmoving.toMoved, hcalm', hdir, hmem, ?_⟩
    rw [moveIntoPlace, bind_apply, doing_calm hmk]
    simp only [bind_apply, doing_calm hlist]
    exact hmoves
  · -- a link that is in the way would have stood there before
    have hx : x ∉ moved := fun hx => by
      have hnodup := (horder _).nodup_iff.2 (hfurn.wellFormed.children_nodup (R ++ [stg]))
      rw [hnames, List.nodup_append] at hnodup
      exact hnodup.2.2 x hx x List.mem_cons_self rfl
    rw [hmoving.toMoved.target_eq hscene.not_within hx] at ht
    have hold := hgrown.eq_of_not_dir ht nofun
    rw [List.append_assoc, List.singleton_append, hout] at hold
    exact absurd (by simpa using hold) (hlinks x t)

/-- What a path with a plain last name leads to if a file stands there. -/
theorem find_through_file {A : Place → Prop} {base : Path} {P : Place} {m : Nat} {x : String}
    {f : FileData} (hl : d.LeadsTo A base m P) (hx : Accepted base [x])
    (hf : d.get? (P ++ [x]) = some (.file f)) :
    d.find .through (Path.join base x) = .ok (.node (P ++ [x]) (.file f)) := by
  have hplain := hx.plain x (List.mem_singleton_self _)
  have husable : Usable (Path.join base x) := hx.usable
  rw [find_of_usable husable, Path.steps_join_plain base hplain, hl.walk_append (by simp), walk_last,
    finish, endsInSlash_join base hplain, if_neg (by simp),
    if_neg (Nat.not_lt.2 (hx.short x (List.mem_singleton_self _))), hf]
  rfl

theorem isFile_of_find {p : Path} {q : Place} {f : FileData}
    (hf : d.find .through p = .ok (.node q (.file f))) : d.isFile p = true := by
  rw [isFile, node?, hf]

theorem makeExecutable_calm {p : Path} {q : Place} {f : FileData} (hcalm : d.faults = [])
    (hf : d.find .through p = .ok (.node q (.file f))) : makeExecutable p d =
      (.ok (), d.updateFile f.id fun f => { f with mode := f.mode ||| 0o755 }) := by
  have hmode : addMode p 0o755 d =
      (.ok (), d.updateFile f.id fun f => { f with mode := f.mode ||| 0o755 }) := by
    rw [addMode, attempt_calm hcalm]
    simp only [hf, Bind.bind, Except.bind]
    rfl
  simp only [makeExecutable, bind_apply, TaskM.ask]
  split <;> exact doing_calm hmode

/-- The entries that were staged on `e` are in place on `w`, one of them executable; the rest is as
it was on `d`. -/
structure Stowed (d e w : Disk) (P I : Place) (id : Nat) : Prop where
  start : w.workingDir = d.workingDir
  entries : ∀ x t, e.get? (P ++ [x]) ≠ none → w.get? (I ++ x :: t) =
    (e.get? (P ++ x :: t)).map (.updated id fun f => { f with mode := f.mode ||| 0o755 })
  dir : w.get? I = some .dir
  staging : w.get? P = some .dir
  kept : ∀ q, q ≠ I → isWithin P q = false →
    (∀ x, e.get? (P ++ [x]) ≠ none → isWithin (I ++ [x]) q = false) → w.get? q = d.get? q

/-- What was unpacked is installed with its program. -/
theorem Prepared.installStaged_calm {staging : Path} (h : Prepared d base root staging R stg)
    (hp : Plainly d root R ins) (hne : ins ≠ stg)
    (hlay : Archive.Layout base (R ++ [stg]) strip es e) {goOn : Nat → Except Error Unit}
    {items : List Archive.Item} (hu : Archive.unpack goOn staging strip items base = (.ok (), e))
    (hfile : ∀ f, d.get? (R ++ [ins]) ≠ some (.file f))
    (hlinks : ∀ x t, d.get? (R ++ [ins] ++ [x]) ≠ some (.link t)) (hins : Accepted root [ins])
    (hmov : ∀ x, e.get? (R ++ [stg] ++ [x]) ≠ none → Movable staging (Path.join root ins) x)
    {order : List String → List String} (horder : ∀ l, (order l).Perm l)
    (hexe : desc.executable = some program) {f : FileData}
    (hprogram : e.get? (R ++ [stg] ++ [program]) = some (.file f)) :
    ∃ w, installStaged goOn order desc strip (Path.join root ins) staging items base = (.ok (), w) ∧
      w.faults = [] ∧ Stowed d e w (R ++ [stg]) (R ++ [ins]) f.id := by
  have hst := hlay.toStagedAs
  obtain ⟨hv, hsite, hnext, -⟩ := h.site
  have hsome : e.get? (R ++ [stg] ++ [program]) ≠ none := by rw [hprogram]; exact nofun
  have hm := hmov program hsome
  have hplain := hst.names program hsome
  have hone : ∀ x ∈ [program], Path.Plain x ∧ (Text.utf8 x).length ≤ maxName := by
    simpa using ⟨hplain, hm.short⟩
  have hsource : Accepted staging [program] :=
    ⟨⟨hm.source, fun x hx => (hone x hx).2⟩, fun x hx => (hone x hx).1⟩
  have htarget : Accepted (Path.join root ins) [program] :=
    ⟨⟨hm.target, fun x hx => (hone x hx).2⟩, fun x hx => (hone x hx).1⟩
  obtain ⟨u, m, names, v, hgrown, hdirect, hmoved, hquiet, hdir, hnames, hrun⟩ :=
    h.moveIntoPlace_calm hp hne hst hlay.calm hfile hlinks hins hmov horder
  have hplace : ∀ x t, e.get? (R ++ [stg] ++ [x]) ≠ none →
      v.get? (R ++ [ins] ++ x :: t) = e.get? (R ++ [stg] ++ x :: t) := fun x t hx => by
    rw [hmoved.moved x ((hnames x).2 hx) t, staged_grown hgrown]
  obtain ⟨_, hstaging⟩ := hst.leads hsite
  have hthere := find_through_file hstaging hsource hprogram
  have hput : v.get? (R ++ [ins] ++ [program]) = some (.file f) := (hplace program [] hsome).trans hprogram
  have hfound := find_through_file (hmoved.steady.leadsTo hdirect.install_leads) htarget hput
  have hid : d.nextId ≤ f.id := hnext ▸ hst.files _ f (Below.snoc (isWithin_self _) program) hprogram
  refine ⟨v.updateFile f.id fun f => { f with mode := f.mode ||| 0o755 }, ?_, hquiet, ?_⟩
  · simp only [installStaged, bind_apply, hu, hexe, TaskM.ask, isFile_of_find hthere, Bool.not_true,
      Bool.false_eq_true, if_false, hrun]
    exact makeExecutable_calm hquiet hfound
  · have hkept : ∀ q, q ≠ R ++ [ins] → isWithin (R ++ [stg]) q = false →
        (∀ x, e.get? (R ++ [stg] ++ [x]) ≠ none → isWithin (R ++ [ins] ++ [x]) q = false) →
        v.get? q = d.get? q := fun q hI hP hx => by
      rw [hmoved.kept q (fun hb => Bool.eq_false_iff.1 hP hb.1) fun x hmem =>
        hx x ((hnames x).1 hmem)]
      rw [(hgrown.same q).resolve_right fun hnew => hI hnew.1, h.outside hst hP]
    have hinstall : v.get? (R ++ [ins]) = some .dir := by
      rw [hmoved.kept _ (fun hb => Bool.eq_false_iff.1 hdirect.apart hb.1) fun x _ =>
        Bool.eq_false_iff.2 fun hw => ?_, hdir]
      have hlen := isWithin_length hw
      simp at hlen
    refine ⟨?_, fun x t hx => ?_, ?_, ?_, fun q hI hP hx => ?_⟩
    · exact (hmoved.start.trans hgrown.start).trans (h.part hst).start.symm
    · rw [get?_updateFile, hplace x t hx]
    · rw [get?_updateFile, hinstall]
      rfl
    · rw [get?_updateFile, hmoved.dir (hgrown.has (by rw [hst.outside _ fun hb => hb.2 rfl, hsite.dir]))]
      rfl
    · rw [get?_updateFile, hkept q hI hP hx, h.wellFormed.map_updated hid]

end moves

/-- The install path is absent, or a tree of files and directories in a root that can be made. -/
structure Ground (d made : Disk) (root : Path) (R : Place) (ins : String) : Prop where
  wellFormed : d.WellFormed
  calm : d.faults = []
  rooted : makeDirs root d = (.ok (), made)
  plainly : Plainly made root R ins
  no_file : ∀ f, d.get? (R ++ [ins]) ≠ some (.file f)
  no_link : ∀ q t, isWithin (R ++ [ins]) q = true → d.get? q ≠ some (.link t)

/-- The program is missing, its release is fetched, and nobody stops the work. -/
structure Delivered (p : Provisioner) (env : ProvisionEnv) (desc : Descriptor) (d : Disk)
    (artifact : Artifact) (es : List Archive.Entry) : Prop where
  missing : p.isInstalled d desc = false
  offered : desc.artifact = some artifact
  fetched : ∃ deadline, env.now.add? env.timeout = some deadline ∧
    (env.fetch artifact.url deadline).result = .ok (es.map .entry) ∧
    ∀ n, (env.looks n).check deadline "extraction" = .ok ()
  order : ∀ l, (env.order l).Perm l

/-- The system takes all paths of an installation: those of the temporary entries, of which `tries`
may be looked for, those of what is unpacked and those of what is installed. -/
structure Fits (root : Path) (tries : Nat) (ins : String) (tree : List Place) : Prop where
  download : ∀ n ≤ tries, Taken root [numbered ".download-" ".tar.gz" n]
  staging : ∀ n ≤ tries, ∀ ns ∈ [] :: tree, Taken root (numbered ".staging-" "" n :: ns)
  install : ∀ ns ∈ [] :: tree, Taken root (ins :: ns)

/-- The release is in place with its program executable. Whatever has no name in it is as it was once
the root was `made`, so no temporary entry is left; and all of it that was there before still is. -/
structure Installed (d made after : Disk) (I : Place) (program : String) (strip : Nat)
    (es : List Archive.Entry) : Prop where
  entries : ∀ x t, Archive.contents strip es [x] ≠ none →
    (after.get? (I ++ x :: t)).map Node.anonymous = provided strip es program (x :: t)
  executable : ∃ f, after.get? (I ++ [program]) = some (.file f) ∧ f.mode &&& 0o111 = 0o111
  dir : after.get? I = some .dir
  kept : ∀ q, q ≠ I → (∀ x, Archive.contents strip es [x] ≠ none → isWithin (I ++ [x]) q = false) →
    after.get? q = made.get? q ∧ ∀ n, d.get? q = some n → after.get? q = some n

section provision

variable {p : Provisioner} {env : ProvisionEnv} {desc : Descriptor} {d made : Disk} {R : Place}
  {artifact : Artifact} {es : List Archive.Entry} {program s : String} {root : Path} {k : Nat}
  {A : Place → Prop}

theorem plain_numbered {start final : String} (hs : '/' ∉ start.toList)
    (hlen : 2 < start.toList.length) (hf : '/' ∉ final.toList) (n : Nat) :
    Path.Plain (numbered start final n) := plain_temporary hs hlen hf n

theorem head?_numbered {start : String} (hs : start.toList.head? = some '.') (final : String)
    (n : Nat) : (numbered start final n).toList.head? = some '.' := by
  obtain ⟨cs, hcs⟩ := List.head?_eq_some_iff.1 hs
  simp [numbered, hcs]

/-- What is found under its name in the root is taken away. -/
theorem without_eq (hl : d.LeadsTo A root k R) (hs : Accepted root [s]) {n : Node}
    (hn : d.get? (R ++ [s]) = some n) : d.without (Path.join root s) = d.erase (R ++ [s]) := by
  have husable : Usable (Path.join root s) := hs.usable
  have hfind := find_entry_eq husable
    (Path.steps_join_plain root (hs.plain s (List.mem_singleton_self _))) hl
    (hs.short s (List.mem_singleton_self _))
  rw [hn] at hfind
  rw [Disk.without, hfind]

/-- A file for the download is made under a free name. -/
theorem openDownload_calm (desc : Descriptor) (hmade : makeDirs p.root d = (.ok (), made))
    (hcalm : made.faults = []) (hl : made.LeadsTo A p.root k R)
    (hacc : ∀ j ≤ made.nodes.length, Accepted p.root [numbered ".download-" ".tar.gz" j]) :
    ∃ n ≤ made.nodes.length, made.get? (R ++ [numbered ".download-" ".tar.gz" n]) = none ∧
      p.openDownload desc d = (.ok (Path.join p.root (numbered ".download-" ".tar.gz" n)),
        p.record desc.backend .downloading,
        { made.set (R ++ [numbered ".download-" ".tar.gz" n]) (.file ⟨made.nextId, [], 0o600⟩) with
          nextId := made.nextId + 1 }) := by
  obtain ⟨n, hn, hpath, hfree⟩ := temporaryPath_free hl hacc
  have hfind := find_numbered hl (hacc n hn)
  rw [hfree] at hfind
  refine ⟨n, hn, hfree, ?_⟩
  simp only [Provisioner.openDownload, doing_calm hmade, Provisioner.record, hpath,
    doing_calm (createNew_vacant hcalm hfind 0o600)]

/-- The temporary entries of an installation were made in the root. -/
structure Workplace (made opened base : Disk) (root : Path) (R : Place) (dl stg : String) : Prop where
  wellFormed : made.WellFormed
  prepared : Prepared opened base root (Path.join root stg) R stg
  calm : base.faults = []
  alike : Alike made opened
  same : ∀ q, q ≠ R ++ [dl] → opened.get? q = made.get? q
  free : made.get? (R ++ [dl]) = none
  download : ∃ f, opened.get? (R ++ [dl]) = some (.file f)

variable {opened base e w : Disk} {dl stg ins : String} {id : Nat}

theorem Workplace.apart (h : Workplace made opened base root R dl stg) : dl ≠ stg := by
  rintro rfl
  obtain ⟨f, hf⟩ := h.download
  rw [h.prepared.site.1] at hf
  cases hf

theorem Workplace.get?_of_aside (h : Workplace made opened base root R dl stg) {q : Place}
    (hq : isWithin (R ++ [dl]) q = false) : opened.get? q = made.get? q := by
  refine h.same q ?_
  rintro rfl
  rw [isWithin_self] at hq
  cases hq

/-- Nothing is left of the temporary entries, and nothing else is touched when they go. -/
theorem Workplace.get?_final (h : Workplace made opened base root R dl stg)
    (hp : Plainly made root R ins) (hw : Stowed opened e w (R ++ [stg]) (R ++ [ins]) id)
    (hdl : Accepted root [dl]) (hstg : Accepted root [stg]) (hdlins : ins ≠ dl) (q : Place) :
    ((w.without (Path.join root stg)).without (Path.join root dl)).get? q =
      if isWithin (R ++ [dl]) q = true ∨ isWithin (R ++ [stg]) q = true then none else w.get? q := by
  have hout : ∀ r, isWithin (R ++ [stg]) r = false → isWithin (R ++ [ins]) r = false →
      w.get? r = opened.get? r := fun r hP hI => by
    refine hw.kept r ?_ hP fun x _ => ?_
    · rintro rfl
      rw [isWithin_self] at hI
      cases hI
    · exact Bool.eq_false_iff.2 fun hx => Bool.eq_false_iff.1 hI
        (isWithin_trans (isWithin_append _ [x]) hx)
  have hleads : ∀ f : Disk, f.workingDir = w.workingDir →
      (∀ r, isWithin (R ++ [stg]) r = false → f.get? r = w.get? r) →
        ∃ k, f.LeadsTo Anywhere root k R := by
    intro f hstart hsame
    obtain ⟨k, hl⟩ := hp.root_leads
    refine ⟨k, ?_⟩
    rw [LeadsTo, hstart, hw.start, ← h.alike.start]
    refine hl.mono fun r n hr hn hfile => ⟨trivial, ?_⟩
    have hopened := (h.alike.same r n hfile).1 hn
    have hP : isWithin (R ++ [stg]) r = false := Bool.eq_false_iff.2 fun hin => by
      obtain ⟨t, rfl⟩ := isWithin_iff.1 hin
      rw [h.prepared.wellFormed.of_vacant h.prepared.site.1] at hopened
      cases hopened
    rw [hsame r hP, hout r hP hr, hopened]
  obtain ⟨k, hl⟩ := hleads w rfl fun _ _ => rfl
  have herase : ∀ r, isWithin (R ++ [stg]) r = false → (w.erase (R ++ [stg])).get? r = w.get? r :=
    fun r hr => by rw [get?_erase, if_neg fun hin => Bool.eq_false_iff.1 hr hin.2]
  obtain ⟨k', hl'⟩ := hleads (w.erase (R ++ [stg])) rfl herase
  obtain ⟨f, hf⟩ := h.download
  have hdlP : isWithin (R ++ [stg]) (R ++ [dl]) = false := not_isWithin_other h.apart.symm []
  have hthere : (w.erase (R ++ [stg])).get? (R ++ [dl]) = some (.file f) := by
    rw [herase _ hdlP, hout _ hdlP (not_isWithin_other hdlins []), hf]
  rw [without_eq hl hstg hw.staging, without_eq hl' hdl hthere, get?_erase, get?_erase]
  by_cases hnil : q = []
  · subst hnil
    have hno : ∀ s : String, ¬ isWithin (R ++ [s]) [] = true := fun s hin => by
      have hlen := isWithin_length hin
      simp at hlen
    simp [hno]
  · by_cases h1 : isWithin (R ++ [dl]) q = true <;> by_cases h2 : isWithin (R ++ [stg]) q = true <;>
      simp [hnil, h1, h2]

/-- Only the program is given more permissions. -/
theorem anonymous_updated {strip : Nat} {P : Place} {f : FileData}
    (hlay : Archive.Layout base P strip es e) (hf : e.get? (P ++ [program]) = some (.file f))
    {q : Place} (hq : q ≠ []) :
    ((e.get? (P ++ q)).map (.updated f.id fun f => { f with mode := f.mode ||| 0o755 })).map
      Node.anonymous = provided strip es program q := by
  rw [provided, ← hlay.shows q hq]
  cases hn : e.get? (P ++ q) with
  | none => simp
  | some n =>
    cases n with
    | file g =>
      by_cases hid : g.id = f.id
      · have hname : q = [program] := hlay.own q [program] g f hn hf hid
        simp [hname, Node.updated, Node.anonymous, Node.permitting, hid]
      · have hname : q ≠ [program] := by
          rintro rfl
          rw [hf] at hn
          cases hn
          exact hid rfl
        simp [hname, Node.updated, Node.anonymous, hid]
    | dir => simp [Node.updated, Node.anonymous, Node.permitting]
    | link t => simp [Node.updated, Node.anonymous, Node.permitting]

theorem executable_bits (mode : Nat) : (mode ||| 0o755) &&& 0o111 = 0o111 := by
  refine Nat.eq_of_testBit_eq fun i => ?_
  have hbit : (0o755 &&& 0o111 : Nat).testBit i = (0o111 : Nat).testBit i := rfl
  rw [Nat.testBit_and] at hbit
  rw [Nat.testBit_and, Nat.testBit_or, Bool.and_or_distrib_right, hbit]
  cases (0o111 : Nat).testBit i <;> simp

theorem Workplace.installed (h : Workplace made opened base root R dl stg) {strip : Nat} {f : FileData}
    (hg : Ground d made root R ins) (hlay : Archive.Layout base (R ++ [stg]) strip es e)
    (hf : e.get? (R ++ [stg] ++ [program]) = some (.file f))
    (hw : Stowed opened e w (R ++ [stg]) (R ++ [ins]) f.id) (hdl : Accepted root [dl])
    (hstg : Accepted root [stg]) (hdlins : ins ≠ dl) (hstgins : ins ≠ stg) :
    Installed d made ((w.without (Path.join root stg)).without (Path.join root dl)) (R ++ [ins])
      program strip es := by
  have hfinal := h.get?_final hg.plainly hw hdl hstg hdlins
  have hin : ∀ t, ((w.without (Path.join root stg)).without (Path.join root dl)).get?
      (R ++ [ins] ++ t) = w.get? (R ++ [ins] ++ t) := fun t => by
    rw [hfinal, List.append_assoc, if_neg]
    rw [not_or]
    exact ⟨Bool.eq_false_iff.1 (not_isWithin_other hdlins.symm t),
      Bool.eq_false_iff.1 (not_isWithin_other hstgins.symm t)⟩
  have htop : ∀ x, e.get? (R ++ [stg] ++ [x]) ≠ none ↔ Archive.contents strip es [x] ≠ none := fun x => by
    rw [← hlay.shows [x] (List.cons_ne_nil x []), ne_eq, ne_eq, Option.map_eq_none_iff]
  have hempty : ∀ t, opened.get? (R ++ [stg] ++ t) = none :=
    h.prepared.wellFormed.of_vacant h.prepared.site.1
  have hkept : ∀ q, q ≠ R ++ [ins] →
      (∀ x, Archive.contents strip es [x] ≠ none → isWithin (R ++ [ins] ++ [x]) q = false) →
      ((w.without (Path.join root stg)).without (Path.join root dl)).get? q = made.get? q := by
    intro q hI hx
    rw [hfinal]
    split
    · next hw =>
      rcases hw with hw | hw <;> obtain ⟨t, rfl⟩ := isWithin_iff.1 hw
      · rw [h.wellFormed.of_vacant h.free]
      · rw [← h.get?_of_aside, hempty]
        rw [List.append_assoc]
        exact not_isWithin_other h.apart t
    · next hw' =>
      rw [not_or, Bool.not_eq_true, Bool.not_eq_true] at hw'
      rw [hw.kept q hI hw'.2 fun x hne => hx x ((htop x).1 hne), h.get?_of_aside hw'.1]
  refine ⟨fun x t hx => ?_, ?_, ?_, fun q hI hx => ⟨hkept q hI hx, fun n hn => ?_⟩⟩
  · rw [hin, hw.entries x t ((htop x).2 hx), anonymous_updated hlay hf (List.cons_ne_nil x t)]
  · refine ⟨{ f with mode := f.mode ||| 0o755 }, ?_, executable_bits f.mode⟩
    rw [hin, hw.entries program [] (by rw [hf]; exact nofun), hf]
    simp [Node.updated]
  · have hI := hin []
    rw [List.append_nil] at hI
    rw [hI, hw.dir]
  · rw [hkept q hI hx, (grown_of_makeDirs hg.wellFormed hg.rooted).has hn]

theorem names_plain {strip : Nat} (hs : Archive.Sound strip es) {x : Archive.Entry} (hx : x ∈ es) :
    ∀ a ∈ x.names strip, Path.Plain a := (Archive.Entry.of_fault?_eq_none (hs.fault? hx)).1

/-- The temporary entries are made where nothing stands. -/
theorem Ground.workplace (desc : Descriptor) (hg : Ground d made p.root R ins)
    (hdl : ∀ n ≤ made.nodes.length + 1, Accepted p.root [numbered ".download-" ".tar.gz" n])
    (hstg : ∀ n ≤ made.nodes.length + 1, Accepted p.root [numbered ".staging-" "" n]) :
    ∃ n ≤ made.nodes.length + 1, ∃ j ≤ made.nodes.length + 1, ∃ opened base,
      Workplace made opened base p.root R (numbered ".download-" ".tar.gz" n)
        (numbered ".staging-" "" j) ∧
      p.openDownload desc d = (.ok (Path.join p.root (numbered ".download-" ".tar.gz" n)),
        p.record desc.backend .downloading, opened) ∧
      opened.temporaryPath p.root ".staging-" "" = Path.join p.root (numbered ".staging-" "" j) := by
  obtain ⟨k, hroot⟩ := hg.plainly.root_leads
  have hmade : made.WellFormed := (grown_of_makeDirs hg.wellFormed hg.rooted).wellFormed
  have hcalm : made.faults = [] := (keeps_calm_makeDirs p.root d hg.calm _ _ hg.rooted).1
  obtain ⟨n, hn, hfree, hopen⟩ := openDownload_calm desc hg.rooted hcalm hroot
    fun j hj => hdl j (by omega)
  have hplain := (hdl n (by omega)).plain _ (List.mem_singleton_self _)
  have hfind := find_numbered hroot (hdl n (by omega))
  rw [hfree] at hfind
  obtain ⟨howf, halike, hsame, -⟩ := near_download hmade hroot.anywhere
    (Path.steps_join_plain p.root hplain) hfind made.faults 0o600
  have hquiet : ({ made.set (R ++ [numbered ".download-" ".tar.gz" n])
      (.file ⟨made.nextId, [], 0o600⟩) with nextId := made.nextId + 1 } : Disk).faults = [] :=
    (faults_set _ _ _).trans hcalm
  have hlen : ({ made.set (R ++ [numbered ".download-" ".tar.gz" n])
      (.file ⟨made.nextId, [], 0o600⟩) with nextId := made.nextId + 1 } : Disk).nodes.length =
        made.nodes.length + 1 := by
    simp [nodes_set (by simp) hfree]
  have hl := halike.leadsTo hroot
  have htried := hstg
  rw [← hlen] at htried
  obtain ⟨j, hj, hpath, hvacant⟩ := temporaryPath_free hl htried
  rw [hlen] at hj
  have hstaging := find_numbered hl (hstg j hj)
  rw [hvacant] at hstaging
  have hmk := makeDir_vacant hquiet hstaging
  refine ⟨n, by omega, j, hj, _, _, ⟨hmade, ⟨howf, ⟨k, hl.anywhere⟩, ?_, hmk⟩,
    (faults_set _ _ _).trans hquiet, halike, hsame, hfree, ?_⟩, hopen, hpath⟩
  · exact Path.steps_join_plain p.root ((hstg j hj).plain _ (List.mem_singleton_self _))
  · exact ⟨_, (get?_set (by simp) _ _).trans (if_pos rfl)⟩

/-- Whatever stands at the install path when the work begins stood there before. -/
theorem Ground.of_opened (hg : Ground d made root R ins) (hplace : Workplace made opened base root R dl stg)
    (hdlins : ins ≠ dl) {t : Place} {n : Node} (hn : opened.get? (R ++ ins :: t) = some n)
    (hdir : n ≠ .dir) : d.get? (R ++ ins :: t) = some n := by
  rw [hplace.get?_of_aside (not_isWithin_other hdlins.symm t)] at hn
  exact (grown_of_makeDirs hg.wellFormed hg.rooted).eq_of_not_dir hn hdir

/-- A sound release that is fetched and holds its program is installed when nothing fails, whatever
stood at the install path before. -/
theorem provision_installs (hg : Ground d made p.root R desc.installDir)
    (hdel : Delivered p env desc d artifact es) (hdesc : PlainNames desc)
    (hdot : desc.installDir.toList.head? ≠ some '.') (hs : Archive.Sound artifact.strip es)
    (hexe : desc.executable = some program)
    (hprogram : ∃ e ∈ es, e.isDir = false ∧ e.names artifact.strip = [program])
    (hfits : Fits p.root (made.nodes.length + 1) desc.installDir (es.map (·.names artifact.strip))) :
    (p.provision env desc d).1 = .ok (p.installPath desc) ∧
      Installed d made (p.provision env desc d).2.2 (R ++ [desc.installDir]) program artifact.strip
        es := by
  obtain ⟨deadline, hclock, hfetch, hgo⟩ := hdel.fetched
  have hdl : ∀ n ≤ made.nodes.length + 1, Accepted p.root [numbered ".download-" ".tar.gz" n] :=
    fun n hn => ⟨hfits.download n hn, by
      simpa using plain_numbered (by decide) (by decide) (by decide) n⟩
  have htree : ∀ ns ∈ [] :: es.map (·.names artifact.strip), ∀ a ∈ ns, Path.Plain a := by
    intro ns hns a ha
    rcases List.mem_cons.1 hns with rfl | hns
    · cases ha
    · obtain ⟨x, hx, rfl⟩ := List.mem_map.1 hns
      exact names_plain hs hx a ha
  have hstg : ∀ n ≤ made.nodes.length + 1, ∀ ns ∈ [] :: es.map (·.names artifact.strip),
      Accepted p.root (numbered ".staging-" "" n :: ns) := fun n hn ns hns =>
    ⟨hfits.staging n hn ns hns, List.forall_mem_cons.2
      ⟨plain_numbered (by decide) (by decide) (by decide) n, htree ns hns⟩⟩
  have hins : ∀ ns ∈ [] :: es.map (·.names artifact.strip), Accepted p.root (desc.installDir :: ns) :=
    fun ns hns => ⟨hfits.install ns hns, List.forall_mem_cons.2 ⟨hdesc.installDir, htree ns hns⟩⟩
  obtain ⟨n, hn, j, hj, opened, base, hplace, hopen, hpath⟩ := hg.workplace desc hdl
    fun n hn => hstg n hn [] List.mem_cons_self
  have hnotdot : ∀ (start : String), start.toList.head? = some '.' → ∀ (final : String) n,
      desc.installDir ≠ numbered start final n := fun start hstart final n he =>
    hdot (he ▸ head?_numbered hstart final n)
  have hdlins := hnotdot ".download-" rfl ".tar.gz" n
  have hstgins := hnotdot ".staging-" rfl "" j
  have hmem : ∀ x ∈ es, x.names artifact.strip ∈ [] :: es.map (·.names artifact.strip) := fun x hx =>
    List.mem_cons_of_mem _ (List.mem_map_of_mem hx)
  have hbare := hstg j hj [] List.mem_cons_self
  obtain ⟨e, hu, hlay⟩ := Archive.unpack_calm hplace.prepared.site.2.1 hplace.calm
    (hbare.plain _ (List.mem_singleton_self _)) hs hgo (fun x hx => (hstg j hj _ (hmem x hx)).of_cons)
    (hprogram.imp fun x hx => ⟨hx.1, by rw [hx.2.2]; exact List.cons_ne_nil _ _⟩)
  obtain ⟨x, hx, hfile, hname⟩ := hprogram
  obtain ⟨f, hf⟩ : ∃ f, e.get? (R ++ [numbered ".staging-" "" j] ++ [program]) = some (.file f) := by
    obtain ⟨g, hg⟩ := Archive.contents_of_file hx hfile hname
    rw [← hlay.shows [program] (List.cons_ne_nil _ _), Option.map_eq_some_iff] at hg
    obtain ⟨n, hn, hanon⟩ := hg
    cases n with
    | file f => exact ⟨f, hn⟩
    | _ => cases hanon
  have hmov : ∀ y, e.get? (R ++ [numbered ".staging-" "" j] ++ [y]) ≠ none →
      Movable (Path.join p.root (numbered ".staging-" "" j)) (Path.join p.root desc.installDir) y := by
    intro y hy
    have hsome : Archive.contents artifact.strip es [y] ≠ none := by
      rw [← hlay.shows [y] (List.cons_ne_nil _ _)]
      simpa using hy
    obtain ⟨z, hz, hw⟩ := Archive.exists_within hsome
    obtain ⟨rest, hrest⟩ := isWithin_iff.1 hw
    have hsource := (hstg j hj _ (hmem z hz)).of_cons
    have htarget := (hins _ (hmem z hz)).of_cons
    rw [hrest] at hsource htarget
    have hsource' := hsource.of_append (join_ne_empty _ (hbare.plain _ (List.mem_singleton_self _)))
    have htarget' := htarget.of_append (join_ne_empty _ hdesc.installDir)
    exact ⟨hsource'.usable, htarget'.usable, hsource'.short y (List.mem_singleton_self _)⟩
  have hplain := hg.plainly.alike hplace.alike
  obtain ⟨w, hinstall, -, hstowed⟩ := hplace.prepared.installStaged_calm hplain hstgins hlay hu
    (fun g hn => hg.no_file g (hg.of_opened hplace hdlins hn nofun))
    (fun y t hn => hg.no_link _ t (isWithin_append _ [y]) (by
      rw [List.append_assoc] at hn ⊢
      exact hg.of_opened hplace hdlins hn nofun))
    (hins [] List.mem_cons_self) hmov hdel.order hexe hf
  have hmk := hplace.prepared.made
  rw [← hpath] at hmk hinstall
  obtain ⟨hresult, hfinal⟩ := provision_of_install hdel.missing hdel.offered hclock hopen rfl hfetch
    (install_of_makeDir hmk hinstall)
  refine ⟨hresult, ?_⟩
  rw [hfinal, hpath]
  exact hplace.installed hg hlay hf hstowed (hdl n hn) hbare hdlins hstgins

end provision

/-! A release over an older one -/

/-- An older release without the program: a file where a directory is to come, a directory where a file
is to come, and a file of another name. -/
def older : Disk where
  nodes := [(["r"], .dir), (["r", "xmrig"], .dir), (["r", "xmrig", "lib"], .file ⟨0, [1], 0o644⟩),
    (["r", "xmrig", "doc"], .dir), (["r", "xmrig", "doc", "a"], .file ⟨1, [2], 0o644⟩),
    (["r", "xmrig", "kept"], .file ⟨2, [3], 0o600⟩)]
  nextId := 3

/-- A release with the program in it twice. -/
def newer : List Archive.Entry :=
  [⟨"v/lib/x", .file, 0o644, [4], ""⟩, ⟨"v/doc", .file, 0o640, [5], ""⟩,
    ⟨"v/xmrig", .file, 0o600, [6], ""⟩, ⟨"v/lib", .dir, 0o755, [], ""⟩,
    ⟨"v/xmrig", .file, 0o600, [7], ""⟩]

def updated : Except Halt Path × Provisioner × Disk :=
  (provisioner "/r").provision (delivering (newer.map .entry)) Backend.xmrig.descriptor older

theorem sound_newer : Archive.Sound 1 newer where
  kind := by decide
  plain := by
    have hall : ∀ e ∈ newer, ∀ c ∈ Archive.stripped 1 e.name, (Archive.plainName? c).isSome = true := by
      decide
    intro e he c hc
    obtain ⟨s, hs⟩ := Option.isSome_iff_exists.1 (hall e he c hc)
    exact ⟨s, Archive.plainName?_eq_some hs⟩
  apart := by decide

theorem wellFormed_older : older.WellFormed :=
  wellFormed_of_nodes (by decide) rfl (by simp [older]) (by decide)

theorem ground_older : Ground older older "/r" ["r"] "xmrig" where
  wellFormed := wellFormed_older
  calm := rfl
  rooted := eq_ok_of_toBool (by decide +kernel)
  plainly := ⟨⟨maxLinks, .head .root (.single (.down (by decide) rfl rfl))⟩, nofun⟩
  no_file := nofun
  no_link := fun q t _ ht => by
    have hq : q ≠ [] := by
      rintro rfl
      cases ht
    simpa [older] using mem_nodes_of_get? hq ht

theorem names_newer :
    newer.map (·.names 1) = [["lib", "x"], ["doc"], ["xmrig"], ["lib"], ["xmrig"]] := by
  decide

theorem fits_newer : Fits "/r" (older.nodes.length + 1) "xmrig" (newer.map (·.names 1)) := by
  have hlen : older.nodes.length + 1 = 7 := rfl
  rw [names_newer, hlen]
  exact ⟨by decide +kernel, by decide +kernel, by decide +kernel⟩

theorem delivered_newer {artifact : Artifact}
    (hart : Backend.xmrig.descriptor.artifact = some artifact) :
    Delivered (provisioner "/r") (delivering (newer.map .entry)) Backend.xmrig.descriptor older artifact
      newer := by
  have hmissing : (provisioner "/r").isInstalled older Backend.xmrig.descriptor = false := by
    decide
  have hclock : (delivering (newer.map .entry)).now.add? (delivering (newer.map .entry)).timeout =
      some ⟨60, 0⟩ := by
    decide
  have hlook : Look.check ⟨⟨0, 0⟩, false⟩ ⟨60, 0⟩ "extraction" = .ok () := rfl
  exact ⟨hmissing, hart, ⟨_, hclock, rfl, fun _ => hlook⟩, fun l => .refl l⟩

theorem provision_installs_newer : updated.1 = .ok "/r/xmrig" ∧
    Installed older older updated.2.2 ["r", "xmrig"] "xmrig" 1 newer := by
  obtain ⟨artifact, hart, hstrip⟩ :
      ∃ a, Backend.xmrig.descriptor.artifact = some a ∧ a.strip = 1 := ⟨_, rfl, rfl⟩
  have hprogram : ∃ e ∈ newer, e.isDir = false ∧ e.names 1 = ["xmrig"] := by decide
  have hsound := sound_newer
  rw [← hstrip] at hprogram hsound
  have hfits : Fits "/r" (older.nodes.length + 1) "xmrig" (newer.map (·.names artifact.strip)) :=
    hstrip.symm ▸ fits_newer
  have hpath : (provisioner "/r").installPath Backend.xmrig.descriptor = "/r/xmrig" := by
    decide
  have hdot : Backend.xmrig.descriptor.installDir.toList.head? ≠ some '.' := by decide
  have hground : Ground older older (provisioner "/r").root ["r"] Backend.xmrig.descriptor.installDir :=
    ground_older
  have h := provision_installs hground (delivered_newer hart) (plainNames_descriptor .xmrig) hdot
    hsound rfl hprogram hfits
  rw [hpath] at h
  rw [updated, ← hstrip]
  exact h

end Provision
end RigWarden
