import RigWarden.Proofs.Provision.Containment
import RigWarden.Proofs.Provision.Records
import RigWarden.Provision.Turns

/-!
# Failures that leave no trace

Nothing is moved before a release was fetched, unpacked to its end and found to hold the executable,
and moving fails for reasons of the file system only. What was made up to then are two temporary
entries at free places, and each of them is taken away from the place where it was made. So a call
that fails before that leaves the disk as it was, with the directories on the way to the root.
-/

namespace RigWarden

open Disk

/-! Failures of the file system -/

/-- A procedure that fails for reasons of the file system only. -/
def FailsIo {α : Type} (x : TaskM α) : Prop := ∀ d e after, x d = (.error e, after) → e.kind = .io

namespace FailsIo

variable {α β : Type}

theorem doing (what : String) (op : DiskM α) : FailsIo (TaskM.doing what op) := by
  intro d e after h
  unfold TaskM.doing at h
  rcases hop : op d with ⟨_ | _, mid⟩ <;> rw [hop] at h <;> cases h
  rfl

theorem ask (f : Disk → α) : FailsIo (TaskM.ask f) := by
  intro d e after h
  cases h

theorem pure (a : α) : FailsIo (Pure.pure a : TaskM α) := by
  intro d e after h
  cases h

theorem bind {x : TaskM α} {f : α → TaskM β} (hx : FailsIo x) (hf : ∀ a, FailsIo (f a)) :
    FailsIo (x >>= f) := by
  intro d e after h
  rcases bind_cases h with ⟨_, he, hxd⟩ | ⟨a, mid, -, hfa⟩
  · cases he
    exact hx d e after hxd
  · exact hf a mid e after hfa

end FailsIo

namespace Provision

theorem failsIo_clear (target : Path) : FailsIo (clear target) := by
  unfold clear
  refine .bind (.ask _) fun dir => ?_
  cases dir with
  | true => exact .doing _ _
  | false =>
    refine .bind (.ask _) fun found => ?_
    cases found with
    | true => exact .doing _ _
    | false => exact .pure ()

theorem failsIo_moveEntries (staging install : Path) (names : List String) :
    FailsIo (moveEntries staging install names) := by
  induction names with
  | nil => exact .pure ()
  | cons name names ih =>
    unfold moveEntries
    refine .bind ?_ fun _ => ih
    rw [moveEntry_eq]
    exact .bind (failsIo_clear _) fun _ => .doing _ _

theorem failsIo_moveIntoPlace (order : List String → List String) (staging install : Path) :
    FailsIo (moveIntoPlace order staging install) := by
  unfold moveIntoPlace
  exact .bind (.doing _ _) fun _ => .bind (.doing _ _) fun _ => failsIo_moveEntries _ _ _

theorem failsIo_makeExecutable (p : Path) : FailsIo (makeExecutable p) := by
  unfold makeExecutable
  refine .bind (.ask _) fun found => ?_
  cases found <;> exact .doing _ _

/-- An installation that fails for another reason has only unpacked. -/
theorem unpacked_of_installStaged {goOn : Nat → Except Error Unit} {order : List String → List String}
    {desc : Descriptor} {strip : Nat} {install staging : Path} {items : List Archive.Item}
    {d after : Disk} {e : Error} (hkind : e.kind ≠ .io)
    (h : installStaged goOn order desc strip install staging items d = (.error e, after)) :
    ∃ r, Archive.unpack goOn staging strip items d = (r, after) := by
  have hmoved : ∀ {mid}, moveIntoPlace order staging install mid ≠ (.error e, after) := fun hm =>
    hkind (failsIo_moveIntoPlace _ _ _ _ _ _ hm)
  rcases installStaged_cases h with ⟨_, -, hu⟩ | ⟨mid, hu, hrest⟩
  · exact ⟨_, hu⟩
  rcases hrest with ⟨-, hm⟩ | ⟨name, -, ⟨-, -, rfl⟩ | ⟨-, ⟨_, he, hm⟩ | ⟨_, -, hx⟩⟩⟩
  · exact absurd hm hmoved
  · exact ⟨_, hu⟩
  · cases he
    exact absurd hm hmoved
  · exact absurd (failsIo_makeExecutable _ _ _ _ hx) hkind

/-! Temporary entries -/

section temporary

variable {d e base : Disk} {p staging : Path} {place P : Place}

/-- What was made at a free place is found there, and is taken away from there. -/
theorem same_without (hd : d.WellFormed) (hf : d.find .entry p = .ok (.vacant place))
    (hstart : e.workingDir = d.workingDir) (hmade : e.get? place ≠ none)
    (hout : ∀ q, isWithin place q = false → e.get? q = d.get? q) : Same d (e.without p) := by
  obtain ⟨cs, s, m, dir, hcs, hl, rfl, hv, hs⟩ := walk_entry_vacant (walk_of_find hf)
  have hinside : ∀ q, isWithin (dir ++ [s]) q = true → d.get? q = none := fun q hq => by
    obtain ⟨r, rfl⟩ := isWithin_iff.1 hq
    exact hd.of_vacant hv r
  have hl' : e.Leads Anywhere maxLinks e.workingDir cs m dir := by
    rw [hstart]
    refine hl.mono fun q n _ hn _ => ⟨trivial, ?_⟩
    rw [hout q (Bool.eq_false_iff.2 fun hq => ?_), hn]
    rw [hinside q hq] at hn
    cases hn
  obtain ⟨n, hn⟩ := Option.ne_none_iff_exists'.1 hmade
  have hfound := find_entry_eq (usable_of_find hf) hcs hl' hs
  rw [hn] at hfound
  refine ⟨?_, fun q => ?_⟩
  · rw [Disk.without, hfound]
    exact hstart
  · rw [Disk.without, hfound]
    simp only [get?_erase]
    by_cases hq : isWithin (dir ++ [s]) q = true
    · have hne : q ≠ [] := fun hnil => absurd (eq_of_isWithin (hnil ▸ hq) (Nat.zero_le _)) (by simp)
      rw [if_pos ⟨hne, hq⟩, hinside q hq]
    · rw [if_neg fun hw => hq hw.2, hout q (Bool.eq_false_iff.2 hq)]

/-- Whatever was unpacked goes with the staging directory. -/
theorem same_without_staging (hd : d.WellFormed) (hmk : makeDir staging d = (.ok (), base))
    {goOn : Nat → Except Error Unit} {strip : Nat} {items : List Archive.Item} {r : Except Error Unit}
    (hu : Archive.unpack goOn staging strip items base = (r, e)) : Same d (e.without staging) := by
  obtain ⟨cs, s, m, dir, hcs, hl, hv, hsite, -, hget⟩ := site_of_makeDir hd hmk
  obtain ⟨fs, cs', s', m', dir', husable, hcs', -, -, hs', hbase⟩ := makeDir_ok hmk
  have hst := (Archive.keeps_unpack hsite goOn strip items base hsite.staged r e hu).1
  obtain ⟨-, hname⟩ := List.append_inj' (hcs.symm.trans hcs') rfl
  cases hname
  have hf := find_entry_eq husable hcs hl hs'
  rw [hv] at hf
  refine same_without hd hf ?_ ?_ fun q hq => ?_
  · rw [hst.start, hbase, workingDir_set]
  · simp [hst.outside _ fun hb => hb.2 rfl, hsite.dir]
  · rw [hst.outside q fun hb => Bool.eq_false_iff.1 hq hb.1, hget, if_neg]
    rintro rfl
    rw [isWithin_self] at hq
    cases hq

end temporary

section calls

variable {p p' : Provisioner} {env : ProvisionEnv} {desc : Descriptor} {artifact : Artifact}
  {deadline : Clock} {d after : Disk} {e : Error}

theorem same_of_install {goOn : Nat → Except Error Unit} {order : List String → List String}
    {strip : Nat} {root : Path} {items : List Archive.Item} (hd : d.WellFormed)
    (hkind : e.kind ≠ .io) (h : install goOn order desc strip root items d = (.error e, after)) :
    Same d after := by
  unfold install at h
  rcases bind_cases h with ⟨_, -, hask⟩ | ⟨_, mid, hask, h⟩
  · cases hask
  cases hask
  rcases bind_cases h with ⟨_, he, hmk⟩ | ⟨⟨⟩, base, hmk, h⟩
  · cases he
    exact absurd (FailsIo.doing _ _ _ _ _ hmk) hkind
  unfold TaskM.removing at h
  rcases hi : installStaged goOn order desc strip (desc.installPath root)
    (d.temporaryPath root ".staging-" "") items base with ⟨r, last⟩
  simp only [hi] at h
  cases h
  obtain ⟨r, hu⟩ := unpacked_of_installStaged hkind hi
  exact same_without_staging hd (doing_ok hmk) hu

/-- The download that was opened is taken away from what holds it and is else as it was. -/
theorem same_without_download {made opened last : Disk} {download : Path}
    {fs : List (Option SystemError)} {place : Place} (hd : made.WellFormed)
    (hf : made.find .entry download = .ok (.vacant place))
    (hopened : opened = { { made with faults := fs }.set place (.file ⟨made.nextId, [], 0o600⟩) with
      nextId := made.nextId + 1 })
    (hlast : Same opened last) : Same made (last.without download) := by
  obtain ⟨_, s, _, dir, -, -, rfl, -⟩ := walk_entry_vacant (walk_of_find hf)
  have hget : ∀ q, last.get? q =
      if q = dir ++ [s] then some (.file ⟨made.nextId, [], 0o600⟩) else made.get? q := fun q => by
    rw [hlast.get?, hopened]
    exact get?_set (by simp) _ q
  refine same_without hd hf ?_ ?_ fun q hq => ?_
  · rw [hlast.start, hopened]
    exact workingDir_set _ _ _
  · simp [hget]
  · rw [hget, if_neg]
    rintro rfl
    rw [isWithin_self] at hq
    cases hq

theorem same_of_fetchAndInstall {made : Disk} {m : Except SystemError Unit}
    (hmk : makeDirs p.root d = (m, made)) (hd : made.WellFormed)
    (hearly : e.kind ≠ .io ∨ ∃ e', (env.fetch artifact.url deadline).result = .error e')
    (h : p.fetchAndInstall env desc artifact deadline d = (.error e, p', after)) :
    Same made after := by
  unfold Provisioner.fetchAndInstall at h
  rcases ho : p.openDownload desc d with ⟨_ | download, q, opened⟩ <;> rw [ho] at h
  · cases h
    rcases openDownload_cases ho with ⟨_, fs, -, rfl⟩ | ⟨_, _, _, _, _, -, hr, -⟩
    · rw [hmk]
      exact same_withFaults made fs
    · cases hr
  rcases openDownload_cases ho with ⟨_, _, hr, -⟩ | ⟨made', s, _, fs, place, hmk', hr, hq, -, -, hf, hopened⟩
  · cases hr
  cases hr
  rw [hmk] at hmk'
  cases hmk'
  simp only at h
  rcases hfetch : q.fetch env desc artifact deadline with ⟨_ | items, q'⟩ <;> rw [hfetch] at h
  · cases h
    exact same_without_download hd hf hopened (.refl _)
  · have hkind : e.kind ≠ .io := hearly.resolve_right fun ⟨e', he⟩ => by
      simp [Provisioner.fetch, he] at hfetch
    simp only at h
    rcases hi : q'.install env desc artifact deadline items opened with ⟨r, last⟩
    rw [hi] at h
    cases h
    have howf : opened.WellFormed := by
      obtain ⟨_, _, _, dir, -, hl, rfl, hv, -⟩ := walk_entry_vacant (walk_of_find hf)
      rw [hopened]
      refine (hd.withFaults fs).create hv ?_
      rw [List.dropLast_concat]
      exact hl.dir hd hd.start
    exact same_without_download hd hf hopened (same_of_install howf hkind hi)

/-- A path without a step up goes down from where the first directory on its way was made. -/
theorem isWithin_of_way {root way : Path} {R q : Place} {N A : Place → Prop} {k m : Nat}
    (hd : d.WellFormed) (hgrown : Grown d N after) (hup : .up ∉ Path.steps root)
    (hq : d.get? q = none) (hway : Path.steps way <+: Path.steps root)
    (hl : after.LeadsTo Anywhere way m q) (hR : after.LeadsTo A root k R) : isWithin q R = true := by
  obtain ⟨rest, hrest⟩ := hway
  -- Nothing stood below `q`, so there are no links, and the rest of the way goes down.
  have hnolinks : ∀ x t, Below q x → after.get? x = some (.link t) → Archive.isContained t = true := by
    intro x t hx ht
    obtain ⟨y, rfl⟩ := isWithin_iff.1 hx.1
    have hold := hgrown.eq_of_not_dir ht (fun h => by cases h)
    rw [hd.of_vacant hq y] at hold
    cases hold
  have hdown : ∀ c ∈ rest, c.isDownward = true := by
    intro c hc
    cases hway : Path.steps way with
    | nil =>
      rw [LeadsTo, hway] at hl
      obtain ⟨-, rfl, -⟩ := Stand.mk.inj (steps_from_nil hl)
      rw [hgrown.start, hd.start] at hq
      cases hq
    | cons first cs =>
      rw [hway] at hrest
      have hroot := Path.root_notMem_of_steps hrest.symm
      cases c with
      | root => exact absurd hc hroot
      | up => exact absurd (hrest ▸ List.mem_append_right _ hc) hup
      | here => rfl
      | name x => rfl
  rw [LeadsTo, ← hrest] at hR
  obtain ⟨k', mid, hfirst, hlast⟩ := hR.split
  obtain ⟨rfl, rfl⟩ := hl.unique hfirst
  exact (Archive.within_of_steps hnolinks hlast (isWithin_self _) hdown).1

end calls

/-- A call that ends before the first entry is moved leaves the disk as it was, but that missing
directories on the way to the root were made, and its error is on record. -/
theorem provision_traceless (p p' : Provisioner) (env : ProvisionEnv) (desc : Descriptor)
    (artifact : Artifact) (d after : Disk) (e : Error) (hd : d.WellFormed)
    (hart : desc.artifact = some artifact)
    (h : p.provision env desc d = (.error (.error e), p', after))
    (hearly : e.kind ≠ .io ∨ ∃ deadline, env.now.add? env.timeout = some deadline ∧
      (env.fetch artifact.url deadline).result = .error e) :
    (∀ q, after.get? q = d.get? q ∨ d.isDir p.root = false ∧ d.get? q = none ∧
      after.get? q = some .dir ∧ ∃ way, Path.steps way <+: Path.steps p.root ∧
        after.Reaches maxLinks way q) ∧
    (∀ R q, after.Reaches maxLinks p.root R → .up ∉ Path.steps p.root → isWithin R q = true →
      q ≠ R → after.get? q = d.get? q) ∧
    (∀ I q, d.Reaches maxLinks (p.installPath desc) I → Path.isAbsolute desc.installDir = false →
      isWithin I q = true → after.get? q = d.get? q) ∧
    p'.recorded? desc.backend = some (.failed e.kind e.message) ∧
      ∀ tree, p'.status tree desc = .failed e.kind e.message := by
  rcases hmk : makeDirs p.root d with ⟨m, made⟩
  have hgrown := grown_of_makeDirs hd hmk
  have hsame : Same made after := by
    cases hi : p.isInstalled d desc with
    | true =>
      rw [provision_installed (b := ⟨p, d⟩) hart hi] at h
      cases h
    | false =>
      cases ht : env.now.add? env.timeout with
      | none =>
        rw [provision_overflow (b := ⟨p, d⟩) hart hi ht] at h
        cases h
      | some deadline =>
        rw [provision_fetching (b := ⟨p, d⟩) hart hi ht] at h
        have hfetch : e.kind ≠ .io ∨ ∃ e', (env.fetch artifact.url deadline).result = .error e' := by
          refine hearly.imp_right fun ⟨deadline', ht', hf⟩ => ⟨e, ?_⟩
          rw [ht] at ht'
          cases ht'
          exact hf
        rcases hrun : p.fetchAndInstall env desc artifact deadline d with ⟨_ | e', q, last⟩ <;>
          rw [hrun] at h <;> cases h
        exact same_of_fetchAndInstall hmk hgrown.wellFormed hfetch hrun
  have halike : Alike made after := ⟨hsame.start.symm, fun q n _ => by rw [hsame.get? q]⟩
  have hleads : ∀ {A : Place → Prop} {m R}, d.LeadsTo A p.root m R → ∀ q, after.get? q = d.get? q :=
    fun hl q => (hsame.get? q).trans (((grown_of_leads hd hl hmk).same q).resolve_right fun h => h.1)
  have hrecorded : p'.recorded? desc.backend = some (.failed e.kind e.message) := by
    rcases Provisioner.noted_provision h with
      ⟨he, -⟩ | ⟨hnone, -⟩ | ⟨he, -⟩ | ⟨end_, _, _, -, -, hr, hn, -⟩
    · cases he
    · rw [hart] at hnone
      cases hnone
    · cases he
    · cases end_ with
      | ok _ => cases hr
      | error e' =>
        cases hr
        exact hn.recorded?_cons
  refine ⟨fun q => ?_, fun R q hR hup hw hne => ?_, fun I q hI habs hw => ?_, hrecorded, fun tree =>
    Provisioner.status_of_recorded hrecorded tree⟩
  · rcases hgrown.same q with hold | ⟨-, hnone, hdir⟩
    · exact .inl ((hsame.get? q).trans hold)
    · by_cases hroot : d.isDir p.root = true
      · obtain ⟨-, _, _, hl⟩ := isDir_iff.1 hroot
        exact .inl (hleads hl q)
      · obtain ⟨way, k, hway, hl⟩ := made_on_way hd hmk hnone (by simp [hdir])
        refine .inr ⟨by simpa using hroot, hnone, (hsame.get? q).trans hdir, way, hway, ?_⟩
        exact reaches_iff.2 ⟨k, halike.leadsTo hl⟩
  · by_contra hnew
    rw [hsame.get? q] at hnew
    obtain ⟨-, hnone, hdir⟩ := (hgrown.same q).resolve_left hnew
    obtain ⟨way, m, hway, hl⟩ := made_on_way hd hmk hnone (by simp [hdir])
    obtain ⟨k, hlR⟩ := reaches_iff.1 (halike.reaches_iff.2 hR)
    have hinside := isWithin_of_way hd hgrown hup hnone hway hl hlR
    exact hne (eq_of_isWithin hw (isWithin_length hinside))
  · obtain ⟨k, hl⟩ := reaches_iff.1 hI
    rw [Provisioner.installPath, Descriptor.installPath, Path.steps_join habs] at hl
    obtain ⟨_, _, hroot, -⟩ := hl.split
    exact hleads hroot q

/-- An install root with a file of an older release. -/
def aged : Disk where
  nodes := [(["r"], .dir), (["r", "xmrig"], .dir), (["r", "xmrig", "lib"], .file ⟨0, [1], 0o644⟩)]
  nextId := 1

/-- An archive that cannot be read on after its first entry. -/
def torn : List Archive.Item := [packed "v/lib" .file "", .broken "corrupt deflate stream"]

theorem wellFormed_aged : aged.WellFormed :=
  wellFormed_of_nodes (by decide) rfl (by simp [aged]) (by decide)

def tornRun : Except Halt Path × Provisioner × Disk :=
  (provisioner "/r").provision (delivering torn) Backend.xmrig.descriptor aged

theorem provision_traceless_torn :
    tornRun.1 = .error (.error (.archive (.unreadable "corrupt deflate stream"))) ∧
      (∀ q, tornRun.2.2.get? q = aged.get? q) ∧
      tornRun.2.1.status tornRun.2.2 Backend.xmrig.descriptor =
        .ofError (.archive (.unreadable "corrupt deflate stream")) := by
  have hresult : tornRun.1 = .error (.error (.archive (.unreadable "corrupt deflate stream"))) := by
    decide +kernel
  have hroot : aged.isDir "/r" = true := by decide
  obtain ⟨artifact, hart⟩ : ∃ a, Backend.xmrig.descriptor.artifact = some a := ⟨_, rfl⟩
  have hrun : (provisioner "/r").provision (delivering torn) Backend.xmrig.descriptor aged =
      (.error (.error (.archive (.unreadable "corrupt deflate stream"))), tornRun.2.1, tornRun.2.2) := by
    rw [← tornRun, ← hresult]
  obtain ⟨hsame, -, -, -, hstatus⟩ := provision_traceless _ _ _ _ artifact aged _ _ wellFormed_aged
    hart hrun (.inl (by decide))
  refine ⟨hresult, fun q => ?_, hstatus _⟩
  exact (hsame q).resolve_right fun h => Bool.eq_false_iff.1 h.1 hroot

end Provision
end RigWarden
