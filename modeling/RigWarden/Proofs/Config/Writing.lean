import RigWarden.Config.Write
import RigWarden.Proofs.Config.Preview
import RigWarden.Proofs.Disk.Drafts
import RigWarden.Proofs.Provision.Replacement

/-!
# Writing a configuration whole

A configuration is written as a draft beside the place where it goes and moved there in one step. Up to
that step a disk differs from the one before in missing directories on the way and in the draft, which
goes with the failure; the step itself changes the entry that the path leads to and nothing else.
-/

namespace RigWarden

open Text Disk

namespace Disk

/-- The disk is what `d` becomes when missing directories are made on the way that a path
describes. -/
abbrev Paved (d : Disk) (p : Path) (made : Disk) : Prop :=
  Grown d (fun q => ∃ way m, Path.steps way <+: Path.steps p ∧ made.LeadsTo Anywhere way m q) made

theorem paved_of_makeDirs {d made : Disk} (hd : d.WellFormed) {p : Path}
    {r : Except SystemError Unit} (h : makeDirs p d = (r, made)) : Paved d p made := by
  have hgrown := grown_of_makeDirs hd h
  refine ⟨hgrown.wellFormed, hgrown.start, hgrown.next, fun q => ?_⟩
  rcases hgrown.same q with he | ⟨-, hv, hdir⟩
  · exact .inl he
  · exact .inr ⟨made_on_way hd h hv (by simp [hdir]), hv, hdir⟩

end Disk

namespace RenderedConfig

variable {c : RenderedConfig} {d made e after : Disk} {place : Place} {temporary : Path}
  {cs : List Path.Component} {s : String}

/-- What can come of a configuration once the directories on its way are made. -/
inductive Outcome (c : RenderedConfig) (made : Disk) : Except Error Unit → Disk → Prop
  | refused (cause : Error) (fs : List (Option SystemError)) :
      Outcome c made (.error cause) { made with faults := fs }
  | withdrawn (cause : Error) {temporary : Path} {place : Place} {bs : Bytes} {e : Disk}
      (hf : made.find .entry temporary = .ok (.vacant place)) (h : Drafted made place bs e) :
      Outcome c made (.error cause) (e.without temporary)
  | moved {temporary : Path} {place : Place} {full after : Disk}
      (hf : made.find .entry temporary = .ok (.vacant place))
      (h : Drafted made place (utf8 c.contents) full)
      (hmove : Disk.rename temporary c.path full = (.ok (), after)) : Outcome c made (.ok ()) after

/-- The draft is filled, and then it is moved or it is there to be removed. -/
theorem replace_cases {r : Except Error Unit} (hb : made.Bounded) (h : Drafted made place [] e)
    (hr : c.replace temporary made.nextId e = (r, after)) :
    (∃ cause bs, r = .error cause ∧ Drafted made place bs after) ∨
      r = .ok () ∧ ∃ full, Drafted made place (utf8 c.contents) full ∧
        Disk.rename temporary c.path full = (.ok (), after) := by
  unfold replace at hr
  have hfill : ∀ {r mid}, (do Disk.append made.nextId (utf8 c.contents); Disk.sync : DiskM Unit) e =
      (r, mid) → ∃ bs, Drafted made place bs mid ∧ (r = .ok () → bs = utf8 c.contents) := by
    intro r mid hw
    rcases bind_cases hw with ⟨_, rfl, ha⟩ | ⟨⟨⟩, last, ha, hs⟩
    · obtain ⟨bs, hbs, -⟩ := h.append hb ha
      exact ⟨bs, hbs, nofun⟩
    · obtain ⟨bs, hbs, he⟩ := h.append hb ha
      exact ⟨bs, hbs.sync hs, fun _ => he rfl⟩
  rcases bind_cases hr with ⟨cause, rfl, hw⟩ | ⟨⟨⟩, full, hw, hmove⟩
  · obtain ⟨_, hop⟩ := doing_error hw
    obtain ⟨bs, hbs, -⟩ := hfill hop
    exact .inl ⟨cause, bs, rfl, hbs⟩
  obtain ⟨bs, hfull, hbs⟩ := hfill (doing_ok hw)
  obtain rfl := hbs rfl
  rcases r with cause | ⟨⟩
  · obtain ⟨_, hop⟩ := doing_error hmove
    obtain ⟨fs, rfl⟩ := attempt_error hop
    exact .inl ⟨cause, _, rfl, hfull.withFaults fs⟩
  · exact .inr ⟨rfl, full, hfull, doing_ok hmove⟩

theorem outcome_of_writeIn {dir : Path} {r : Except Error Unit} (hb : d.Bounded)
    (hw : c.writeIn dir d = (r, after)) :
    ∃ m made, makeDirs dir d = (m, made) ∧ c.Outcome made r after := by
  unfold writeIn at hw
  rcases bind_cases hw with ⟨cause, rfl, hmk⟩ | ⟨⟨⟩, made, hmk, hw⟩
  · obtain ⟨m, hop⟩ := of_doing hmk
    exact ⟨m, after, hop, .refused cause after.faults⟩
  have hmade := ((durable_unwritten d).makeDirs dir d hb.unwritten _ _ (doing_ok hmk)).1.bounded
  refine ⟨.ok (), made, doing_ok hmk, ?_⟩
  rcases bind_cases hw with ⟨_, -, hask⟩ | ⟨temporary, mid, hask, hw⟩
  · cases hask
  cases hask
  rcases bind_cases hw with ⟨cause, rfl, hnew⟩ | ⟨id, opened, hnew, hw⟩
  · obtain ⟨_, hop⟩ := doing_error hnew
    obtain ⟨fs, rfl⟩ := attempt_error hop
    exact .refused cause fs
  obtain ⟨place, hf, rfl, hopened⟩ := drafted_of_createNew (doing_ok hnew)
  unfold TaskM.removingOnError at hw
  rcases hr : c.replace (made.temporaryPath dir ".config-" "") made.nextId opened with ⟨r', last⟩
  rcases replace_cases hmade hopened hr with ⟨cause, bs, rfl, hlast⟩ | ⟨rfl, full, hfull, hmove⟩ <;>
    rw [hr] at hw <;> cases hw
  · exact .withdrawn cause hf hlast
  · exact .moved hf hfull hmove

/-- After a configuration has taken an entry of the disk, all else is as it was. -/
structure Placed (c : RenderedConfig) (made : Disk) (place : Place) (after : Disk) : Prop where
  start : after.workingDir = made.workingDir
  not_dir : made.get? place ≠ some .dir
  get? : ∀ q, after.get? q =
    if q = place then some (.file ⟨made.nextId, utf8 c.contents, 0o600⟩) else made.get? q

theorem Outcome.cases {r : Except Error Unit} (h : c.Outcome made r after) (hd : made.WellFormed)
    (hsteps : Path.steps c.path = cs ++ [.name s]) :
    (∃ cause, r = .error cause ∧ Same made after) ∨
      r = .ok () ∧ Usable c.path ∧ (utf8 s).length ≤ maxName ∧
        ∃ m dir, made.Leads Anywhere maxLinks made.workingDir cs m dir ∧
          c.Placed made (dir ++ [s]) after := by
  cases h with
  | refused cause fs => exact .inl ⟨cause, rfl, same_withFaults made fs⟩
  | withdrawn cause hf h => exact .inl ⟨cause, rfl, h.same_without hf hd⟩
  | moved hf h hmove =>
    obtain ⟨m, dir, hl, hs, hu, hdir, hstart, hget⟩ :=
      rename_file (h.wellFormed hd) (h.find_entry hf) h.file hsteps hmove
    have hl' := h.alike.symm.leads hl
    rw [h.start] at hl'
    refine .inr ⟨rfl, hu, hs, m, dir, hl', hstart.trans h.start, fun hmade => hdir ?_, fun q => ?_⟩
    · exact (h.alike.same _ _ (by simp)).1 hmade
    · rw [hget]
      by_cases hq : q = dir ++ [s]
      · rw [if_pos hq, if_pos hq]
      · rw [if_neg hq, if_neg hq]
        split
        · next hq' => rw [hq', h.free]
        · next hq' => exact h.get?_of_ne hq'

/-- The one file that can be new is the configuration. -/
theorem Outcome.contents {r : Except Error Unit} (h : c.Outcome made r after) {x : Nat × Bytes}
    (hx : x ∈ after.contents) :
    x ∈ made.contents ∨ r = .ok () ∧ x = (made.nextId, utf8 c.contents) := by
  cases h with
  | refused cause fs => exact .inl hx
  | withdrawn cause hf h => exact .inl (h.contents_without hf hx)
  | moved hf h hmove =>
    exact (h.mem_contents (contents_rename (h.find_entry hf) hmove hx)).imp_right fun he => ⟨rfl, he⟩

/-- What was placed is read by the path, as long as the path still leads to its directory. -/
theorem Placed.bytesAt {install : Path} {s : String} {m : Nat} {there : Place}
    (h : c.Placed made (there ++ [s]) after) (hu : Usable c.path) (hs : (utf8 s).length ≤ maxName)
    (hslash : Path.endsInSlash c.path = false)
    (hsteps : Path.steps c.path = Path.steps install ++ [.name s])
    (hl : made.LeadsTo Anywhere install m there) :
    after.bytesAt c.path = .ok (utf8 c.contents) ∨
      (∃ t, made.get? (there ++ [s]) = some (.link t)) ∧
        ¬ ∃ m there, after.LeadsTo Anywhere install m there := by
  have hread : ∀ {k last}, after.LeadsTo Anywhere install k last →
      after.bytesAt c.path = .ok (utf8 c.contents) := by
    intro k last hafter
    have hback : made.LeadsTo Anywhere install k last := by
      rw [LeadsTo, ← h.start]
      refine hafter.mono fun q n _ hq hn => ⟨trivial, ?_⟩
      rw [h.get?] at hq
      split at hq
      · exact absurd (Option.some.inj hq).symm (hn _)
      · exact hq
    obtain ⟨-, rfl⟩ := hl.unique hback
    have hfind : after.find .through c.path =
        .ok (.node (last ++ [s]) (.file ⟨made.nextId, utf8 c.contents, 0o600⟩)) := by
      rw [find_of_usable hu, hsteps, hafter.walk_append (by simp), walk_last, finish, hslash,
        if_neg (by simp), if_neg (Nat.not_lt.2 hs), h.get?, if_pos rfl]
      simp
    rw [Disk.bytesAt, fileAt, hfind]
    rfl
  by_cases hafter : ∃ k last, after.LeadsTo Anywhere install k last
  · obtain ⟨k, last, hafter⟩ := hafter
    exact .inl (hread hafter)
  · refine .inr ⟨?_, hafter⟩
    by_contra hlink
    refine hafter ⟨m, there, ?_⟩
    rw [LeadsTo, h.start]
    refine hl.mono fun q n _ hq hn => ⟨trivial, ?_⟩
    rw [h.get?, if_neg fun he => ?_, hq]
    subst he
    cases n with
    | dir => exact h.not_dir hq
    | file f => exact hn f rfl
    | link t => exact hlink ⟨t, hq⟩

end RenderedConfig

namespace Backend

variable {b : Backend} {processors : Nat} {p : Profile} {install : Path} {d after : Disk}

theorem plain_configFile (b : Backend) : Path.Plain b.descriptor.configFile := by
  cases b <;> exact Provision.plain_of_length (by decide) (by decide)

/-- A configuration is not written when its preview fails. Otherwise the directories on its way are
made first. -/
theorem writeConfig_cases {r : Except Error RenderedConfig} (hb : d.Bounded)
    (h : b.writeConfig processors p install d = (r, after)) :
    (∃ e, b.preview processors p install = .error e ∧ r = .error e ∧ after = d) ∨
      ∃ c m made r', b.preview processors p install = .ok c ∧
        makeDirs ((Path.parent? c.path).getD "") d = (m, made) ∧ c.Outcome made r' after ∧
        r = r'.map fun _ => c := by
  unfold writeConfig at h
  cases hpreview : b.preview processors p install with
  | error e =>
    rw [hpreview] at h
    cases h
    exact .inl ⟨e, rfl, rfl, rfl⟩
  | ok c =>
    rw [hpreview] at h
    obtain ⟨r', hwrite, hr⟩ : ∃ r', c.write d = (r', after) ∧ r = r'.map fun _ => c := by
      rcases bind_cases h with ⟨_, -, hc⟩ | ⟨_, _, hc, h⟩
      · cases hc
      cases hc
      rcases bind_cases h with ⟨e, rfl, hw⟩ | ⟨⟨⟩, _, hw, hend⟩
      · exact ⟨.error e, hw, rfl⟩
      · cases hend
        exact ⟨.ok (), hw, rfl⟩
    unfold RenderedConfig.write at hwrite
    cases hparent : Path.parent? c.path with
    | none =>
      rw [hparent] at hwrite
      cases hwrite
      exact .inr ⟨c, .ok (), d, _, rfl, by rw [hparent]; rfl, .refused _ d.faults, hr⟩
    | some dir =>
      rw [hparent] at hwrite
      obtain ⟨m, made, hmk, houtcome⟩ := RenderedConfig.outcome_of_writeIn hb hwrite
      exact .inr ⟨c, m, made, r', rfl, by rw [hparent]; exact hmk, houtcome, hr⟩

/-- A configuration is written whole or not at all, and what else is new are missing directories on
the way to it. -/
theorem writeConfig_whole (hd : d.WellFormed) {r : Except Error RenderedConfig}
    (h : b.writeConfig processors p install d = (r, after)) :
    (∀ e, b.preview processors p install = .error e → r = .error e ∧ after = d) ∧
      ∀ c, b.preview processors p install = .ok c →
        ∃ made, Paved d ((Path.parent? c.path).getD "") made ∧
          ((∃ e, r = .error e ∧ Same made after) ∨
            r = .ok c ∧ ∃ m there, made.LeadsTo Anywhere install m there ∧
              c.Placed made (there ++ [b.descriptor.configFile]) after ∧
              (after.bytesAt c.path = .ok (utf8 c.contents) ∨
                (∃ t, d.get? (there ++ [b.descriptor.configFile]) = some (.link t)) ∧
                  ¬ ∃ m there, after.LeadsTo Anywhere install m there)) := by
  rcases writeConfig_cases hd.bounded h with
    ⟨e, hpreview, rfl, rfl⟩ | ⟨c, m, made, r', hpreview, hmk, houtcome, rfl⟩
  · refine ⟨fun _ he => ?_, fun _ hc => ?_⟩
    · rw [hpreview] at he
      cases he
      exact ⟨rfl, rfl⟩
    · rw [hpreview] at hc
      cases hc
  · refine ⟨fun _ he => ?_, fun _ hc => ?_⟩
    · rw [hpreview] at he
      cases he
    rw [hpreview] at hc
    cases hc
    obtain ⟨-, hrender, -⟩ := preview_eq_ok.1 hpreview
    have hplain := b.plain_configFile
    have hpath := path_of_render hrender
    have hsteps : Path.steps c.path = Path.steps install ++ [.name b.descriptor.configFile] := by
      rw [hpath, Path.steps_join_plain install hplain]
    have hmade := paved_of_makeDirs hd hmk
    refine ⟨made, hmade, ?_⟩
    rcases houtcome.cases hmade.wellFormed hsteps with
      ⟨cause, rfl, hsame⟩ | ⟨rfl, hu, hs, m, there, hl, hplaced⟩
    · exact .inl ⟨cause, rfl, hsame⟩
    · refine .inr ⟨rfl, m, there, hl, hplaced, ?_⟩
      have hslash : Path.endsInSlash c.path = false := by
        rw [hpath, Provision.endsInSlash_join install hplain]
      refine (hplaced.bytesAt hu hs hslash hsteps hl).imp_right fun ⟨⟨t, ht⟩, hlost⟩ => ⟨⟨t, ?_⟩, hlost⟩
      exact hmade.eq_of_not_dir ht nofun

/-! A path that leads over the configuration itself -/

/-- The simulator's configuration below a path that leads over it. -/
def detoured : RenderedConfig :=
  ⟨"/simulator.txt/../simulator.txt", .keyValue, Simulator.configText 4 (Profile.sample "randomx")⟩

theorem detoured_preview :
    simulated.preview 4 (Profile.sample "randomx") "/simulator.txt/.." = .ok detoured := by
  refine preview_eq_ok.2 ⟨rfl, rfl, RenderedConfig.inspect_ok _ ?_ ?_⟩
  · rw [detoured, Simulator.configText, KeyValue.render, String.toList_ofList]
    decide +kernel
  · decide +kernel

theorem writeConfig_detoured (d : Disk) :
    simulated.writeConfig 4 (Profile.sample "randomx") "/simulator.txt/.." d =
      ((detoured.write d).1.map fun _ => detoured, (detoured.write d).2) := by
  rw [writeConfig, detoured_preview]
  change (detoured.write >>= fun _ => pure detoured) d = _
  rw [bind_apply]
  rcases detoured.write d with ⟨_ | ⟨⟩, after⟩ <;> rfl

/-- A link that has the configuration's name leads to a directory beside it. -/
def forked : Disk := { nodes := [(["simulator.txt"], .link "sub"), (["sub"], .dir)] }

theorem wellFormed_forked : forked.WellFormed :=
  wellFormed_of_nodes (by decide) rfl (by simp [forked]) (by decide)

theorem writeConfig_forked :
    simulated.writeConfig 4 (Profile.sample "randomx") "/simulator.txt/.." forked =
      (.ok detoured, (detoured.write forked).2) := by
  have hdone : (detoured.write forked).1 = .ok () := by decide +kernel
  rw [writeConfig_detoured, hdone]
  rfl

theorem writeConfig_whole_forked : forked.WellFormed ∧
    simulated.preview 4 (Profile.sample "randomx") "/simulator.txt/.." = .ok detoured ∧
      ∃ made, Paved forked ((Path.parent? detoured.path).getD "") made ∧
        ∃ there, detoured.Placed made (there ++ ["simulator.txt"]) (detoured.write forked).2 := by
  obtain ⟨made, hmade, ⟨_, he, -⟩ | ⟨-, _, there, -, hplaced, -⟩⟩ :=
    (writeConfig_whole wellFormed_forked writeConfig_forked).2 detoured detoured_preview
  · cases he
  · exact ⟨wellFormed_forked, detoured_preview, made, hmade, there, hplaced⟩

theorem not_always_whole :
    (¬ ∀ (b : Backend) (processors : Nat) (p : Profile) (install : Path) (d after : Disk) (e : Error),
      d.WellFormed → b.writeConfig processors p install d = (.error e, after) →
        after.node? (b.descriptor.configPath install) = d.node? (b.descriptor.configPath install)) ∧
    ¬ ∀ (b : Backend) (processors : Nat) (p : Profile) (install : Path) (d after : Disk)
        (c : RenderedConfig), d.WellFormed → b.writeConfig processors p install d = (.ok c, after) →
          after.bytesAt c.path = .ok (utf8 c.contents) := by
  constructor
  · intro hall
    have hfails : (detoured.write {}).1 =
        .error (.io "replacing /simulator.txt/../simulator.txt" .isDirectory) := by decide +kernel
    have hrun := writeConfig_detoured {}
    rw [hfails] at hrun
    have hkept := hall _ _ _ _ _ _ _ (wellFormed_of_nodes (by simp) rfl (by simp) (by simp)) hrun
    revert hkept
    decide +kernel
  · intro hall
    have hread := hall _ _ _ _ _ _ _ wellFormed_forked writeConfig_forked
    have hlost : (detoured.write forked).2.bytesAt detoured.path = .error .notDirectory := by
      decide +kernel
    rw [hlost] at hread
    cases hread

end Backend
end RigWarden
