import RigWarden.Config.Write
import RigWarden.Proofs.Disk.Effects
import RigWarden.Provision.Provisioner

/-!
# What outlasts provisioning

Provisioning makes entries where nothing stands, moves and removes entries, changes permissions and
writes to files that it made itself, and so does the writing of a configuration. A property of the disk
that none of this touches lasts, whatever is in a release and whichever operation fails.
-/

namespace RigWarden

open Disk

def Node.id? : Node → Option Nat
  | .file f => some f.id
  | _ => none

namespace Disk

section lookups

variable {d : Disk} {p : Place}

theorem dir_of_find_entry {path : Path} {n : Node} (h : d.find .entry path = .ok (.node [] n)) :
    n = .dir := by
  have hnil : ∀ {here}, (.ok (.node here .dir) : Except SystemError Found) = .ok (.node [] n) →
      n = .dir := fun he => by simpa [eq_comm] using (Found.node.inj (Except.ok.inj he)).2
  have hw := walk_of_find h
  rcases List.eq_nil_or_concat (Path.steps path) with he | ⟨cs, c, he⟩
  · rw [he, walk_nil] at hw
    exact hnil hw
  · rw [he, List.concat_eq_append] at hw
    obtain ⟨m, dir, -, hlast⟩ := walk_append (by simp) hw
    cases c with
    | root | here | up =>
      simp only [walk_root, walk_here, walk_up, walk_nil] at hlast
      exact hnil hlast
    | name s =>
      rw [← List.nil_append [Path.Component.name s]] at hlast
      obtain ⟨_, _, -, -, hfound⟩ := walk_entry_cases hlast
      split at hfound <;> simp at hfound

theorem vacant_of_find {l : Lookup} {path : Path} (h : d.find l path = .ok (.vacant p)) :
    d.get? p = none := walk_vacant (walk_of_find h)

end lookups

end Disk

namespace Keeps

variable {α : Type} {I : Disk → Prop} {Q : α → Prop}

theorem ask (f : Disk → α) : Keeps I (TaskM.ask f) Always := by
  intro d hd r after he
  cases he
  exact ⟨hd, fun _ _ => trivial⟩

theorem doing (what : String) {op : DiskM α} (h : Keeps I op Q) : Keeps I (TaskM.doing what op) Q := by
  intro d hd r after he
  rcases r with _ | a
  · obtain ⟨_, hop⟩ := doing_error he
    exact ⟨(h d hd _ _ hop).1, nofun⟩
  · obtain ⟨hafter, hQ⟩ := h d hd _ _ (doing_ok he)
    exact ⟨hafter, fun b hb => by cases hb; exact hQ a rfl⟩

end Keeps

/-- A property that lasts while files are made, moved and removed, and those of the identities `New`
are written to. Every file that is made has one of these. -/
structure Durable (I : Disk → Prop) (New : Nat → Prop) : Prop where
  blind : Blind I
  place {d : Disk} {p : Place} {n : Node} : I d → d.get? p = none → n.id? = none → I (d.set p n)
  create {d : Disk} {p : Place} {mode : Nat} : I d → d.get? p = none →
    I { d.set p (.file ⟨d.nextId, [], mode⟩) with nextId := d.nextId + 1 } ∧ New d.nextId
  erase {d : Disk} (p : Place) : I d → I (d.erase p)
  move {d : Disk} {source : Place} (target : Place) : I d → source ≠ [] → I (d.move source target)
  write {d : Disk} {id : Nat} (bs : Text.Bytes) : I d → New id →
    I (d.updateFile id fun f => { f with data := f.data ++ bs })
  permit {d : Disk} (id : Nat) (mode : FileData → Nat) : I d →
    I (d.updateFile id fun f => { f with mode := mode f })

namespace Durable

open Keeps

variable {I : Disk → Prop} {New : Nat → Prop} (h : Durable I New)
include h

theorem without {d : Disk} (hd : I d) (p : Path) : I (d.without p) := by
  unfold Disk.without
  split
  · exact h.erase _ hd
  · exact hd

/-! Operations -/

theorem makeDir (p : Path) : Keeps I (Disk.makeDir p) Always :=
  Keeps.makeDir h.blind.fading fun _ _ hd hf => h.place hd (vacant_of_find hf) rfl

theorem ensureDir (p : Path) : Keeps I (Disk.ensureDir p) Always :=
  Keeps.ensureDir h.blind.fading fun _ _ hd hf => h.place hd (vacant_of_find hf) rfl

theorem makeDirs (p : Path) : Keeps I (Disk.makeDirs p) Always :=
  Keeps.makeDirs h.blind.fading fun _ _ _ _ hd hf => h.place hd (vacant_of_find hf) rfl

theorem createNew (p : Path) (mode : Nat) : Keeps I (Disk.createNew p mode) New :=
  Keeps.createNew h.blind.fading fun _ _ hd hf => h.create hd (vacant_of_find hf)

theorem makeLink (target p : Path) : Keeps I (Disk.makeLink target p) Always :=
  Keeps.makeLink h.blind.fading fun _ _ hd hf => h.place hd (vacant_of_find hf) rfl

theorem removeFile (p : Path) : Keeps I (Disk.removeFile p) Always :=
  Keeps.removeFile h.blind.fading fun _ place _ hd _ _ => h.erase place hd

theorem append {id : Nat} (hid : New id) (bs : Text.Bytes) : Keeps I (Disk.append id bs) Always :=
  Keeps.append h.blind.fading fun _ hd => h.write bs hd hid

theorem setMode (id mode : Nat) : Keeps I (Disk.setMode id mode) Always :=
  Keeps.setMode h.blind.fading fun _ hd => h.permit id (fun _ => mode) hd

theorem openFile (p : Path) : Keeps I (Disk.openFile p) Always := by
  refine Keeps.attempt h.blind.fading fun d a after hd hop => ⟨?_, trivial⟩
  rcases hf : d.find .make p with _ | ⟨place, n⟩ | place <;>
    simp only [hf, Bind.bind, Except.bind] at hop
  · cases hop
  · cases n <;> cases hop
    exact hd
  · cases hop
    exact (h.create hd (vacant_of_find hf)).1

theorem removeDirs (p : Path) : Keeps I (Disk.removeDirs p) Always := by
  refine Keeps.attempt h.blind.fading fun d a after hd hop => ⟨?_, trivial⟩
  rcases hf : d.find .entry p with _ | ⟨place, n⟩ | place <;>
    simp only [hf, Bind.bind, Except.bind] at hop
  · cases hop
  · cases n <;> cases hop <;> exact h.erase place hd
  · cases hop

theorem addMode (p : Path) (mode : Nat) : Keeps I (Disk.addMode p mode) Always := by
  refine Keeps.attempt h.blind.fading fun d a after hd hop => ⟨?_, trivial⟩
  rcases hf : d.find .through p with _ | ⟨place, n⟩ | place <;>
    simp only [hf, Bind.bind, Except.bind] at hop
  · cases hop
  · cases n <;> cases hop
    · exact hd
    · exact h.permit _ (fun f => f.mode ||| mode) hd
    · exact hd
  · cases hop

theorem list (p : Path) : Keeps I (Disk.list p) Always := by
  refine Keeps.attempt h.blind.fading fun d a after hd hop => ⟨?_, trivial⟩
  rcases hf : d.find .through p with _ | ⟨place, n⟩ | place <;>
    simp only [hf, Bind.bind, Except.bind] at hop
  · cases hop
  · cases n <;> cases hop
    exact hd
  · cases hop

/-- Nothing is moved from the root of the tree, since that holds every target. -/
theorem rename (source target : Path) : Keeps I (Disk.rename source target) Always := by
  refine Keeps.attempt h.blind.fading fun d a after hd hop => ⟨?_, trivial⟩
  rcases hs : d.find .entry source with _ | ⟨from_, n⟩ | place <;>
    simp only [hs, Bind.bind, Except.bind] at hop
  · cases hop
  · have hfrom : ∀ {to_}, ¬ (n = .dir ∧ isWithin from_ to_ = true) → from_ ≠ [] := by
      rintro to_ hno rfl
      exact hno ⟨dir_of_find_entry hs, rfl⟩
    rcases ht : d.find .entry target with _ | ⟨to_, old⟩ | to_ <;> simp only [ht] at hop
    · cases hop
    · split at hop
      · cases hop
        exact hd
      · split at hop
        · cases hop
        · next hno =>
          split at hop
          · cases hop
          · split at hop
            · cases hop
            · split at hop
              · cases hop
              · cases hop
                exact h.move to_ (h.erase to_ hd) (hfrom hno)
    · split at hop
      · cases hop
      · next hno =>
        cases hop
        exact h.move to_ hd (hfrom hno)
  · cases hop

/-! Configurations -/

theorem sync : Keeps I Disk.sync Always :=
  Keeps.attempt h.blind.fading fun d a after hd hop => by
    cases hop
    exact ⟨hd, trivial⟩

theorem replace (config : RenderedConfig) (temporary : Path) {id : Nat} (hid : New id) :
    Keeps I (config.replace temporary id) Always :=
  bind (doing _ (bind (h.append hid _) fun _ _ => h.sync)) fun _ _ => doing _ (h.rename _ _)

theorem writeIn (config : RenderedConfig) (dir : Path) : Keeps I (config.writeIn dir) Always := by
  refine bind (doing _ (h.makeDirs dir)) fun _ _ => bind (ask _) fun temporary _ =>
    bind (doing _ (h.createNew temporary _)) fun id hid => ?_
  intro d hd r after he
  have hreplace := h.replace config temporary hid d hd
  unfold TaskM.removingOnError at he
  rcases hr : config.replace temporary id d with ⟨_ | _, mid⟩ <;> rw [hr] at he <;> cases he
  · exact ⟨h.without (hreplace _ _ hr).1 temporary, fun _ _ => trivial⟩
  · exact ⟨(hreplace _ _ hr).1, fun _ _ => trivial⟩

theorem writeConfig (b : Backend) (processors : Nat) (profile : Profile) (install : Path) :
    Keeps I (b.writeConfig processors profile install) Always := by
  refine bind (ofExcept (Q := Always) _ fun _ => trivial) fun config _ =>
    bind (Q := Always) ?_ fun _ _ => pure trivial
  unfold RenderedConfig.write
  split
  · exact throw _
  · exact h.writeIn config _

/-! Archives -/

theorem replacing {α : Type} {Q : α → Prop} {p : Path} {make : DiskM α} (hmake : Keeps I make Q) :
    Keeps I (Archive.replacing p make) Q := by
  intro d hd r after he
  unfold Archive.replacing at he
  split at he
  · next mid hop => exact bind (h.removeFile p) (fun _ _ => hmake) mid (hmake d hd _ _ hop).1 r after he
  · exact hmake d hd _ _ he

theorem placeEntry (e : Archive.Entry) (p : Path) : Keeps I (e.place p) Always := by
  unfold Archive.Entry.place
  split
  · exact h.ensureDir p
  · split
    · exact h.replacing (h.makeLink e.link p)
    · exact bind (h.replacing (h.createNew p defaultMode)) fun id hid =>
        bind (h.append hid e.data) fun _ _ => h.setMode id _

theorem unpackEntry (e : Archive.Entry) (dest : Path) (strip : Nat) :
    Keeps I (e.unpack dest strip) Always := by
  unfold Archive.Entry.unpack
  simp only
  split
  · exact pure trivial
  · split
    · exact throw _
    · exact bind (unpacking (bind (h.makeDirs _) fun _ _ => h.placeEntry e _)) fun _ _ => pure trivial

theorem unpackFrom (goOn : Nat → Except Error Unit) (dest : Path) (strip index : Nat)
    (items : List Archive.Item) :
    Keeps I (Archive.unpackFrom goOn dest strip index items) Always := by
  induction items generalizing index with
  | nil => exact pure trivial
  | cons item items ih =>
    unfold Archive.unpackFrom
    refine bind (ofExcept _ fun _ => trivial) fun _ _ => ?_
    cases item with
    | broken text => exact throw _
    | entry e =>
      exact bind (h.unpackEntry e dest strip) fun _ _ => bind (ih (index + 1)) fun _ _ => pure trivial

theorem unpack (goOn : Nat → Except Error Unit) (dest : Path) (strip : Nat)
    (items : List Archive.Item) : Keeps I (Archive.unpack goOn dest strip items) Always := by
  refine bind (h.unpackFrom goOn dest strip 0 items) fun n _ => ?_
  split
  · exact throw _
  · exact pure trivial

/-! Installations -/

theorem moveEntry (staging install : Path) (name : String) :
    Keeps I (Provision.moveEntry staging install name) Always := by
  unfold Provision.moveEntry
  simp only
  refine bind (ask _) fun isDir _ => ?_
  split
  · exact bind (doing _ (h.removeDirs _)) fun _ _ => doing _ (h.rename _ _)
  · refine bind (ask _) fun found _ => ?_
    split
    · exact bind (doing _ (h.removeFile _)) fun _ _ => doing _ (h.rename _ _)
    · exact doing _ (h.rename _ _)

theorem moveEntries (staging install : Path) (names : List String) :
    Keeps I (Provision.moveEntries staging install names) Always := by
  induction names with
  | nil => exact pure trivial
  | cons name names ih => exact bind (h.moveEntry staging install name) fun _ _ => ih

theorem moveIntoPlace (order : List String → List String) (staging install : Path) :
    Keeps I (Provision.moveIntoPlace order staging install) Always :=
  bind (doing _ (h.makeDirs install)) fun _ _ => bind (doing _ (h.list staging)) fun _ _ =>
    h.moveEntries staging install _

theorem makeExecutable (p : Path) : Keeps I (Provision.makeExecutable p) Always := by
  refine bind (ask _) fun found _ => ?_
  split <;> exact doing _ (h.addMode p _)

theorem installStaged (goOn : Nat → Except Error Unit) (order : List String → List String)
    (desc : Descriptor) (strip : Nat) (install staging : Path) (items : List Archive.Item) :
    Keeps I (Provision.installStaged goOn order desc strip install staging items) Always := by
  refine bind (h.unpack goOn staging strip items) fun _ _ => ?_
  split
  · exact h.moveIntoPlace order staging install
  · refine bind (ask _) fun found _ => ?_
    split
    · exact throw _
    · exact bind (h.moveIntoPlace order staging install) fun _ _ => h.makeExecutable _

theorem install (goOn : Nat → Except Error Unit) (order : List String → List String)
    (desc : Descriptor) (strip : Nat) (root : Path) (items : List Archive.Item) :
    Keeps I (Provision.install goOn order desc strip root items) Always := by
  refine bind (ask _) fun staging _ => bind (doing _ (h.makeDir staging)) fun _ _ => ?_
  intro d hd r after he
  rcases hs : Provision.installStaged goOn order desc strip (desc.installPath root) staging items d with
    ⟨r', mid⟩
  simp only [TaskM.removing, hs] at he
  cases he
  exact ⟨h.without (h.installStaged goOn order desc strip _ staging items d hd _ _ hs).1 staging,
    fun _ _ => trivial⟩

/-! Provisioning -/

variable {p p' : Provisioner} {env : ProvisionEnv} {desc : Descriptor} {d after : Disk}

theorem openDownload {r : Except Error Path} (hd : I d)
    (ho : p.openDownload desc d = (r, p', after)) : I after := by
  have hmake := doing ("creating " ++ p.root) (h.makeDirs p.root) d hd
  unfold Provisioner.openDownload at ho
  split at ho
  · next hmk =>
    cases ho
    exact (hmake _ _ hmk).1
  · next hmk =>
    simp only at ho
    split at ho <;> next hnew =>
      cases ho
      exact (doing _ (h.createNew _ _) _ (hmake _ _ hmk).1 _ _ hnew).1

theorem fetchAndInstall {artifact : Artifact} {deadline : Clock} {r : Except Error Unit} (hd : I d)
    (hf : p.fetchAndInstall env desc artifact deadline d = (r, p', after)) : I after := by
  unfold Provisioner.fetchAndInstall at hf
  split at hf
  · next ho =>
    cases hf
    exact h.openDownload hd ho
  · next q opened ho =>
    have hopened := h.openDownload hd ho
    split at hf <;> cases hf
    · exact h.without hopened _
    · exact h.without (h.install _ _ _ _ _ _ _ hopened _ _ rfl).1 _

theorem provision {r : Except Halt Path} (hd : I d)
    (hrun : p.provision env desc d = (r, p', after)) : I after := by
  unfold Provisioner.provision at hrun
  split at hrun
  · unfold Provisioner.provisionBuiltIn at hrun
    simp only at hrun
    split at hrun <;> next hmk =>
      cases hrun
      exact (doing _ (h.makeDirs _) d hd _ _ hmk).1
  · split at hrun
    · cases hrun
      exact hd
    · split at hrun <;> cases hrun
      · exact hd
      · exact h.fetchAndInstall hd rfl

end Durable
end RigWarden
