import RigWarden.Config.Write
import RigWarden.Proofs.Config.Preview
import RigWarden.Proofs.Disk.Identities
import RigWarden.Proofs.Disk.Opening
import RigWarden.Proofs.Provision.Beside

/-!
# Work in an install directory

In the install directory of its backend a session opens its lock and its log, empties the log and
writes its configuration. Where the install directories lie side by side, none of this is noticed in
another one: every path into it leads where it led before.
-/

namespace RigWarden.Provision

open Disk

/-- The root leads to `R` in good order. -/
structure Settled (d : Disk) (root : Path) (dirs : String → Prop) (R : Place) : Prop where
  wellFormed : d.WellFormed
  neat : Neat d root dirs R

/-- Nothing has changed but in temporary entries and in the install directory `ins`, there only under
the names `N`. -/
structure Confines (N : String → Prop) (d e : Disk) (R : Place) (ins : String) : Prop where
  wellFormed : e.WellFormed
  spares : Spares N d e R ins

/-- Whatever its name. -/
def Anything (_ : String) : Prop := True

/-- A place in the install directory, other than its entries of other names than `N`. -/
structure Inside (N : String → Prop) (R : Place) (x : String) (q : Place) : Prop where
  below : Below (R ++ [x]) q
  named : ∀ s, q = R ++ [x] ++ [s] → N s

section confines

variable {d e f : Disk} {root p : Path} {dirs N N' : String → Prop} {R q r : Place}
  {ins x s name : String} {l : Lookup} {found : Found}

theorem inside_of_below (h : Below (R ++ [x]) q) : Inside Anything R x q := ⟨h, fun _ _ => trivial⟩

theorem inside_entry (R : Place) (x : String) (hs : N s) : Inside N R x (R ++ [x] ++ [s]) := by
  refine ⟨Below.snoc (isWithin_self _) s, fun s' he => ?_⟩
  obtain rfl : s = s' := by simpa using he
  exact hs

/-- With an entry, all that is in it is left out. -/
theorem Inside.within (h : Inside N R x q) (hw : isWithin q r = true) : Inside N R x r := by
  refine ⟨h.below.trans hw, fun s he => ?_⟩
  subst he
  rcases List.prefix_concat_iff.1 (List.isPrefixOf_iff_prefix.1 hw) with heq | hprefix
  · exact h.named s heq
  · exact absurd (eq_of_isWithin h.below.1 hprefix.length_le) h.below.2

theorem Confines.trans (h : Confines N d e R ins) (h' : Confines N e f R ins) : Confines N d f R ins :=
  ⟨h'.wellFormed, h.spares.trans h'.spares⟩

theorem Settled.withFaults (h : Settled d root dirs R) (ins : String)
    (fs : List (Option SystemError)) : Confines N d { d with faults := fs } R ins :=
  ⟨h.wellFormed.withFaults fs, .of_same (same_withFaults d fs)⟩

theorem Settled.refl (h : Settled d root dirs R) : Confines N d d R ins :=
  ⟨h.wellFormed, .of_same (.refl d)⟩

theorem Settled.confines (h : Settled d root dirs R) (hins : dirs ins)
    (hdirs : ∀ x, dirs x → Visible x) (hc : Confines N d e R ins) : Settled e root dirs R :=
  ⟨hc.wellFormed, h.neat.spares hins hdirs hc.spares⟩

theorem steps_join_join (root : Path) (hx : Path.Plain x) (hname : Path.Plain name) :
    Path.steps (Path.join (Path.join root x) name) = Path.steps root ++ [.name x, .name name] := by
  rw [Path.steps_join_plain _ hname, Path.steps_join_plain _ hx, List.append_assoc]
  rfl

/-- A path into another install directory leads where it led before. -/
theorem Spares.find_eq (h : Spares N d e R ins) (hn : Neat d root dirs R) (hins : dirs ins)
    (hdir : dirs x) (hx : Visible x) (hne : x ≠ ins) (hname : Path.Plain name) (l : Lookup) :
    e.find l (Path.join (Path.join root x) name) = d.find l (Path.join (Path.join root x) name) := by
  obtain ⟨k, hl, hl'⟩ := h.way hn hins
  have hdown : ∀ c ∈ [Path.Component.name name], Path.Component.isDownward c = true := by
    simp [Path.Component.isDownward]
  have hsame : ∀ slash, e.walk l k slash R [.name x, .name name] =
      d.walk l k slash R [.name x, .name name] := fun slash => by
    rw [walk_name e _ _ _ _ _ (List.cons_ne_nil _ _), walk_name d _ _ _ _ _ (List.cons_ne_nil _ _),
      h.get?_eq hx hne (isWithin_self _)]
    split
    · rfl
    · split
      · rfl
      · exact walk_congr_below (hn.downward x hdir) (fun q hq => h.get?_eq hx hne hq)
          (isWithin_self _) hdown
      · rfl
      · next t ht => exact absurd ht (hn.no_link x hdir t)
  unfold find findFrom
  split
  · rfl
  · split
    · rfl
    · split
      · rfl
      · rw [steps_join_join root hx.plain hname]
        exact (hl'.walk_append (by simp)).trans ((hsame _).trans (hl.walk_append (by simp)).symm)

/-- What a path into an install directory leads to lies in it. -/
theorem Neat.within_of_find (h : Neat d root dirs R) (hdir : dirs x) (hx : Path.Plain x)
    (hname : Path.Plain name) (hf : d.find l (Path.join (Path.join root x) name) = .ok found) :
    d.get? (R ++ [x]) = some .dir ∧ isWithin (R ++ [x]) found.place = true := by
  obtain ⟨k, hl⟩ := h.way
  have hw := walk_of_find hf
  rw [steps_join_join root hx hname, hl.walk_append (by simp), walk_name _ _ _ _ _ _ (by simp)] at hw
  split at hw
  · cases hw
  · split at hw
    · cases hw
    · next hd =>
      exact ⟨hd, Archive.within_of_walk (h.downward x hdir) hw (isWithin_self _)
        (by simp [Path.Component.isDownward])⟩
    · cases hw
    · next t ht => exact absurd ht (h.no_link x hdir t)

/-- A file or a free name that a path into an install directory leads to lies below that. -/
theorem Neat.below_of_find (h : Neat d root dirs R) (hdir : dirs x) (hx : Path.Plain x)
    (hname : Path.Plain name) (hf : d.find l (Path.join (Path.join root x) name) = .ok found)
    (hplace : d.get? found.place ≠ some .dir) : Below (R ++ [x]) found.place := by
  obtain ⟨hd, hw⟩ := h.within_of_find hdir hx hname hf
  exact ⟨hw, fun he => hplace (he ▸ hd)⟩

/-- A file under a name of an install directory that is no link there stands right there, and is found as
long as the ways lead there. -/
theorem Neat.find_kept {A : Place → Prop} {k : Nat} {place : Place} {file : FileData}
    (h : Neat d root dirs R) (hdir : dirs x) (hx : Path.Plain x) (hname : Path.Plain name)
    (hno : ∀ t, d.get? (R ++ [x] ++ [name]) ≠ some (.link t)) (hl : e.LeadsTo A root k R)
    (hstands : d.get? (R ++ [x]) = some .dir → e.get? (R ++ [x]) = some .dir)
    (hf : d.find .make (Path.join (Path.join root x) name) = .ok (.node place (.file file))) :
    d.get? (R ++ [x] ++ [name]) = some (.file file) ∧
      ∀ file', e.get? (R ++ [x] ++ [name]) = some (.file file') →
        e.find .make (Path.join (Path.join root x) name) =
          .ok (.node (R ++ [x] ++ [name]) (.file file')) := by
  obtain ⟨k', hway⟩ := h.way
  have hw := walk_of_find hf
  rw [steps_join_join root hx hname, hway.walk_append (by simp), walk_name _ _ _ _ _ _ (by simp)] at hw
  split at hw
  · cases hw
  next hshort =>
  split at hw
  · cases hw
  · next hd =>
    rw [walk_last, finish] at hw
    cases hslash : Path.endsInSlash (Path.join (Path.join root x) name) with
    | true => simp [hslash] at hw
    | false =>
      simp only [hslash, Bool.and_false, Bool.false_eq_true, if_false] at hw
      split at hw
      · cases hw
      next hshort' =>
      split at hw
      · cases hw
      · cases hw
      · next f hget =>
        cases hw
        refine ⟨hget, fun file' hfile' => ?_⟩
        rw [find_of_usable (usable_of_find hf), steps_join_join root hx hname, hl.walk_append (by simp),
          walk_name _ _ _ _ _ _ (by simp), if_neg hshort, hstands hd, walk_last, finish]
        simp only [hslash, Bool.and_false, Bool.false_eq_true, if_false, if_neg hshort', hfile']
      · next t ht => exact absurd ht (hno t)
  · cases hw
  · next t ht => exact absurd ht (h.no_link x hdir t)

/-- A change is confined if it keeps to the install directory and every link there leads further down. -/
theorem confines_of_outside (hwf : e.WellFormed) (hstart : e.workingDir = d.workingDir)
    (hout : ∀ q, ¬ Inside N R x q → e.get? q = d.get? q)
    (hlinks : Downward e (R ++ [x])) : Confines N d e R x := by
  refine ⟨hwf, hstart, fun q n hq hn => (hout q fun hin => hq hin.below).trans hn,
    fun q n hn => ?_, fun q t ht => ?_, fun s hs => hout _ fun hin => hs (hin.named s rfl)⟩
  · by_cases hq : Inside N R x q
    · exact .inr (.inl hq.below.1)
    · exact .inl ((hout q hq).symm.trans hn)
  · by_cases hq : Inside N R x q
    · exact .inr (.inl ⟨hq.below, hlinks q t hq.below ht⟩)
    · exact .inl ((hout q hq).symm.trans ht)

theorem downward_updateFile {P : Place} (h : Downward d P) (id : Nat) (u : FileData → FileData) :
    Downward (d.updateFile id u) P := fun q t hq ht => by
  rw [get?_updateFile] at ht
  obtain ⟨n, hn, he⟩ := Option.map_eq_some_iff.1 ht
  cases n <;> cases he
  exact h q t hq hn

theorem Settled.updateFile (h : Settled d root dirs R) (hdir : dirs x) {id : Nat}
    {u : FileData → FileData} (hu : ∀ data, (u data).id = data.id)
    (hplace : ∀ q data, d.get? q = some (.file data) → data.id = id → Inside N R x q) :
    Confines N d (d.updateFile id u) R x := by
  refine confines_of_outside (h.wellFormed.updateFile id hu) rfl (fun q hq => ?_)
    (downward_updateFile (h.neat.downward x hdir) id u)
  rw [get?_updateFile]
  cases hn : d.get? q with
  | none => rfl
  | some n =>
    cases n with
    | file data =>
      have hne : data.id ≠ id := fun he => hq (hplace q data hn he)
      simp [Node.updated, hne]
    | _ => rfl

/-- A new file in a directory of the install directory. -/
theorem Settled.create (h : Settled d root dirs R) (hdir : dirs x) {place : Place}
    (hin : Inside N R x place) (hv : d.get? place = none)
    (hparent : d.get? place.dropLast = some .dir) (mode : Nat) :
    Confines N d (d.created place mode) R x := by
  have hget := get?_created (d := d) hin.below.ne_nil mode
  refine confines_of_outside (h.wellFormed.create hv hparent) (workingDir_set _ _ _)
    (fun q hq => ?_) fun q t hq ht => ?_
  · rw [hget, if_neg fun he : q = place => hq (he ▸ hin)]
  · rw [hget] at ht
    split at ht
    · cases ht
    · exact h.neat.downward x hdir q t hq ht

theorem Settled.erase (h : Settled d root dirs R) (hdir : dirs x) (hin : Inside N R x q) :
    Confines N d (d.erase q) R x := by
  have hget : ∀ r, (d.erase q).get? r ≠ none → (d.erase q).get? r = d.get? r := fun r hr => by
    rw [get?_erase] at hr ⊢
    split at hr
    · exact absurd rfl hr
    · next hw => rw [if_neg hw]
  refine confines_of_outside (h.wellFormed.erase ?_) rfl (fun r hr => ?_) fun r t hr ht =>
    h.neat.downward x hdir r t hr (hget r (by rw [ht]; exact nofun) ▸ ht)
  · exact Bool.eq_false_iff.2 fun hw => h.neat.away x hdir (hin.below.trans hw)
  · rw [get?_erase, if_neg fun hw => hr (hin.within hw.2)]

theorem Settled.move (h : Settled d root dirs R) (hdir : dirs x) {source target : Place}
    (hs : Inside N R x source) (ht : Inside N R x target) (hv : d.get? target = none)
    (hparent : d.get? target.dropLast = some .dir) (hself : isWithin source target = false) :
    Confines N d (d.move source target) R x := by
  have hne := hs.below.ne_nil
  have hget := get?_move hne ht.below.ne_nil (h.wellFormed.of_vacant hv)
  refine confines_of_outside (h.wellFormed.move hne hv hparent hself ?_) rfl (fun q hq => ?_)
    fun q t hq hlink => ?_
  · exact Bool.eq_false_iff.2 fun hw => h.neat.away x hdir (hs.below.trans hw)
  · rw [hget, if_neg fun hw => hq (ht.within hw), if_neg fun hw => hq (hs.within hw)]
  · rw [hget] at hlink
    split at hlink
    · exact h.neat.downward x hdir _ t (hs.below.trans (isWithin_append source _)) hlink
    · split at hlink
      · cases hlink
      · exact h.neat.downward x hdir q t hq hlink

/-- What is opened in an install directory is a file in it then. -/
theorem Settled.openFile (h : Settled d root dirs R) (hdir : dirs x) (hx : Path.Plain x)
    (hdirs : ∀ x, dirs x → Visible x) (hname : Path.Plain name) {r : Except SystemError Nat}
    (ho : Disk.openFile (Path.join (Path.join root x) name) d = (r, e)) :
    Confines Anything d e R x ∧ ∀ id, r = .ok id → ∃ place file, file.id = id ∧
      Below (R ++ [x]) place ∧
      e.find .through (Path.join (Path.join root x) name) = .ok (.node place (.file file)) := by
  have hconfines : Confines Anything d e R x := by
    obtain ⟨fs, ⟨cause, rfl, rfl⟩ | ⟨place, file, hf, rfl, rfl⟩ | ⟨place, hf, rfl, rfl⟩⟩ :=
      openFile_cases ho
    · exact h.withFaults _ fs
    · exact h.withFaults _ fs
    · have hv := vacant_of_find hf
      have hb : Below (R ++ [x]) place := h.neat.below_of_find hdir hx hname hf
        (by rw [Found.place, hv]; exact nofun)
      have hfaults := h.withFaults (N := Anything) x fs
      have hparent := dir_of_walk_vacant h.wellFormed h.wellFormed.start (walk_of_find hf)
      exact hfaults.trans
        ((h.confines hdir hdirs hfaults).create hdir (inside_of_below hb) hv hparent _)
  refine ⟨hconfines, fun id hid => ?_⟩
  rcases find_openFile ho with ⟨⟨cause, he⟩, -⟩ | ⟨place, file, he, hfound, -⟩
  · rw [he] at hid
    cases hid
  · have hsettled := h.confines hdir hdirs hconfines
    refine ⟨place, file, Except.ok.inj (he.symm.trans hid), ?_, hfound⟩
    exact hsettled.neat.below_of_find hdir hx hname hfound
      (by rw [Found.place, get?_of_find hfound]; exact nofun)

theorem Settled.emptyFile (h : Settled d root dirs R) (hn : d.Numbered) (hdir : dirs x) (hx : Path.Plain x)
    (hdirs : ∀ x, dirs x → Visible x) (hname : Path.Plain name) {r : Except SystemError Nat}
    (ho : Disk.emptyFile (Path.join (Path.join root x) name) d = (r, e)) :
    Confines Anything d e R x := by
  obtain ⟨fs, ⟨cause, rfl, rfl⟩ | ⟨place, file, hf, rfl, rfl⟩ | ⟨place, hf, rfl, rfl⟩⟩ :=
    emptyFile_cases ho
  · exact h.withFaults _ fs
  · have hfile := get?_of_find (find_through_of_make hf)
    have hb : Below (R ++ [x]) place :=
      h.neat.below_of_find hdir hx hname hf
        (by rw [Found.place, hfile]; exact nofun)
    have hfaults := h.withFaults (N := Anything) x fs
    refine hfaults.trans ((h.confines hdir hdirs hfaults).updateFile hdir (fun _ => rfl) ?_)
    intro q data hq hid
    exact hn.place_eq hfile hq hid.symm ▸ inside_of_below hb
  · have hv := vacant_of_find hf
    have hb : Below (R ++ [x]) place := h.neat.below_of_find hdir hx hname hf
      (by rw [Found.place, hv]; exact nofun)
    have hfaults := h.withFaults (N := Anything) x fs
    have hparent := dir_of_walk_vacant h.wellFormed h.wellFormed.start (walk_of_find hf)
    exact hfaults.trans ((h.confines hdir hdirs hfaults).create hdir (inside_of_below hb) hv hparent _)

/-- The entry of a name in an install directory stands right there. -/
theorem Neat.place_of_entry (h : Neat d root dirs R) (hdir : dirs x) (hx : Path.Plain x)
    (hname : Path.Plain name)
    (hf : d.find .entry (Path.join (Path.join root x) name) = .ok found) :
    d.get? (R ++ [x]) = some .dir ∧ found.place = R ++ [x] ++ [name] := by
  have hsteps : Path.steps (Path.join (Path.join root x) name) =
      (Path.steps root ++ [.name x]) ++ [.name name] := by
    rw [steps_join_join root hx hname, List.append_assoc]
    rfl
  obtain ⟨m, dir, hl, -, rfl⟩ := find_entry_cases hsteps hf
  obtain ⟨k, hway⟩ := h.way
  obtain ⟨k', mid, hroot, hlast⟩ := hl.split
  obtain ⟨rfl, rfl⟩ := hway.unique hroot
  rcases hlast.name_cases with ⟨hd, -, -, rfl⟩ | ⟨t, _, ht, -⟩
  · refine ⟨hd, ?_⟩
    split <;> rfl
  · exact absurd ht (h.no_link x hdir t)

/-- One entry of an install directory takes the place of another one. -/
theorem Settled.rename (h : Settled d root dirs R) (hdir : dirs x) (hx : Path.Plain x)
    (hdirs : ∀ x, dirs x → Visible x) {a b : String} (ha : Path.Plain a) (hb : Path.Plain b)
    (hab : a ≠ b) (haN : N a) (hbN : N b) {r : Except SystemError Unit}
    (ho : Disk.rename (Path.join (Path.join root x) a) (Path.join (Path.join root x) b) d = (r, e)) :
    Confines N d e R x := by
  rcases r with cause | ⟨⟩
  · obtain ⟨fs, rfl⟩ := attempt_error ho
    exact h.withFaults _ fs
  have hapart : isWithin (R ++ [x] ++ [a]) (R ++ [x] ++ [b]) = false :=
    Bool.eq_false_iff.2 fun hw => hab (by simpa using (eq_of_isWithin hw (by simp)).symm)
  have hina := inside_entry R x haN
  have hinb := inside_entry R x hbN
  obtain ⟨fs, from_, n, hsource, ⟨to_, htarget, rfl⟩ | ⟨to_, old, htarget, hmoved⟩⟩ := rename_ok ho
  · obtain ⟨hd, rfl⟩ : _ ∧ from_ = _ := h.neat.place_of_entry hdir hx ha hsource
    obtain ⟨-, rfl⟩ : _ ∧ to_ = _ := h.neat.place_of_entry hdir hx hb htarget
    have hmove := h.move hdir hina hinb (vacant_of_find htarget)
      (by rwa [List.dropLast_concat]) hapart
    exact hmove.trans ((h.confines hdir hdirs hmove).withFaults _ fs)
  · obtain ⟨hd, rfl⟩ : _ ∧ from_ = _ := h.neat.place_of_entry hdir hx ha hsource
    obtain ⟨-, rfl⟩ : _ ∧ to_ = _ := h.neat.place_of_entry hdir hx hb htarget
    obtain rfl := hmoved.resolve_left fun he => hab (by simpa using he)
    have herase := h.erase hdir hinb
    have hleft := h.confines hdir hdirs herase
    have hmove := hleft.move hdir hina hinb
      (by rw [get?_erase, if_pos ⟨by simp, isWithin_self _⟩])
      (by
        rw [List.dropLast_concat, get?_erase, if_neg, hd]
        exact fun hw => hinb.below.2 (eq_of_isWithin hw.2 (by simp)).symm) hapart
    exact (herase.trans hmove).trans ((hleft.confines hdir hdirs hmove).withFaults _ fs)

theorem Settled.makeDirs (h : Settled d root dirs R) (hx : Path.Plain x)
    {r : Except SystemError Unit} (ho : Disk.makeDirs (Path.join root x) d = (r, e)) :
    Confines N d e R x := by
  obtain ⟨k, hl⟩ := h.neat.way
  have hgrown := grown_of_parent h.wellFormed hl.anywhere (Path.steps_join_plain root hx) ho
  exact ⟨hgrown.wellFormed, (Spares.of_same (.refl d)).grown (fun _ => id) hgrown⟩

theorem Settled.without (h : Settled d root dirs R) (hdir : dirs x) (hx : Path.Plain x)
    (hname : Path.Plain name) (hN : N name) :
    Confines N d (d.without (Path.join (Path.join root x) name)) R x := by
  unfold Disk.without
  split
  · next place n hf =>
    obtain ⟨-, rfl⟩ : _ ∧ place = _ := h.neat.place_of_entry hdir hx hname hf
    exact h.erase hdir (inside_entry R x hN)
  · exact h.refl

/-- A new file is made, and no other file has its identity. -/
theorem Settled.createNew (h : Settled d root dirs R) (hdir : dirs x) (hx : Path.Plain x)
    (hdirs : ∀ x, dirs x → Visible x) (hname : Path.Plain name) (hN : N name) {mode id : Nat}
    (ho : Disk.createNew (Path.join (Path.join root x) name) mode d = (.ok id, e)) :
    Confines N d e R x ∧
      ∀ q file, e.get? q = some (.file file) → file.id = id → Inside N R x q := by
  obtain ⟨fs, place, hf, rfl, rfl⟩ := createNew_ok ho
  obtain ⟨hd, rfl⟩ : _ ∧ place = _ := h.neat.place_of_entry hdir hx hname hf
  have hin := inside_entry R x hN
  have hv := vacant_of_find hf
  have hparent : d.get? (R ++ [x] ++ [name]).dropLast = some .dir := by rwa [List.dropLast_concat]
  have hfaults := h.withFaults (N := N) x fs
  have hmade := (h.confines hdir hdirs hfaults).create hdir hin hv hparent mode
  refine ⟨hfaults.trans hmade, fun q file hq hid => ?_⟩
  change ({ d with faults := fs }.created (R ++ [x] ++ [name]) mode).get? q = some (.file file) at hq
  rw [get?_created hin.below.ne_nil] at hq
  split at hq
  · next he => exact he ▸ hin
  · exact absurd (hid ▸ h.wellFormed.fresh q file hq) (lt_irrefl _)

/-- A file of the install directory is written. -/
theorem Settled.fill (h : Settled d root dirs R) (hdir : dirs x) (hdirs : ∀ x, dirs x → Visible x)
    {id : Nat} (hid : ∀ q file, d.get? q = some (.file file) → file.id = id → Inside N R x q)
    {bs : Text.Bytes} {r : Except SystemError Unit}
    (ho : (do Disk.append id bs; Disk.sync : DiskM Unit) d = (r, e)) : Confines N d e R x := by
  rcases bind_cases ho with ⟨_, -, happ⟩ | ⟨⟨⟩, mid, happ, hsync⟩
  · obtain ⟨fs, rfl⟩ := attempt_error happ
    exact h.withFaults _ fs
  · have hop := attempt_ok happ
    cases hop
    have hfaults := h.withFaults (N := N) x (d.faults.drop 1)
    have hwritten := (h.confines hdir hdirs hfaults).updateFile hdir
      (u := fun f => { f with data := f.data ++ bs }) (fun _ => rfl) hid
    have hfilled := hfaults.trans hwritten
    refine hfilled.trans ?_
    have h := h.confines hdir hdirs hfilled
    rcases r with cause | ⟨⟩
    · obtain ⟨fs, rfl⟩ := attempt_error hsync
      exact h.withFaults _ fs
    · have hop := attempt_ok hsync
      cases hop
      exact h.withFaults _ _

/-- A configuration is written in the install directory, or it is not written. -/
theorem Settled.writeIn (h : Settled d root dirs R) (hdir : dirs x)
    (hdirs : ∀ x, dirs x → Visible x) {config : RenderedConfig} (hname : Visible name) (hN : N name)
    (htmpN : ∀ k, N (".config-" ++ Number.decimal k ++ ""))
    (hpath : config.path = Path.join (Path.join root x) name) {r : Except Error Unit}
    (hw : config.writeIn (Path.join root x) d = (r, e)) : Confines N d e R x := by
  have hx := (hdirs x hdir).plain
  unfold RenderedConfig.writeIn at hw
  rcases bind_cases hw with ⟨_, -, hmk⟩ | ⟨⟨⟩, made, hmk, hw⟩
  · obtain ⟨_, hop⟩ := of_doing hmk
    exact h.makeDirs hx hop
  have hmade := h.makeDirs (N := N) hx (doing_ok hmk)
  refine hmade.trans ?_
  have h := h.confines hdir hdirs hmade
  rcases bind_cases hw with ⟨_, -, hask⟩ | ⟨temporary, mid, hask, hw⟩
  · cases hask
  cases hask
  obtain ⟨k, hk⟩ : ∃ k, made.temporaryPath (Path.join root x) ".config-" "" = _ :=
    freshPath_eq made (Path.join root x) ".config-" "" made.nodes.length 0
  simp only [hk] at hw
  have htmp : Path.Plain (".config-" ++ Number.decimal k ++ "") :=
    plain_temporary (by decide) (by decide) (by decide) k
  have hother : ".config-" ++ Number.decimal k ++ "" ≠ name := by
    rintro rfl
    exact hname.no_dot (by simp [String.toList_append])
  have htmpN := htmpN k
  generalize ".config-" ++ Number.decimal k ++ "" = tmp at hw htmp hother htmpN
  rcases bind_cases hw with ⟨_, -, hnew⟩ | ⟨id, opened, hnew, hw⟩
  · obtain ⟨_, hop⟩ := doing_error hnew
    obtain ⟨fs, rfl⟩ := attempt_error hop
    exact h.withFaults _ fs
  obtain ⟨hopened, hid⟩ := h.createNew hdir hx hdirs htmp htmpN (doing_ok hnew)
  refine hopened.trans ?_
  have h := h.confines hdir hdirs hopened
  have hreplace : ∀ {r last}, config.replace (Path.join (Path.join root x) tmp) id opened = (r, last) →
      Confines N opened last R x := by
    intro r last hr
    rcases bind_cases hr with ⟨_, -, hwrite⟩ | ⟨⟨⟩, written, hwrite, hr⟩
    · obtain ⟨_, hop⟩ := of_doing hwrite
      exact h.fill hdir hdirs hid hop
    · have hfilled := h.fill hdir hdirs hid (doing_ok hwrite)
      refine hfilled.trans ?_
      rw [hpath] at hr
      obtain ⟨_, hop⟩ := of_doing hr
      exact (h.confines hdir hdirs hfilled).rename hdir hx hdirs htmp hname.plain hother htmpN hN hop
  unfold TaskM.removingOnError at hw
  rcases hr : config.replace (Path.join (Path.join root x) tmp) id opened with ⟨_ | ⟨⟩, last⟩ <;>
    rw [hr] at hw <;> cases hw
  · have hlast := hreplace hr
    exact hlast.trans ((h.confines hdir hdirs hlast).without hdir hx htmp htmpN)
  · exact hreplace hr

/-! Provisioning -/

theorem Settled.tidy (h : Settled d root dirs R) : Tidy d root dirs := by
  obtain ⟨k, hl⟩ := h.neat.way
  refine ⟨h.wellFormed, fun m R' hl' => ?_, .inl ⟨k, R, hl.anywhere⟩⟩
  obtain ⟨-, rfl⟩ := hl.unique hl'
  exact h.neat

theorem Tidy.settled (h : Tidy d root dirs) {m : Nat} (hl : d.LeadsTo Anywhere root m R) :
    Settled d root dirs R := ⟨h.wellFormed, h.neat m R hl⟩

variable {p p' : Provisioner} {env : ProvisionEnv} {desc : Descriptor}

theorem Settled.provision (h : Settled d p.root dirs R) (hdirs : ∀ x, dirs x → Visible x)
    (hdesc : Lodger desc dirs) (horder : ∀ l, (env.order l).Perm l) {r : Except Halt Path}
    (hN : ∀ artifact, desc.artifact = some artifact → FetchesNamed env artifact N)
    (hrun : p.provision env desc d = (r, p', e)) : Confines N d e R desc.installDir := by
  obtain ⟨k, hl⟩ := h.neat.way
  obtain ⟨hwf, hs⟩ := h.tidy.spares_provision hdirs hdesc horder hN hl.anywhere hrun
  exact ⟨hwf, hs⟩

/-- Where something was provisioned, the root leads somewhere. -/
theorem Tidy.leads_of_provision (h : Tidy d p.root dirs) (hdirs : ∀ x, dirs x → Visible x)
    (hdesc : Lodger desc dirs) (horder : ∀ l, (env.order l).Perm l)
    (hexe : desc.artifact ≠ none → desc.executable ≠ none) {install : Path}
    (hrun : p.provision env desc d = (.ok install, p', e)) : ∃ m R, e.LeadsTo Anywhere p.root m R := by
  have hroot := Provisioner.root_of_provision hrun
  have hx := (hdirs _ hdesc.mem).plain
  cases hart : desc.artifact with
  | none =>
    unfold Provisioner.provision Provisioner.provisionBuiltIn at hrun
    simp only [hart] at hrun
    split at hrun
    · next hmk =>
      cases hrun
      obtain ⟨m, there, hl⟩ := leadsTo_of_makeDirs (doing_ok hmk)
      rw [LeadsTo, Provisioner.installPath, Descriptor.installPath, Path.steps_join_plain _ hx] at hl
      obtain ⟨k, R, hl, -⟩ := hl.split
      exact ⟨k, R, hl⟩
    · cases hrun
  | some artifact =>
    have hi := (h.provision hdirs hdesc horder hrun).2 (by simp [hart]) ⟨_, rfl⟩
    obtain ⟨name, hname⟩ := Option.ne_none_iff_exists'.1 (hexe (by simp [hart]))
    unfold Provisioner.isInstalled Descriptor.executablePath Provisioner.installPath at hi
    rw [hname, hroot] at hi
    simp only [Option.map_some] at hi
    exact leads_of_isFile hx (hdesc.executable name hname) hi

end confines

end RigWarden.Provision
