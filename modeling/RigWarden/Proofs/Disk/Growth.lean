import RigWarden.Proofs.Disk.Effects

/-!
# Disks with more or less on them

Ways that lead somewhere on a part of a disk lead there on the whole disk. Making a path and the
directories above it adds directories where nothing stood, and changes nothing else; when it succeeds
the path leads to a directory.
-/

namespace RigWarden.Disk

/-- Everything of the first disk is on the second. -/
structure Part (d e : Disk) : Prop where
  start : d.workingDir = e.workingDir
  has : ∀ p n, d.get? p = some n → e.get? p = some n

theorem Part.leads {d e : Disk} (h : Part d e) {A : Place → Prop} {n m : Nat} {here there : Place}
    {cs : List Path.Component} (hl : d.Leads A n here cs m there) :
    e.Leads Anywhere n here cs m there :=
  hl.mono fun p n _ hn _ => ⟨trivial, h.has p n hn⟩

theorem Part.trans {d e f : Disk} (h : Part d e) (h' : Part e f) : Part d f :=
  ⟨h.start.trans h'.start, fun p n hn => h'.has p n (h.has p n hn)⟩

theorem Part.leadsTo {d e : Disk} (h : Part d e) {A : Place → Prop} {p : Path} {m : Nat}
    {there : Place} (hl : d.LeadsTo A p m there) : e.LeadsTo Anywhere p m there := by
  rw [LeadsTo, ← h.start]
  exact h.leads hl

theorem part_erase (d : Disk) (p : Place) (fs : List (Option SystemError)) :
    Part { d.erase p with faults := fs } d := by
  refine ⟨rfl, fun q n hn => ?_⟩
  change (d.erase p).get? q = some n at hn
  rw [get?_erase] at hn
  split at hn
  · cases hn
  · exact hn

/-- The disks hold the same. -/
structure Same (d e : Disk) : Prop where
  start : e.workingDir = d.workingDir
  get? : ∀ q, e.get? q = d.get? q

theorem Same.refl (d : Disk) : Same d d := ⟨rfl, fun _ => rfl⟩

theorem Same.trans {d e f : Disk} (h : Same d e) (h' : Same e f) : Same d f :=
  ⟨h'.start.trans h.start, fun q => (h'.get? q).trans (h.get? q)⟩

theorem same_withFaults (d : Disk) (fs : List (Option SystemError)) :
    Same d { d with faults := fs } := ⟨rfl, fun _ => rfl⟩

/-- The disks have the same directories and links. -/
structure Alike (d e : Disk) : Prop where
  start : d.workingDir = e.workingDir
  same : ∀ q n, (∀ f, n ≠ .file f) → (d.get? q = some n ↔ e.get? q = some n)

section alike

variable {d e f : Disk} {A : Place → Prop} {p : Path} {n m : Nat} {here there : Place}
  {cs : List Path.Component}

theorem Alike.symm (h : Alike d e) : Alike e d := ⟨h.start.symm, fun q n hn => (h.same q n hn).symm⟩

theorem Alike.trans (h : Alike d e) (h' : Alike e f) : Alike d f :=
  ⟨h.start.trans h'.start, fun q n hn => (h.same q n hn).trans (h'.same q n hn)⟩

theorem alike_withFaults (d : Disk) (fs : List (Option SystemError)) :
    Alike d { d with faults := fs } := ⟨rfl, fun _ _ _ => .rfl⟩

theorem Alike.leads (h : Alike d e) (hl : d.Leads A n here cs m there) :
    e.Leads A n here cs m there :=
  hl.mono fun q n hA hn hfile => ⟨hA, (h.same q n hfile).1 hn⟩

theorem Alike.leadsTo (h : Alike d e) (hl : d.LeadsTo A p m there) : e.LeadsTo A p m there := by
  rw [LeadsTo, ← h.start]
  exact h.leads hl

theorem Alike.reaches_iff (h : Alike d e) : d.Reaches n p there ↔ e.Reaches n p there := by
  rw [Disk.reaches_iff, Disk.reaches_iff, h.start]
  exact exists_congr fun _ => ⟨h.leads, h.symm.leads⟩

/-- A new file changes nothing on the ways. -/
theorem alike_create {q : Place} {data : FileData} {k : Nat} (hq : q ≠ []) (hv : d.get? q = none) :
    Alike d { d.set q (.file data) with nextId := k } := by
  refine ⟨(workingDir_set d q _).symm, fun r n hn => ?_⟩
  change _ ↔ (d.set q (.file data)).get? r = some n
  rw [get?_set hq]
  split
  · next he =>
    subst he
    rw [hv]
    exact ⟨nofun, fun h => absurd (Option.some.inj h).symm (hn data)⟩
  · rfl

theorem alike_updateFile (d : Disk) (id : Nat) (f : FileData → FileData) :
    Alike d (d.updateFile id f) := by
  refine ⟨rfl, fun q n hn => ?_⟩
  rw [get?_updateFile]
  cases d.get? q with
  | none => simp
  | some m =>
    cases m with
    | file data =>
      refine ⟨fun h => absurd (Option.some.inj h).symm (hn data), fun h => ?_⟩
      exact absurd (Option.some.inj h).symm (hn _)
    | _ => simp [Node.updated]

theorem createNew_ok {mode id : Nat} {after : Disk} (h : createNew p mode d = (.ok id, after)) :
    ∃ fs place, d.find .entry p = .ok (.vacant place) ∧ id = d.nextId ∧
      after = { { d with faults := fs }.set place (.file ⟨d.nextId, [], mode⟩) with
        nextId := d.nextId + 1 } := by
  have hop := attempt_ok h
  rw [find_withFaults] at hop
  rcases hf : d.find .entry p with _ | ⟨place, n⟩ | place <;>
    simp only [hf, Bind.bind, Except.bind] at hop <;> cases hop
  exact ⟨d.faults.drop 1, place, rfl, rfl, rfl⟩

end alike

/-- The disk is what `base` becomes when directories are made, at places in `N` only. -/
structure Grown (base : Disk) (N : Place → Prop) (d : Disk) : Prop where
  wellFormed : d.WellFormed
  start : d.workingDir = base.workingDir
  next : d.nextId = base.nextId
  same : ∀ q, d.get? q = base.get? q ∨ N q ∧ base.get? q = none ∧ d.get? q = some .dir

section grown

variable {base d : Disk} {N : Place → Prop} {p : Path} {A : Place → Prop} {n m : Nat}
  {here there : Place} {cs : List Path.Component}

theorem WellFormed.grown (h : base.WellFormed) (N : Place → Prop) : Grown base N base :=
  ⟨h, rfl, rfl, fun _ => .inl rfl⟩

theorem grown_blind (base : Disk) (N : Place → Prop) : Blind (Grown base N) := fun _ fs h =>
  ⟨h.wellFormed.withFaults fs, h.start, h.next, h.same⟩

theorem Grown.has (h : Grown base N d) {q : Place} {n : Node} (hq : base.get? q = some n) :
    d.get? q = some n := by
  rcases h.same q with he | ⟨-, hv, -⟩
  · rw [he, hq]
  · rw [hv] at hq
    cases hq

theorem Grown.part (h : Grown base N d) : Part base d := ⟨h.start.symm, fun _ _ hn => h.has hn⟩

theorem Grown.eq_of_not_dir (h : Grown base N d) {q : Place} {n : Node} (hq : d.get? q = some n)
    (hn : n ≠ .dir) : base.get? q = some n := by
  rcases h.same q with he | ⟨-, -, hd⟩
  · rw [← he, hq]
  · rw [hq] at hd
    exact absurd (Option.some.inj hd) hn

theorem Grown.leads (h : Grown base N d) (hl : base.Leads A n here cs m there) :
    d.Leads A n here cs m there :=
  hl.mono fun _ _ hA hn _ => ⟨hA, h.has hn⟩

theorem Grown.leadsTo (h : Grown base N d) (hl : base.LeadsTo A p m there) :
    d.LeadsTo A p m there := by
  rw [LeadsTo, h.start]
  exact h.leads hl

/-- A directory that is made has a directory above it. -/
theorem Grown.set (h : Grown base N d) {q : Path} {place : Place}
    (hf : d.find .entry q = .ok (.vacant place)) (hN : N place) : Grown base N (d.set place .dir) := by
  obtain ⟨_, s, _, dir, -, hl, rfl, hv, -⟩ := walk_entry_vacant (walk_of_find hf)
  have hd : d.get? (dir ++ [s]).dropLast = some .dir := by
    rw [List.dropLast_concat]
    exact hl.dir h.wellFormed h.wellFormed.start
  refine ⟨h.wellFormed.set hv hd nofun, by rw [workingDir_set, h.start], by rw [nextId_set, h.next],
    fun p => ?_⟩
  rw [get?_set (by simp)]
  split
  · next he =>
    subst he
    refine .inr ⟨hN, ?_, rfl⟩
    rcases h.same (dir ++ [s]) with he | ⟨-, hb, -⟩
    · rw [← he, hv]
    · exact hb
  · exact h.same p

theorem keeps_makeDirs (hN : ∀ q place d, Grown base N d → Path.steps q <+: Path.steps p →
    d.find .entry q = .ok (.vacant place) → N place) :
    Keeps (Grown base N) (makeDirs p) Keeps.Always :=
  Keeps.makeDirs (grown_blind base N).fading fun q hq _ place hd hf => hd.set hf (hN q place _ hd hq hf)

theorem Leads.set (hl : d.Leads A n here cs m there) {q : Place} {s : String} {node : Node}
    (hv : d.get? (q ++ [s]) = none) :
    (d.set (q ++ [s]) node).Leads Anywhere n here cs m there := by
  refine hl.mono fun r k _ hr _ => ⟨trivial, ?_⟩
  rw [get?_set (by simp), if_neg fun he => ?_, hr]
  rw [he, hv] at hr
  cases hr

/-- A directory that is made is where its path leads. -/
theorem leadsTo_set {q : Path} {s : String} (hq : Path.steps q = cs ++ [.name s])
    (hl : d.Leads A maxLinks d.workingDir cs m there) (hv : d.get? (there ++ [s]) = none)
    (hs : (Text.utf8 s).length ≤ maxName) :
    (d.set (there ++ [s]) .dir).LeadsTo Anywhere q m (there ++ [s]) := by
  rw [LeadsTo, hq, workingDir_set]
  exact (hl.set hv).concat (.down hs trivial (by rw [get?_set (by simp), if_pos rfl]))

/-- What is made is where a first part of the path leads. -/
theorem made_on_way (hbase : base.WellFormed) {r : Except SystemError Unit} {after : Disk}
    (h : makeDirs p base = (r, after)) {q : Place} (hq : base.get? q = none)
    (hmade : after.get? q ≠ none) :
    ∃ way m, Path.steps way <+: Path.steps p ∧ after.LeadsTo Anywhere way m q := by
  have hblind : Blind fun d => Grown base (fun _ => True) d ∧ ∀ q, base.get? q = none →
      d.get? q ≠ none → ∃ way m, Path.steps way <+: Path.steps p ∧ d.LeadsTo Anywhere way m q :=
    fun d fs hd => ⟨grown_blind _ _ d fs hd.1, fun q hq hm => by
      obtain ⟨way, m, hway, hl⟩ := hd.2 q hq hm
      exact ⟨way, m, hway, (alike_withFaults d fs).leadsTo hl⟩⟩
  refine ((Keeps.makeDirs hblind.fading fun way hway d place hd hf => ⟨hd.1.set hf trivial, ?_⟩) base
    ⟨hbase.grown _, fun q hq hm => absurd hq hm⟩ r after h).1.2 q hq hmade
  obtain ⟨cs, s, m, dir, hcs, hl, rfl, hv, hs⟩ := walk_entry_vacant (walk_of_find hf)
  intro q hq hm
  by_cases hnew : q = dir ++ [s]
  · subst hnew
    exact ⟨way, m, hway, leadsTo_set hcs hl hv hs⟩
  · rw [get?_set (by simp), if_neg hnew] at hm
    obtain ⟨way', m', hway', hl'⟩ := hd.2 q hq hm
    refine ⟨way', m', hway', ?_⟩
    rw [LeadsTo, workingDir_set]
    exact hl'.set hv

/-- The first directory that is made stands where a first part of the path has led before. -/
theorem first_made {r : Except SystemError Unit} {after : Disk}
    (h : makeDirs p base = (r, after)) :
    Same base after ∨ ∃ way cs s m dir, Path.steps way <+: Path.steps p ∧
      Path.steps way = cs ++ [.name s] ∧
      base.Leads Anywhere maxLinks base.workingDir cs m dir ∧ base.get? (dir ++ [s]) = none ∧
      after.LeadsTo Anywhere way m (dir ++ [s]) := by
  have hblind : Blind fun d => Same base d ∨ ∃ way cs s m dir, Path.steps way <+: Path.steps p ∧
      Path.steps way = cs ++ [.name s] ∧
      base.Leads Anywhere maxLinks base.workingDir cs m dir ∧ base.get? (dir ++ [s]) = none ∧
      d.LeadsTo Anywhere way m (dir ++ [s]) := fun d fs hd =>
    hd.imp (fun hsame => hsame.trans (same_withFaults d fs))
      fun ⟨way, cs, s, m, dir, hway, hcs, hl, hv, hnew⟩ =>
        ⟨way, cs, s, m, dir, hway, hcs, hl, hv, (alike_withFaults d fs).leadsTo hnew⟩
  refine ((Keeps.makeDirs hblind.fading fun way hway d place hd hf => ?_) base (.inl (.refl base)) r
    after h).1
  obtain ⟨cs, s, m, dir, hcs, hl, rfl, hv, hs⟩ := walk_entry_vacant (walk_of_find hf)
  rcases hd with hsame | ⟨way', cs', s', m', dir', hway', hcs', hl', hv', hnew⟩
  · refine .inr ⟨way, cs, s, m, dir, hway, hcs, ?_, (hsame.get? _).symm.trans hv,
      leadsTo_set hcs hl hv hs⟩
    rw [← hsame.start]
    exact hl.mono fun q n _ hn _ => ⟨trivial, (hsame.get? q).symm.trans hn⟩
  · refine .inr ⟨way', cs', s', m', dir', hway', hcs', hl', hv', ?_⟩
    rw [LeadsTo, workingDir_set]
    exact hnew.set hv

/-- When no failure is to come, none is to come later. -/
theorem keeps_calm_makeDirs (p : Path) : Keeps (fun d => d.faults = []) (makeDirs p) Keeps.Always :=
  Keeps.makeDirs (fun d hd => by simp [hd]) fun _ _ _ _ hd _ => by rwa [faults_set]

/-- A path that is made from one that is there: only its own place can be new. -/
theorem grown_of_parent {q : Path} {s : String} (hbase : base.WellFormed)
    (hl : base.LeadsTo A q m there) (hp : Path.steps p = Path.steps q ++ [.name s])
    {r : Except SystemError Unit} {after : Disk} (h : makeDirs p base = (r, after)) :
    Grown base (· = there ++ [s]) after :=
  (keeps_makeDirs (fun _ _ _ hd hr hf => (hd.leadsTo hl).vacant_eq hp hr hf) base
    (hbase.grown _) r after h).1

/-- Nothing is made on a way that leads somewhere. -/
theorem grown_of_leads (hbase : base.WellFormed) (hl : base.LeadsTo A p m there)
    {r : Except SystemError Unit} {after : Disk} (h : makeDirs p base = (r, after)) :
    Grown base (fun _ => False) after :=
  (keeps_makeDirs (fun _ _ _ hd hr hf => absurd hf ((hd.leadsTo hl).not_vacant hr)) base
    (hbase.grown _) r after h).1

theorem grown_of_makeDirs (hbase : base.WellFormed) {r : Except SystemError Unit} {after : Disk}
    (h : makeDirs p base = (r, after)) : Grown base (fun _ => True) after :=
  (keeps_makeDirs (fun _ _ _ _ _ _ => trivial) base (hbase.grown _) r after h).1

end grown

section made

variable {d after : Disk} {p : Path}

/-- A directory that was made stands at the last name of its path, where nothing stood. -/
theorem makeDir_ok (h : makeDir p d = (.ok (), after)) :
    ∃ fs cs s m dir, Usable p ∧ Path.steps p = cs ++ [.name s] ∧
      d.Leads Anywhere maxLinks d.workingDir cs m dir ∧ d.get? (dir ++ [s]) = none ∧
      (Text.utf8 s).length ≤ maxName ∧ after = { d with faults := fs }.set (dir ++ [s]) .dir := by
  have hop := attempt_ok h
  rw [find_withFaults] at hop
  rcases hf : d.find .entry p with _ | ⟨place, n⟩ | place <;>
    simp only [hf, Bind.bind, Except.bind] at hop <;> cases hop
  obtain ⟨cs, s, m, dir, hcs, hl, rfl, hv, hs⟩ := walk_entry_vacant (walk_of_find hf)
  exact ⟨d.faults.drop 1, cs, s, m, dir, usable_of_find hf, hcs, hl, hv, hs, rfl⟩

theorem has_of_set {q : Place} {s : String} {n : Node} {fs : List (Option SystemError)}
    (hv : d.get? (q ++ [s]) = none) {r : Place} {m : Node} (hr : d.get? r = some m) :
    ({ d with faults := fs }.set (q ++ [s]) n).get? r = some m := by
  rw [get?_set (by simp), if_neg]
  · exact hr
  · rintro rfl
    rw [hv] at hr
    cases hr

theorem isDir_of_makeDir (h : makeDir p d = (.ok (), after)) : after.isDir p = true := by
  obtain ⟨fs, cs, s, m, dir, hu, hcs, hl, hv, hs, rfl⟩ := makeDir_ok h
  refine isDir_iff.2 ⟨hu, m, dir ++ [s], ?_⟩
  rw [LeadsTo, hcs, workingDir_set]
  have hl' : ({ d with faults := fs }.set (dir ++ [s]) .dir).Leads Anywhere maxLinks d.workingDir cs
      m dir := hl.mono fun q n _ hn _ => ⟨trivial, has_of_set hv hn⟩
  exact hl'.concat (.down hs trivial (by rw [get?_set (by simp), if_pos rfl]))

@[simp] theorem isDir_withFaults (d : Disk) (fs : List (Option SystemError)) (p : Path) :
    isDir { d with faults := fs } p = isDir d p := by
  unfold isDir node?
  rw [find_withFaults]

theorem isDir_of_ensureDir (h : ensureDir p d = (.ok (), after)) : after.isDir p = true := by
  unfold ensureDir at h
  split at h
  · next hop =>
    obtain ⟨fs, rfl⟩ := attempt_error hop
    split at h <;> cases h
    rwa [isDir_withFaults]
  · exact isDir_of_makeDir h

theorem isDir_of_makeDirsFrom {ps : List Path}
    (h : makeDirsFrom (p :: ps) d = (.ok (), after)) : after.isDir p = true := by
  unfold makeDirsFrom at h
  split at h
  · rw [bind_apply] at h
    split at h
    · exact isDir_of_ensureDir h
    · cases h
  · next hop =>
    obtain ⟨fs, rfl⟩ := attempt_error hop
    split at h <;> cases h
    rwa [isDir_withFaults]
  · exact isDir_of_makeDir h

theorem ancestors_eq_cons (hp : p ≠ "") :
    ∃ ps, (ancestors p.length p).filter (· ≠ "") = p :: ps := by
  cases p.length with
  | zero => exact ⟨[], by simp [ancestors, hp]⟩
  | succ n => exact ⟨_, by rw [ancestors, List.filter_cons_of_pos (by simpa using hp)]⟩

/-- A path that was made leads to a directory. -/
theorem leadsTo_of_makeDirs (h : makeDirs p d = (.ok (), after)) :
    ∃ m there, after.LeadsTo Anywhere p m there := by
  by_cases hp : p = ""
  · exact ⟨maxLinks, after.workingDir, by rw [LeadsTo, hp]; exact .refl _ _ _ _⟩
  · obtain ⟨ps, hps⟩ := ancestors_eq_cons hp
    rw [makeDirs, if_neg hp, hps] at h
    exact (isDir_iff.1 (isDir_of_makeDirsFrom h)).2

theorem makeDir_calm_error (hcalm : d.faults = []) {e : SystemError}
    (h : makeDir p d = (.error e, after)) :
    after = d ∧ (e = .notFound → d.find .entry p = .error e) := by
  rw [makeDir, attempt_calm hcalm] at h
  rcases hf : d.find .entry p with _ | ⟨_, _⟩ | _ <;>
    simp only [hf, Bind.bind, Except.bind] at h <;> cases h
  · exact ⟨rfl, fun _ => rfl⟩
  · exact ⟨rfl, nofun⟩

/-- When no failure is to come, nothing is left of a path that cannot be made in a directory. -/
theorem makeDirs_calm_error {A : Place → Prop} {q : Path} {s : String} {m : Nat} {there : Place}
    (hcalm : d.faults = []) (hl : d.LeadsTo A q m there)
    (hp : Path.steps p = Path.steps q ++ [.name s]) {e : SystemError}
    (h : makeDirs p d = (.error e, after)) : after = d := by
  have hne : p ≠ "" := by
    rintro rfl
    exact absurd hp.symm (List.append_ne_nil_of_right_ne_nil _ (List.cons_ne_nil _ _))
  obtain ⟨ps, hps⟩ := ancestors_eq_cons hne
  rw [makeDirs, if_neg hne, hps] at h
  unfold makeDirsFrom at h
  split at h
  · next hop => exact absurd ((makeDir_calm_error hcalm hop).2 rfl) (find_entry_ne_notFound hp hl)
  · next hop =>
    obtain ⟨rfl, -⟩ := makeDir_calm_error hcalm hop
    split at h <;> cases h
    rfl
  · next hop => exact absurd h (hop e after)

end made

end RigWarden.Disk
