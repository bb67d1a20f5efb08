import RigWarden.Proofs.Disk.Growth

/-!
# Making what is missing

When no failure is to come and the system takes a path, the directories on the way down to it are
made, unless something else stands there. What is made is described by the places at which there is
a directory afterwards.
-/

namespace RigWarden.Disk

open Text

/-- The system takes the path of these names below a directory. -/
structure Taken (base : Path) (ns : List String) : Prop where
  usable : Usable (Path.below base ns)
  short : ∀ s ∈ ns, (utf8 s).length ≤ maxName

theorem taken_iff {base : Path} {ns : List String} : Taken base ns ↔
    (Path.below base ns ≠ "" ∧ (Path.below base ns).toList.contains (Char.ofNat 0) = false ∧
      (utf8 (Path.below base ns)).length < maxPath) ∧ ∀ s ∈ ns, (utf8 s).length ≤ maxName :=
  ⟨fun h => ⟨⟨h.usable.ne_empty, h.usable.no_nul, h.usable.short⟩, h.short⟩,
    fun h => ⟨⟨h.1.1, h.1.2.1, h.1.2.2⟩, h.2⟩⟩

instance (base : Path) (ns : List String) : Decidable (Taken base ns) :=
  decidable_of_iff _ taken_iff.symm

/-- A path of plain names that the system takes. -/
structure Accepted (base : Path) (ns : List String) : Prop extends Taken base ns where
  plain : ∀ s ∈ ns, Path.Plain s

section accepted

variable {base p q : Path} {ns : List String} {a s : String}

theorem Usable.of_append {cs : Chars} (h : Usable p) (hp : p.toList = q.toList ++ cs) (hq : q ≠ "") :
    Usable q := by
  have hlong := h.short
  have hnul := h.no_nul
  rw [utf8, hp, encodeUtf8, List.flatMap_append, List.length_append] at hlong
  rw [hp, List.contains_append, Bool.or_eq_false_iff] at hnul
  exact ⟨hq, hnul.1, by rw [utf8, encodeUtf8]; omega⟩

theorem toList_join_eq (base : Path) (hs : Path.Plain s) :
    ∃ cs, (Path.join base s).toList = base.toList ++ cs ∧ cs ≠ [] := by
  rcases Path.toList_join base hs.isAbsolute with ⟨he, -⟩ | ⟨he, -⟩
  · exact ⟨_, he, hs.ne_nil⟩
  · exact ⟨_, he, List.cons_ne_nil _ _⟩

theorem join_ne_empty (base : Path) (hs : Path.Plain s) : Path.join base s ≠ "" := by
  obtain ⟨cs, hcs, hne⟩ := toList_join_eq base hs
  intro he
  rw [he] at hcs
  exact hne (List.append_eq_nil_iff.1 hcs.symm).2

theorem Accepted.of_concat (h : Accepted base (ns ++ [s])) (hne : Path.below base ns ≠ "") :
    Accepted base ns := by
  obtain ⟨cs, hcs, -⟩ := toList_join_eq (Path.below base ns) (h.plain s (by simp))
  rw [← Path.below_concat] at hcs
  exact ⟨⟨h.usable.of_append hcs hne, fun x hx => h.short x (List.mem_append_left _ hx)⟩,
    fun x hx => h.plain x (List.mem_append_left _ hx)⟩

theorem below_ne_empty (hbase : base ≠ "") (hns : ∀ x ∈ ns, Path.Plain x) :
    Path.below base ns ≠ "" := by
  rcases List.eq_nil_or_concat ns with rfl | ⟨ns, s, rfl⟩
  · exact hbase
  · rw [List.concat_eq_append] at hns ⊢
    rw [Path.below_concat]
    exact join_ne_empty _ (hns s (by simp))

theorem Accepted.of_append {ms : List String} (h : Accepted base (ns ++ ms)) (hbase : base ≠ "") :
    Accepted base ns := by
  induction ms using List.reverseRecOn with
  | nil => rwa [List.append_nil] at h
  | append_singleton ms s ih =>
    rw [← List.append_assoc] at h
    exact ih (h.of_concat (below_ne_empty hbase fun x hx => h.plain x (List.mem_append_left _ hx)))

theorem Accepted.of_cons (h : Accepted base (a :: ns)) : Accepted (Path.join base a) ns :=
  ⟨⟨h.usable, fun x hx => h.short x (List.mem_cons_of_mem _ hx)⟩,
    fun x hx => h.plain x (List.mem_cons_of_mem _ hx)⟩

/-- A path has a character for each of its names. -/
theorem length_below (base : Path) (hns : ∀ x ∈ ns, Path.Plain x) :
    ns.length ≤ (Path.below base ns).length := by
  induction ns using List.reverseRecOn with
  | nil => exact Nat.zero_le _
  | append_singleton ns s ih =>
    obtain ⟨cs, hcs, hne⟩ := toList_join_eq (Path.below base ns) (hns s (by simp))
    have hlen := congrArg List.length hcs
    have hpos := List.length_pos_of_ne_nil hne
    have hshort := ih fun x hx => hns x (List.mem_append_left _ hx)
    simp only [List.length_append, String.length_toList, List.length_singleton, Path.below_concat]
      at hlen ⊢
    omega

end accepted

/-- On the way down from a place only directories stand. -/
def Passable (d : Disk) (P : Place) (ns : List String) : Prop :=
  ∀ as n, as <+: ns → d.get? (P ++ as) = some n → n = .dir

/-- There are directories at the places in `N`, and the rest is as it was. -/
structure Furnished (d : Disk) (N : Place → Prop) (after : Disk) : Prop where
  wellFormed : after.WellFormed
  calm : after.faults = []
  start : after.workingDir = d.workingDir
  next : after.nextId = d.nextId
  made : ∀ q, N q → after.get? q = some .dir
  kept : ∀ q, ¬ N q → after.get? q = d.get? q

section making

variable {d after mid : Disk} {base p : Path} {P place : Place} {m : Nat} {ns as : List String}
  {s a : String} {N M : Place → Prop} {A : Place → Prop}

theorem Passable.of_concat (h : Passable d P (ns ++ [s])) : Passable d P ns :=
  fun as n has => h as n (has.trans (List.prefix_append _ _))

theorem Furnished.trans (h : Furnished d N mid) (h' : Furnished mid M after) :
    Furnished d (fun q => N q ∨ M q) after := by
  refine ⟨h'.wellFormed, h'.calm, h'.start.trans h.start, h'.next.trans h.next, fun q hq => ?_,
    fun q hq => ?_⟩
  · by_cases hM : M q
    · exact h'.made q hM
    · rw [h'.kept q hM, h.made q (hq.resolve_right hM)]
  · rw [h'.kept q fun hM => hq (.inr hM), h.kept q fun hN => hq (.inl hN)]

theorem Furnished.of_iff (h : Furnished d N after) (hiff : ∀ q, N q ↔ M q) : Furnished d M after :=
  ⟨h.wellFormed, h.calm, h.start, h.next, fun q hq => h.made q ((hiff q).2 hq),
    fun q hq => h.kept q fun hN => hq ((hiff q).1 hN)⟩

theorem Furnished.part (h : Furnished d N after)
    (hfit : ∀ q n, N q → d.get? q = some n → n = .dir) : Part d after := by
  refine ⟨h.start.symm, fun q n hn => ?_⟩
  by_cases hN : N q
  · rw [h.made q hN, hfit q n hN hn]
  · rw [h.kept q hN, hn]

/-! One operation -/

theorem makeDir_vacant (h : d.faults = []) (hf : d.find .entry p = .ok (.vacant place)) :
    makeDir p d = (.ok (), d.set place .dir) := by
  rw [makeDir, attempt_calm h]
  simp only [hf, Bind.bind, Except.bind]
  rfl

theorem makeDir_taken (h : d.faults = []) {n : Node} (hf : d.find .entry p = .ok (.node place n)) :
    makeDir p d = (.error .alreadyExists, d) := by
  rw [makeDir, attempt_calm h]
  simp only [hf, Bind.bind, Except.bind]
  rfl

theorem makeDir_refused (h : d.faults = []) {e : SystemError} (hf : d.find .entry p = .error e) :
    makeDir p d = (.error e, d) := by
  rw [makeDir, attempt_calm h]
  simp only [hf, Bind.bind, Except.bind]

theorem createNew_vacant (h : d.faults = []) (hf : d.find .entry p = .ok (.vacant place))
    (mode : Nat) : createNew p mode d = (.ok d.nextId,
      { d.set place (.file ⟨d.nextId, [], mode⟩) with nextId := d.nextId + 1 }) := by
  rw [createNew, attempt_calm h]
  simp only [hf, Bind.bind, Except.bind]
  rfl

theorem createNew_taken (h : d.faults = []) {n : Node} (hf : d.find .entry p = .ok (.node place n))
    (mode : Nat) : createNew p mode d = (.error .alreadyExists, d) := by
  rw [createNew, attempt_calm h]
  simp only [hf, Bind.bind, Except.bind]
  rfl

theorem removeFile_calm (h : d.faults = []) {n : Node} (hf : d.find .entry p = .ok (.node place n))
    (hn : n ≠ .dir) : removeFile p d = (.ok (), d.erase place) := by
  rw [removeFile, attempt_calm h]
  simp only [hf, Bind.bind, Except.bind]
  cases n with
  | dir => exact absurd rfl hn
  | _ => rfl

theorem append_calm (h : d.faults = []) (id : Nat) (bs : Bytes) : append id bs d =
    (.ok (), d.updateFile id fun f => { f with data := f.data ++ bs }) := attempt_calm h

theorem setMode_calm (h : d.faults = []) (id mode : Nat) : setMode id mode d =
    (.ok (), d.updateFile id fun f => { f with mode := mode }) := attempt_calm h

theorem makeDirsFrom_made {above : List Path} (h : makeDir p d = (.ok (), after)) :
    makeDirsFrom (p :: above) d = (.ok (), after) := by
  unfold makeDirsFrom
  simp only [h]

theorem makeDirsFrom_there {above : List Path} {e : SystemError} (h : makeDir p d = (.error e, after))
    (he : e ≠ .notFound) (hdir : d.isDir p = true) :
    makeDirsFrom (p :: above) d = (.ok (), after) := by
  unfold makeDirsFrom
  simp only [h]
  cases e <;> first | exact absurd rfl he | exact if_pos hdir

theorem makeDirsFrom_missing {above : List Path} (h : makeDir p d = (.error .notFound, mid)) :
    makeDirsFrom (p :: above) d = (do makeDirsFrom above; ensureDir p : DiskM Unit) mid := by
  rw [makeDirsFrom]
  simp only [h]

/-! Ways down -/

theorem leadsTo_below (hd : d.WellFormed) (hl : d.LeadsTo A base m P)
    (hplain : ∀ x ∈ ns, Path.Plain x) (hshort : ∀ x ∈ ns, (utf8 x).length ≤ maxName)
    (hdir : d.get? (P ++ ns) = some .dir) : d.LeadsTo Anywhere (Path.below base ns) m (P ++ ns) := by
  rw [LeadsTo, Path.steps_below base hplain]
  clear hplain
  induction ns using List.reverseRecOn with
  | nil => simpa using hl.anywhere
  | append_singleton ns s ih =>
    rw [← List.append_assoc] at hdir ⊢
    have habove := hd.above (List.cons_ne_nil s []) (by rw [hdir]; simp)
    have hinit := ih (fun x hx => hshort x (List.mem_append_left _ hx)) habove
    rw [List.map_append, ← List.append_assoc]
    exact hinit.concat (.down (hshort s (by simp)) trivial hdir)

/-- What lies below a directory that is missing is not found. -/
theorem walk_notFound (hpass : Passable d P ns) (hP : d.get? P = some .dir)
    (hmissing : d.get? (P ++ ns) ≠ some .dir) (hshort : ∀ x ∈ ns, (utf8 x).length ≤ maxName)
    (l : Lookup) (slash : Bool) (s : String) :
    d.walk l m slash P (ns.map .name ++ [.name s]) = .error .notFound := by
  induction ns generalizing P with
  | nil => exact absurd (by simpa using hP) hmissing
  | cons a ns ih =>
    rw [List.map_cons, List.cons_append, walk_name _ _ _ _ _ _ (by simp),
      if_neg (Nat.not_lt.2 (hshort a List.mem_cons_self))]
    cases hn : d.get? (P ++ [a]) with
    | none => rfl
    | some n =>
      obtain rfl := hpass [a] n ⟨ns, rfl⟩ hn
      refine ih (fun as n has hn => ?_) hn (by simpa using hmissing) fun x hx =>
        hshort x (List.mem_cons_of_mem _ hx)
      exact hpass (a :: as) n (List.cons_prefix_cons.2 ⟨rfl, has⟩) (by simpa using hn)

theorem find_notFound (hl : d.LeadsTo A base m P) (hP : d.get? P = some .dir)
    (hns : Accepted base (ns ++ [s])) (hpass : Passable d P ns)
    (hmissing : d.get? (P ++ ns) ≠ some .dir) :
    d.find .entry (Path.below base (ns ++ [s])) = .error .notFound := by
  rw [find_of_usable hns.usable, Path.steps_below base hns.plain, hl.walk_append (by simp),
    List.map_append]
  exact walk_notFound hpass hP hmissing (fun x hx => hns.short x (List.mem_append_left _ hx)) _ _ _

theorem find_below (hd : d.WellFormed) (hl : d.LeadsTo A base m P) (hns : Accepted base (ns ++ [s]))
    (hdir : d.get? (P ++ ns) = some .dir) :
    d.find .entry (Path.below base (ns ++ [s])) = .ok (match d.get? (P ++ ns ++ [s]) with
      | none => .vacant (P ++ ns ++ [s])
      | some n => .node (P ++ ns ++ [s]) n) := by
  have hplain : ∀ x ∈ ns, Path.Plain x := fun x hx => hns.plain x (List.mem_append_left _ hx)
  have hlast : Path.steps (Path.below base (ns ++ [s])) = Path.steps (Path.below base ns) ++
      [.name s] := by
    rw [Path.below_concat, Path.steps_join_plain _ (hns.plain s (by simp))]
  have hl' := leadsTo_below hd hl hplain (fun x hx => hns.short x (List.mem_append_left _ hx)) hdir
  exact find_entry_eq hns.usable hlast hl' (hns.short s (by simp))

/-! Directories on the way down -/

theorem isDir_below (hd : d.WellFormed) (hl : d.LeadsTo A base m P) (hns : Accepted base ns)
    (hdir : d.get? (P ++ ns) = some .dir) : d.isDir (Path.below base ns) = true :=
  isDir_iff.2 ⟨hns.usable, m, _, leadsTo_below hd hl hns.plain hns.short hdir⟩

/-- In a directory a directory is made, or is there. -/
theorem makeDir_below (hd : d.WellFormed) (hcalm : d.faults = []) (hl : d.LeadsTo A base m P)
    (hns : Accepted base (ns ++ [s])) (hpass : Passable d P (ns ++ [s]))
    (hdir : d.get? (P ++ ns) = some .dir) :
    ∃ after, Furnished d (· = P ++ ns ++ [s]) after ∧
      (makeDir (Path.below base (ns ++ [s])) d = (.ok (), after) ∨
        makeDir (Path.below base (ns ++ [s])) d = (.error .alreadyExists, d) ∧ after = d ∧
          d.isDir (Path.below base (ns ++ [s])) = true) := by
  have hfind := find_below hd hl hns hdir
  cases hn : d.get? (P ++ ns ++ [s]) with
  | none =>
    rw [hn] at hfind
    have hwf : (d.set (P ++ ns ++ [s]) .dir).WellFormed :=
      hd.set hn (by rwa [List.dropLast_concat]) nofun
    refine ⟨_, ⟨hwf, by rwa [faults_set], workingDir_set _ _ _, nextId_set _ _ _, ?_, ?_⟩,
      .inl (makeDir_vacant hcalm hfind)⟩
    · rintro q rfl
      rw [get?_set (by simp), if_pos rfl]
    · intro q hq
      rw [get?_set (by simp), if_neg hq]
  | some n =>
    have hnode := hpass _ n (List.prefix_refl _) (by rwa [← List.append_assoc])
    subst hnode
    rw [hn] at hfind
    refine ⟨d, ⟨hd, hcalm, rfl, rfl, ?_, fun _ _ => rfl⟩, .inr ⟨makeDir_taken hcalm hfind, rfl, ?_⟩⟩
    · rintro q rfl
      exact hn
    · exact isDir_below hd hl hns (by rwa [← List.append_assoc])

theorem ensureDir_below (hd : d.WellFormed) (hcalm : d.faults = []) (hl : d.LeadsTo A base m P)
    (hns : Accepted base (ns ++ [s])) (hpass : Passable d P (ns ++ [s]))
    (hdir : d.get? (P ++ ns) = some .dir) :
    ∃ after, Furnished d (· = P ++ ns ++ [s]) after ∧
      ensureDir (Path.below base (ns ++ [s])) d = (.ok (), after) := by
  obtain ⟨after, hfurn, hmk | ⟨hmk, rfl, hisDir⟩⟩ := makeDir_below hd hcalm hl hns hpass hdir
  · exact ⟨after, hfurn, by rw [ensureDir, hmk]⟩
  · exact ⟨after, hfurn, by rw [ensureDir, hmk]; exact if_pos hisDir⟩

/-- The places on the way down from `P`. -/
def OnWay (P : Place) (ns : List String) (q : Place) : Prop := ∃ as, as <+: ns ∧ q = P ++ as

theorem onWay_concat (q : Place) : OnWay P (ns ++ [s]) q ↔ OnWay P ns q ∨ q = P ++ ns ++ [s] := by
  simp only [OnWay, List.prefix_concat_iff, or_and_right, exists_or, exists_eq_left,
    List.append_assoc, or_comm]

theorem onWay_self (P : Place) (ns : List String) : OnWay P ns (P ++ ns) :=
  ⟨ns, List.prefix_refl _, rfl⟩

theorem WellFormed.onWay (hd : d.WellFormed) (hdir : d.get? (P ++ ns) = some .dir) {q : Place}
    (hq : OnWay P ns q) : d.get? q = some .dir := by
  obtain ⟨as, ⟨bs, rfl⟩, rfl⟩ := hq
  by_cases hbs : bs = []
  · rwa [hbs, List.append_nil] at hdir
  · rw [← List.append_assoc] at hdir
    exact hd.above hbs (by rw [hdir]; exact nofun)

theorem ancestors_below {root : Path} (ha : Path.Plain a) (hns : ∀ x ∈ ns ++ [s], Path.Plain x)
    (k : Nat) : ancestors (k + 1) (Path.below (Path.join root a) (ns ++ [s])) =
      Path.below (Path.join root a) (ns ++ [s]) ::
        ancestors k (Path.below (Path.join root a) ns) := by
  have hparent := Path.parent?_below root ha (fun x hx => hns x (List.mem_append_left _ hx))
    (hns s (by simp))
  rw [List.cons_append, Path.below_cons, Path.below_cons] at hparent
  rw [ancestors, hparent]
  rfl

/-- From a directory that is there the missing ones on the way down are made, the highest first. -/
theorem makeDirsFrom_below {root : Path} (ha : Path.Plain a) (hd : d.WellFormed)
    (hcalm : d.faults = []) (hl : d.LeadsTo A (Path.join root a) m P) (hP : d.get? P = some .dir)
    (hns : Accepted (Path.join root a) ns) (hpass : Passable d P ns) {k : Nat}
    (hk : ns.length ≤ k) :
    ∃ after, Furnished d (OnWay P ns) after ∧
      makeDirsFrom ((ancestors k (Path.below (Path.join root a) ns)).filter (· ≠ "")) d =
        (.ok (), after) := by
  induction ns using List.reverseRecOn generalizing k with
  | nil =>
    have hbase : (ancestors k (Path.join root a)).filter (· ≠ "") = Path.join root a ::
        ((ancestors k (Path.join root a)).filter (· ≠ "")).tail := by
      cases k <;> simp [ancestors, join_ne_empty root ha]
    have hisDir : d.isDir (Path.join root a) = true := isDir_iff.2 ⟨hns.usable, m, P, hl.anywhere⟩
    refine ⟨d, ⟨hd, hcalm, rfl, rfl, fun q hq => hd.onWay (by simpa using hP) hq, fun _ _ => rfl⟩, ?_⟩
    rw [Path.below_nil, hbase]
    rcases hf : d.find .entry (Path.join root a) with e | ⟨place, n⟩ | place
    · refine makeDirsFrom_there (makeDir_refused hcalm hf) ?_ hisDir
      rintro rfl
      have hl' := hl
      rw [LeadsTo, Path.steps_join_plain root ha] at hl'
      obtain ⟨_, _, hroot, -⟩ := hl'.split
      exact find_entry_ne_notFound (Path.steps_join_plain root ha) hroot hf
    · exact makeDirsFrom_there (makeDir_taken hcalm hf) (by simp) hisDir
    · exact absurd hf (hl.not_vacant (List.prefix_refl _))
  | append_singleton ns s ih =>
    obtain ⟨k, rfl⟩ : ∃ j, k = j + 1 := ⟨k - 1, by simp at hk; omega⟩
    have hplain : ∀ x ∈ ns, Path.Plain x := fun x hx => hns.plain x (List.mem_append_left _ hx)
    have hne := hns.usable.ne_empty
    rw [ancestors_below ha hns.plain, List.filter_cons_of_pos (by simpa using hne)]
    by_cases hdir : d.get? (P ++ ns) = some .dir
    · obtain ⟨after, hfurn, hmk⟩ := makeDir_below hd hcalm hl hns hpass hdir
      refine ⟨after, ⟨hfurn.wellFormed, hfurn.calm, hfurn.start, hfurn.next, fun q hq => ?_,
        fun q hq => hfurn.kept q fun he => hq ((onWay_concat q).2 (.inr he))⟩, ?_⟩
      · refine hfurn.wellFormed.onWay ?_ hq
        rw [← List.append_assoc]
        exact hfurn.made _ rfl
      · rcases hmk with hmk | ⟨hmk, rfl, hisDir⟩
        · exact makeDirsFrom_made hmk
        · exact makeDirsFrom_there hmk (by simp) hisDir
    · have hinit : Accepted (Path.join root a) ns :=
        hns.of_concat (below_ne_empty (join_ne_empty root ha) hplain)
      obtain ⟨mid, hmid, hrun⟩ := ih hinit hpass.of_concat (k := k) (by simpa using hk)
      have hfit : ∀ q n, OnWay P ns q → d.get? q = some n → n = .dir := by
        rintro q n ⟨as, has, rfl⟩ hn
        exact hpass.of_concat as n has hn
      have hpass' : Passable mid P (ns ++ [s]) := fun as n has hn => by
        by_cases hway : OnWay P ns (P ++ as)
        · rw [hmid.made _ hway] at hn
          exact (Option.some.inj hn).symm
        · rw [hmid.kept _ hway] at hn
          exact hpass as n has hn
      obtain ⟨after, hafter, hlast⟩ := ensureDir_below hmid.wellFormed hmid.calm
        ((hmid.part hfit).leadsTo hl) hns hpass' (hmid.made _ (onWay_self P ns))
      refine ⟨after, (hmid.trans hafter).of_iff fun q => (onWay_concat q).symm, ?_⟩
      rw [makeDirsFrom_missing (makeDir_refused hcalm
        (find_notFound hl hP hns hpass.of_concat hdir)), bind_apply, hrun]
      exact hlast

/-- All directories on the way down are made. -/
theorem makeDirs_below {root : Path} (ha : Path.Plain a) (hd : d.WellFormed) (hcalm : d.faults = [])
    (hl : d.LeadsTo A (Path.join root a) m P) (hP : d.get? P = some .dir)
    (hns : Accepted (Path.join root a) ns) (hpass : Passable d P ns) :
    ∃ after, Furnished d (OnWay P ns) after ∧
      makeDirs (Path.below (Path.join root a) ns) d = (.ok (), after) := by
  have hlen := length_below (Path.join root a) hns.plain
  obtain ⟨after, hfurn, hmk⟩ := makeDirsFrom_below ha hd hcalm hl hP hns hpass hlen
  exact ⟨after, hfurn, by rw [makeDirs, if_neg hns.usable.ne_empty]; exact hmk⟩

theorem makeDirs_child (hd : d.WellFormed) (hcalm : d.faults = []) (hl : d.LeadsTo A base m P)
    (hP : d.get? P = some .dir) (hs : Accepted base [s]) (hpass : Passable d P [s]) :
    ∃ after, Furnished d (· = P ++ [s]) after ∧ makeDirs (Path.join base s) d = (.ok (), after) := by
  have hs' : Accepted base ([] ++ [s]) := hs
  have hP' : d.get? (P ++ []) = some .dir := by rwa [List.append_nil]
  obtain ⟨after, hfurn, hmk⟩ := makeDir_below hd hcalm hl hs' hpass hP'
  rw [List.append_nil] at hfurn
  obtain ⟨ps, hps⟩ := ancestors_eq_cons hs.usable.ne_empty
  refine ⟨after, hfurn, ?_⟩
  change makeDirs (Path.below base [s]) d = _
  rw [makeDirs, if_neg hs.usable.ne_empty, hps]
  rcases hmk with hmk | ⟨hmk, rfl, hisDir⟩
  · exact makeDirsFrom_made hmk
  · exact makeDirsFrom_there hmk (by simp) hisDir

end making

end RigWarden.Disk
