import RigWarden.Proofs.Provision.Replacement
import RigWarden.Proofs.Provision.Traceless

/-!
# Backends beside each other

The install directories of several backends lie side by side in one root. When none of them is a link,
the links in them lead further down and the way to the root does not lead through one, a call for one
backend leaves all that was installed of the others, and leaves the root in that order.
-/

namespace RigWarden.Provision

open Disk

/-- The root leads to `R`, where the install directories are reached without links. -/
structure Neat (d : Disk) (root : Path) (dirs : String → Prop) (R : Place) : Prop where
  way : ∃ k, d.LeadsTo (fun p => ∀ x, dirs x → ¬ Below (R ++ [x]) p) root k R
  away : ∀ x, dirs x → ¬ Below (R ++ [x]) d.workingDir
  no_link : ∀ x, dirs x → ∀ t, d.get? (R ++ [x]) ≠ some (.link t)
  downward : ∀ x, dirs x → Downward d (R ++ [x])

/-- The root is in order, or not there yet. -/
structure Tidy (d : Disk) (root : Path) (dirs : String → Prop) : Prop where
  wellFormed : d.WellFormed
  neat : ∀ m R, d.LeadsTo Anywhere root m R → Neat d root dirs R
  fresh : (∃ m R, d.LeadsTo Anywhere root m R) ∨ .up ∉ Path.steps root

theorem not_leadsTo_nothing {m : Nat} {R : Place} : ¬ ({} : Disk).LeadsTo Anywhere "/r" m R := by
  intro hl
  have hdir : ({} : Disk).isDir "/r" = false := by decide +kernel
  rw [isDir_iff.2 ⟨⟨by decide, by decide, by decide⟩, m, R, hl⟩] at hdir
  cases hdir

/-- A root that is not there yet is in order. -/
theorem tidy_nothing (dirs : String → Prop) : Tidy {} "/r" dirs :=
  ⟨wellFormed_empty, fun _ _ hl => absurd hl not_leadsTo_nothing, .inr (by decide)⟩

/-- Names that are not taken for temporary entries. -/
structure Visible (x : String) : Prop where
  plain : Path.Plain x
  no_dot : x.toList.head? ≠ some '.'

/-- A place in a temporary entry of the root. -/
def Scratch (R q : Place) : Prop := ∃ s : String, s.toList.head? = some '.' ∧ isWithin (R ++ [s]) q = true

/-- Nothing was lost but in the install directory `ins`, where only entries of the names `N` are
others. What is new is there or in temporary entries, and the new links in that directory lead further
down in it. -/
structure Spares (N : String → Prop) (d e : Disk) (R : Place) (ins : String) : Prop where
  start : e.workingDir = d.workingDir
  has : ∀ q n, ¬ Below (R ++ [ins]) q → d.get? q = some n → e.get? q = some n
  new : ∀ q n, e.get? q = some n →
    d.get? q = some n ∨ isWithin (R ++ [ins]) q = true ∨ Scratch R q
  links : ∀ q t, e.get? q = some (.link t) → d.get? q = some (.link t) ∨
    (Below (R ++ [ins]) q ∧ Archive.isContained t = true) ∨ Scratch R q
  aside : ∀ s, ¬ N s → e.get? (R ++ [ins] ++ [s]) = d.get? (R ++ [ins] ++ [s])

section spares

variable {d e f : Disk} {root p : Path} {dirs N : String → Prop} {R q : Place} {ins x s : String}
  {A B : Place → Prop} {m : Nat}

theorem isWithin_unique (h : isWithin (R ++ [x]) q = true) (h' : isWithin (R ++ [s]) q = true) :
    x = s := by
  obtain ⟨r, rfl⟩ := isWithin_iff.1 h
  by_contra hne
  rw [List.append_assoc, List.singleton_append, not_isWithin_other fun he => hne he.symm] at h'
  cases h'

theorem not_scratch (hx : Visible x) (h : isWithin (R ++ [x]) q = true) : ¬ Scratch R q := by
  rintro ⟨s, hs, hw⟩
  obtain rfl := isWithin_unique h hw
  exact hx.no_dot hs

theorem not_below_snoc (s : String) : ¬ Below (R ++ [x]) (R ++ [s]) := fun h =>
  h.2 (eq_of_isWithin h.1 (by simp))

/-- In another install directory everything is as it was. -/
theorem Spares.get?_eq (h : Spares N d e R ins) (hx : Visible x) (hne : x ≠ ins)
    (hq : isWithin (R ++ [x]) q = true) : e.get? q = d.get? q := by
  cases hd : d.get? q with
  | some n => exact h.has q n (fun hb => hne (isWithin_unique hq hb.1)) hd
  | none =>
    refine Option.eq_none_iff_forall_ne_some.2 fun n hn => ?_
    rcases h.new q n hn with hold | hin | hs
    · rw [hd] at hold
      cases hold
    · exact hne (isWithin_unique hq hin)
    · exact not_scratch hx hq hs

/-- And under a name in an install directory there is what was there, if none of that name may come. -/
theorem Spares.get?_entry (h : Spares N d e R ins) (hx : Visible x) (hs : x = ins → ¬ N s) :
    e.get? (R ++ [x] ++ [s]) = d.get? (R ++ [x] ++ [s]) := by
  by_cases hins : x = ins
  · subst hins
    exact h.aside s (hs rfl)
  · exact h.get?_eq hx hins (isWithin_append _ _)

theorem Spares.of_same (h : Same d e) : Spares N d e R ins :=
  ⟨h.start, fun q n _ hn => by rw [h.get?, hn], fun q n hn => .inl (by rw [← h.get?, hn]),
    fun q t ht => .inl (by rw [← h.get?, ht]), fun s _ => h.get? _⟩

theorem Spares.trans (h : Spares N d e R ins) (h' : Spares N e f R ins) : Spares N d f R ins :=
  ⟨h'.start.trans h.start, fun q n hq hn => h'.has q n hq (h.has q n hq hn), fun q n hn =>
    (h'.new q n hn).elim (h.new q n) .inr, fun q t ht => (h'.links q t ht).elim (h.links q t) .inr,
    fun s hs => (h'.aside s hs).trans (h.aside s hs)⟩

theorem Spares.grown (h : Spares N d e R ins) {M : Place → Prop} (hM : ∀ q, M q → q = R ++ [ins])
    (hg : Grown e M f) : Spares N d f R ins := by
  refine ⟨hg.start.trans h.start, fun q n hq hn => hg.has (h.has q n hq hn), fun q n hn => ?_,
    fun q t ht => h.links q t (hg.eq_of_not_dir ht nofun), fun s hs => ?_⟩
  · rcases hg.same q with he | ⟨hq, -, -⟩
    · exact h.new q n (he ▸ hn)
    · exact .inr (.inl (hM q hq ▸ isWithin_self _))
  · rcases hg.same (R ++ [ins] ++ [s]) with he | ⟨hq, -, -⟩
    · exact he.trans (h.aside s hs)
    · exact absurd (hM _ hq) (by simp)

theorem Spares.withFaults (h : Spares N d e R ins) (fs : List (Option SystemError)) :
    Spares N d { e with faults := fs } R ins := h.trans (.of_same (same_withFaults e fs))

/-- Where nothing stood, or an entry of the install directory, something may be taken away. -/
theorem Spares.erase (h : Spares N d e R ins)
    (hq : (∃ x, N x ∧ q = R ++ [ins] ++ [x]) ∨ ∀ r, d.get? (q ++ r) = none) :
    Spares N d (e.erase q) R ins := by
  have hleft : ∀ {p n}, (e.erase q).get? p = some n → e.get? p = some n := fun hn => by
    rw [get?_erase] at hn
    split at hn
    · cases hn
    · exact hn
  refine ⟨h.start, fun p n hp hn => ?_, fun p n hn => h.new p n (hleft hn),
    fun p t ht => h.links p t (hleft ht), fun s hs => ?_⟩
  · rw [get?_erase, if_neg fun hw => ?_, h.has p n hp hn]
    rcases hq with ⟨x, -, rfl⟩ | hv
    · exact hp ((Below.snoc (isWithin_self _) x).trans hw.2)
    · obtain ⟨r, rfl⟩ := isWithin_iff.1 hw.2
      rw [hv] at hn
      cases hn
  · rw [get?_erase]
    split
    · next hw =>
      rcases hq with ⟨x, hx, rfl⟩ | hv
      · obtain rfl : x = s := isWithin_unique hw.2 (isWithin_self _)
        exact absurd hx hs
      · obtain ⟨r, hr⟩ := isWithin_iff.1 hw.2
        rw [hr, hv]
    · exact h.aside s hs

theorem Spares.way (h : Spares N d e R ins) (hn : Neat d root dirs R) (hins : dirs ins) :
    ∃ k, d.LeadsTo Anywhere root k R ∧
      e.LeadsTo (fun p => ∀ x, dirs x → ¬ Below (R ++ [x]) p) root k R := by
  obtain ⟨k, hl⟩ := hn.way
  refine ⟨k, hl.anywhere, ?_⟩
  rw [LeadsTo, h.start]
  exact hl.mono fun p n hp hn _ => ⟨hp, h.has p n (hp ins hins) hn⟩

theorem Neat.spares (hn : Neat d root dirs R) (hins : dirs ins) (hdirs : ∀ x, dirs x → Visible x)
    (h : Spares N d e R ins) : Neat e root dirs R := by
  obtain ⟨k, -, hl⟩ := h.way hn hins
  refine ⟨⟨k, hl⟩, fun x hx => h.start ▸ hn.away x hx, fun x hx t ht => ?_, fun x hx q t hq ht => ?_⟩
  · rcases h.links _ t ht with hold | ⟨hb, -⟩ | hs
    · exact hn.no_link x hx t hold
    · exact not_below_snoc x hb
    · exact not_scratch (hdirs x hx) (isWithin_self _) hs
  · rcases h.links q t ht with hold | ⟨-, hc⟩ | hs
    · exact hn.downward x hx q t hq hold
    · exact hc
    · exact absurd hs (not_scratch (hdirs x hx) hq.1)

/-- A temporary entry is taken away where there was none, and nothing else. -/
theorem Spares.without (h : Spares N d e R ins) (hd : d.WellFormed) (he : e.WellFormed)
    (hn : Neat d root dirs R) (hins : dirs ins) (hp : Path.steps p = Path.steps root ++ [.name s])
    (hv : d.get? (R ++ [s]) = none) :
    (e.without p).WellFormed ∧ Spares N d (e.without p) R ins ∧
      ∀ q, isWithin (R ++ [s]) q = false → (e.without p).get? q = e.get? q := by
  obtain ⟨k, -, hl⟩ := h.way hn hins
  have hnear : Near e root R e := near_of_leads (fun _ _ => rfl) hl
  refine ⟨?_, ?_, fun q hq => hnear.get?_without hp hq⟩
  · rcases hnear.without_cases hp with he' | he' <;> rw [he']
    · exact he
    · refine he.erase (Bool.eq_false_iff.2 fun hw => ?_)
      obtain ⟨r, hr⟩ := isWithin_iff.1 hw
      have hstart := hd.start
      rw [← h.start, hr, hd.of_vacant hv] at hstart
      cases hstart
  · rcases hnear.without_cases hp with he' | he' <;> rw [he']
    · exact h
    · exact h.erase (.inr (hd.of_vacant hv))

theorem isFile_iff : d.isFile p = true ↔ ∃ place f, d.find .through p = .ok (.node place (.file f)) := by
  unfold isFile node?
  rcases d.find .through p with _ | ⟨place, _ | f | _⟩ | place <;> simp

/-- A program stays where it is as long as its install directory is kept and the root leads there. -/
theorem Neat.isFile (hn : Neat d root dirs R) (hx : dirs x) (hplain : Path.Plain x) {name : String}
    (hname : Path.Plain name) (hl : d.LeadsTo A root m R) (hl' : e.LeadsTo B root m R)
    (hkept : ∀ q n, isWithin (R ++ [x]) q = true → d.get? q = some n → e.get? q = some n)
    (hf : d.isFile (Path.join (Path.join root x) name) = true) :
    e.isFile (Path.join (Path.join root x) name) = true := by
  obtain ⟨place, f, hfind⟩ := isFile_iff.1 hf
  have hw := walk_of_find hfind
  have hsteps : Path.steps (Path.join (Path.join root x) name) =
      Path.steps root ++ [.name x, .name name] := by
    rw [Path.steps_join_plain _ hname, Path.steps_join_plain _ hplain, List.append_assoc]
    rfl
  rw [hsteps, hl.walk_append (by simp), walk_name _ _ _ _ _ _ (by simp)] at hw
  split at hw
  · cases hw
  next hlen =>
  split at hw
  · cases hw
  · next hdir =>
    have hcopied : Copied d (R ++ [x]) e (R ++ [x]) := fun r n _ => hkept _ n (isWithin_append _ r)
    have hdown : ∀ c ∈ [Path.Component.name name], c.isDownward = true := by
      simp [Path.Component.isDownward]
    obtain ⟨r', -, hw'⟩ := hcopied.walk (hn.downward x hx) (r := []) hdown (by simpa using hw)
    refine isFile_iff.2 ⟨R ++ [x] ++ r', f, ?_⟩
    rw [find_of_usable (usable_of_find hfind), hsteps, hl'.walk_append (by simp),
      walk_name _ _ _ _ _ _ (by simp), if_neg hlen, hkept _ _ (isWithin_self _) hdir]
    simpa using hw'
  · cases hw
  · next t ht => exact absurd ht (hn.no_link x hx t)

theorem Spares.isFile_without (h : Spares N d e R ins) (hd : d.WellFormed) (he : e.WellFormed)
    (hn : Neat d root dirs R) (hins : dirs ins) (hdirs : ∀ x, dirs x → Visible x)
    (hp : Path.steps p = Path.steps root ++ [.name s]) (hs : s.toList.head? = some '.')
    (hv : d.get? (R ++ [s]) = none) {name : String} (hname : Path.Plain name)
    (hf : e.isFile (Path.join (Path.join root ins) name) = true) :
    (e.without p).isFile (Path.join (Path.join root ins) name) = true := by
  obtain ⟨-, hspares, hrest⟩ := h.without hd he hn hins hp hv
  obtain ⟨m, hl, hway⟩ := h.way hn hins
  obtain ⟨m', hl', hway'⟩ := hspares.way hn hins
  obtain ⟨rfl, -⟩ := hl.unique hl'
  refine (hn.spares hins hdirs h).isFile hins (hdirs ins hins).plain hname hway hway'
    (fun q n hq hn => ?_) hf
  rw [hrest q (Bool.eq_false_iff.2 fun hw => ?_), hn]
  exact not_scratch (hdirs ins hins) hq ⟨s, hs, hw⟩

end spares

section install

variable {d base e u after : Disk} {root staging install : Path} {dirs N : String → Prop} {R : Place}
  {stg ins name : String} {desc : Descriptor} {r : Except Error Unit}

/-- A staging directory was made in a root that is in order. -/
structure Berth (d base : Disk) (root staging install : Path) (dirs : String → Prop) (R : Place)
    (stg ins : String) : Prop extends Prepared d base root staging R stg where
  neat : Neat d root dirs R
  hidden : stg.toList.head? = some '.'
  install_steps : Path.steps install = Path.steps root ++ [.name ins]
  mem : dirs ins
  visible : ∀ x, dirs x → Visible x

theorem Berth.spares_staged (h : Berth d base root staging install dirs R stg ins)
    (hst : Archive.Staged base (R ++ [stg]) e) : Spares N d e R ins := by
  have hpart := h.part hst
  have hcases : ∀ q n, e.get? q = some n → d.get? q = some n ∨ Scratch R q := fun q n hn => by
    by_cases hq : isWithin (R ++ [stg]) q = true
    · exact .inr ⟨stg, h.hidden, hq⟩
    · rw [h.outside hst (Bool.eq_false_iff.2 hq)] at hn
      exact .inl hn
  refine ⟨hpart.start.symm, fun q n _ hn => hpart.has q n hn,
    fun q n hn => (hcases q n hn).imp_right .inr, fun q t ht => (hcases q _ ht).imp_right .inr,
    fun s _ => h.outside hst (Bool.eq_false_iff.2 fun hw => ?_)⟩
  exact not_scratch (h.visible ins h.mem) (isWithin_append _ _) ⟨stg, h.hidden, hw⟩

/-- The install path that was made leads to its name in the root, and no way looks into it. -/
theorem Berth.scene (h : Berth d base root staging install dirs R stg ins)
    (hst : Archive.Staged base (R ++ [stg]) e) (hmk : makeDirs install e = (.ok (), u)) :
    ∃ m, Scene u root staging install R (R ++ [ins]) stg m := by
  have hgrown := h.grown h.install_steps hst hmk
  have hspares := (h.spares_staged (N := Path.Plain) hst).grown (fun _ => id) hgrown
  have hsite := h.site
  have hne : isWithin (R ++ [stg]) (R ++ [ins]) = false := Bool.eq_false_iff.2 fun hw =>
    not_scratch (h.visible ins h.mem) (isWithin_self _) ⟨stg, h.hidden, hw⟩
  obtain ⟨k, hl⟩ := h.neat.way
  have hroot : u.LeadsTo (fun p => isWithin (R ++ [stg]) p = false ∧ ¬ Below (R ++ [ins]) p) root k
      R := by
    rw [LeadsTo, hspares.start]
    refine hl.mono fun q n hq hn _ => ⟨⟨Bool.eq_false_iff.2 fun hw => ?_, hq ins h.mem⟩,
      hspares.has q n (hq ins h.mem) hn⟩
    obtain ⟨r, rfl⟩ := isWithin_iff.1 hw
    rw [h.wellFormed.of_vacant hsite.1] at hn
    cases hn
  obtain ⟨m, I, hI⟩ := leadsTo_of_makeDirs hmk
  rw [LeadsTo, h.install_steps] at hI
  obtain ⟨k', mid, hfirst, hlast⟩ := hI.split
  obtain ⟨rfl, rfl⟩ := hroot.unique hfirst
  rcases hlast.name_cases with ⟨hdir, hlen, rfl, rfl⟩ | ⟨t, _, ht, -⟩
  · have hl' : u.LeadsTo (fun p => isWithin (mid ++ [stg]) p = false ∧ ¬ Below (mid ++ [ins]) p)
        install m (mid ++ [ins]) := by
      rw [LeadsTo, h.install_steps]
      exact hroot.concat (.down hlen ⟨hne, fun hb => hb.2 rfl⟩ hdir)
    have havoid := hl'.mono fun q n hq hn _ =>
      show isWithin (mid ++ [stg]) q = false ∧ u.get? q = some n from ⟨hq.1, hn⟩
    refine ⟨m, hgrown.wellFormed, ?_, ?_, h.staging_steps, ⟨ins, h.install_steps⟩,
      ⟨m, hroot.mono fun q n hq hn _ => ⟨hq.1, hn⟩⟩, havoid, .inr hl'⟩
    · rw [hgrown.start, hst.start]
      exact hsite.2.1.away
    · refine hgrown.has ?_
      rw [hst.outside _ fun hb => hb.2 rfl]
      exact hsite.2.1.dir
  · have hold := hgrown.eq_of_not_dir ht (by simp)
    rw [h.outside hst hne] at hold
    exact absurd hold (h.neat.no_link ins h.mem t)

/-- What was moved into the install directory lies in it, and its links lead further down. -/
theorem Berth.spares_moved (h : Berth d base root staging install dirs R stg ins)
    (hst : Archive.Staged base (R ++ [stg]) e) (hgrown : Grown e (· = R ++ [ins]) u)
    {names : List String} (hN : ∀ x ∈ names, N x)
    (hmoved : Moved u (R ++ [stg]) (R ++ [ins]) names after) : Spares N d after R ins := by
  have hspares : Spares N d u R ins := (h.spares_staged hst).grown (fun _ => id) hgrown
  have hapart : ∀ s, isWithin (R ++ [stg]) (R ++ [ins] ++ [s]) = false := fun s =>
    Bool.eq_false_iff.2 fun hw =>
      not_scratch (h.visible ins h.mem) (isWithin_append _ _) ⟨stg, h.hidden, hw⟩
  refine ⟨hmoved.start.trans hspares.start, fun q n hq hn => ?_, fun q n hn => ?_, fun q t ht => ?_,
    fun s hs => ?_⟩
  · rw [hmoved.kept q (fun hb => ?_) fun x _ => Bool.eq_false_iff.2 fun hw => ?_]
    · exact hspares.has q n hq hn
    · obtain ⟨r, rfl⟩ := isWithin_iff.1 hb.1
      rw [h.wellFormed.of_vacant h.site.1] at hn
      cases hn
    · exact hq ((Below.snoc (isWithin_self _) x).trans hw)
  · by_cases hb : Below (R ++ [stg]) q
    · exact .inr (.inr ⟨stg, h.hidden, hb.1⟩)
    by_cases hw : isWithin (R ++ [ins]) q = true
    · exact .inr (.inl hw)
    rw [hmoved.kept q hb fun x _ => Bool.eq_false_iff.2 fun hx =>
      hw (isWithin_trans (isWithin_append _ [x]) hx)] at hn
    exact hspares.new q n hn
  · by_cases hb : Below (R ++ [stg]) q
    · exact .inr (.inr ⟨stg, h.hidden, hb.1⟩)
    by_cases hx : ∃ x ∈ names, isWithin (R ++ [ins] ++ [x]) q = true
    · obtain ⟨x, hx, hw⟩ := hx
      obtain ⟨t', rfl⟩ := isWithin_iff.1 hw
      rw [List.append_assoc, List.singleton_append, hmoved.moved x hx] at ht
      have hold := hgrown.eq_of_not_dir ht nofun
      refine .inr (.inl ⟨(Below.snoc (isWithin_self _) x).trans (isWithin_append _ t'), ?_⟩)
      have hstaged : Below (R ++ [stg]) (R ++ [stg] ++ [x] ++ t') :=
        (Below.snoc (isWithin_self _) x).trans (isWithin_append _ t')
      rw [List.append_assoc, List.singleton_append] at hstaged
      exact hst.links _ t hstaged hold
    · rw [hmoved.kept q hb fun x hm => Bool.eq_false_iff.2 fun hw => hx ⟨x, hm, hw⟩] at ht
      exact hspares.links q t ht
  · rw [hmoved.kept _ (fun hb => Bool.eq_false_iff.1 (hapart s) hb.1) fun x hx => ?_]
    · exact hspares.aside s hs
    · have hne : x ≠ s := by
        rintro rfl
        exact hs (hN x hx)
      exact not_isWithin_other hne []

theorem Berth.moveIntoPlace (h : Berth d base root staging install dirs R stg ins)
    (hst : Archive.Staged base (R ++ [stg]) e) (hN : ∀ x, e.get? (R ++ [stg] ++ [x]) ≠ none → N x)
    {order : List String → List String} (horder : ∀ l, (order l).Perm l)
    (hm : moveIntoPlace order staging install e = (r, after)) :
    after.WellFormed ∧ Spares N d after R ins ∧ (r = .ok () → ∃ u m names,
      Grown e (· = R ++ [ins]) u ∧ Scene u root staging install R (R ++ [ins]) stg m ∧
        (∀ x, u.get? (R ++ [stg] ++ [x]) ≠ none → x ∈ names) ∧
        Moving u install (R ++ [stg]) (R ++ [ins]) m names after) := by
  rcases h.moveIntoPlace_cases h.install_steps hst (S := (· = R ++ [ins]))
      (fun u hmk => (h.scene hst hmk).elim fun m hs => ⟨_, m, hs, rfl⟩) horder hm with
    ⟨_, rfl, hgrown, -⟩ | ⟨u, I, m, names, hgrown, hscene, rfl, hnodup, hplain, hall, -, hmoves⟩
  · exact ⟨hgrown.wellFormed, (h.spares_staged hst).grown (fun _ => id) hgrown, nofun⟩
  have haway : ∀ x, isWithin (R ++ [ins] ++ [x]) u.workingDir = false := fun x =>
    Bool.eq_false_iff.2 fun hw => by
      rw [hgrown.start, ← (h.part hst).start] at hw
      exact h.neat.away ins h.mem ((Below.snoc (isWithin_self _) x).trans hw)
  have hnames : ∀ x ∈ names, N x := fun x hx => hN x fun hnone => (hall x).1 hx <| by
    rcases hgrown.same (R ++ [stg] ++ [x]) with he | ⟨he, -⟩
    · rw [he, hnone]
    · exact absurd he (by simp)
  refine ⟨hscene.moving.wellFormed_run hscene hgrown.wellFormed haway hplain (by simpa using hnodup)
    hmoves, ?_⟩
  rcases hscene.moving.run hscene hplain (by simpa using hnodup) hmoves with
    ⟨rfl, hmoving⟩ | ⟨err, before, x, rest, mid, fs, rfl, rfl, hmoving, -, hafter⟩
  · exact ⟨h.spares_moved hst hgrown hnames hmoving.toMoved, fun _ => ⟨u, m, names, hgrown, hscene,
      fun x hx => (hall x).2 hx, hmoving⟩⟩
  · refine ⟨?_, nofun⟩
    have hspares := h.spares_moved hst hgrown
      (fun y hy => hnames y (List.mem_append_left _ hy)) hmoving.toMoved
    rcases hafter with rfl | rfl
    · exact hspares.withFaults fs
    · exact (hspares.erase (.inl ⟨x, hnames x (by simp), rfl⟩)).withFaults fs

theorem find_of_makeExecutable {p : Path} (h : makeExecutable p d = (.ok (), after)) :
    ∃ place n, d.find .through p = .ok (.node place n) := by
  have hmode : ∀ {what}, TaskM.doing what (addMode p 0o755) d = (.ok (), after) →
      ∃ place n, d.find .through p = .ok (.node place n) := fun h => by
    have hop := attempt_ok (doing_ok h)
    rw [find_withFaults] at hop
    rcases hf : d.find .through p with _ | ⟨place, n⟩ | place <;>
      simp only [hf, Bind.bind, Except.bind] at hop
    · cases hop
    · exact ⟨place, n, rfl⟩
    · cases hop
  unfold makeExecutable at h
  rcases bind_cases h with ⟨_, -, hask⟩ | ⟨found, mid, hask, h⟩
  · cases hask
  · cases hask
    split at h <;> exact hmode h

/-- The file that is made executable is new. -/
theorem Berth.makeExecutable (h : Berth d base root staging install dirs R stg ins)
    (hst : Archive.Staged base (R ++ [stg]) e) (hN : ∀ x, e.get? (R ++ [stg] ++ [x]) ≠ none → N x)
    {order : List String → List String} (horder : ∀ l, (order l).Perm l) (hname : Path.Plain name)
    (hfile : e.isFile (Path.join staging name) = true)
    (hm : Provision.moveIntoPlace order staging install e = (.ok (), u))
    (hx : Provision.makeExecutable (Path.join install name) u = (r, after)) :
    after.WellFormed ∧ Spares N d after R ins ∧
      (r = .ok () → after.isFile (Path.join install name) = true) := by
  obtain ⟨hwf, hspares, hok⟩ := h.moveIntoPlace hst hN horder hm
  obtain ⟨v, m, names, hgrown, hscene, hall, hmoving⟩ := hok rfl
  have hnew : ∀ {place n}, u.find .through (Path.join install name) = .ok (.node place n) →
      ∃ f, n = .file f ∧ d.nextId ≤ f.id := fun hf => by
    rw [← h.site.2.2.1]
    exact h.executable_new hst hname hfile hgrown hscene hall hmoving hf
  have hisFile : r = .ok () → u.isFile (Path.join install name) = true := by
    rintro rfl
    obtain ⟨place, n, hf⟩ := find_of_makeExecutable hx
    obtain ⟨f, rfl, -⟩ := hnew hf
    exact isFile_iff.2 ⟨place, f, hf⟩
  obtain ⟨fs, rfl | ⟨place, f, hf, rfl⟩⟩ := makeExecutable_cases hx
  · refine ⟨hwf.withFaults fs, hspares.withFaults fs, fun hr => ?_⟩
    obtain ⟨place, f, hf⟩ := isFile_iff.1 (hisFile hr)
    exact isFile_iff.2 ⟨place, f, by rw [find_withFaults, hf]⟩
  · obtain ⟨_, hf', hid⟩ := hnew hf
    cases hf'
    have hsame := h.wellFormed.map_updated hid fun f => { f with mode := f.mode ||| 0o755 }
    refine ⟨(hwf.withFaults fs).updateFile _ fun _ => rfl, ⟨hspares.start, fun q n hq hn => ?_,
      fun q n hn => ?_, fun q t ht => hspares.links q t ?_, fun s hs => ?_⟩, fun hr => ?_⟩
    · have hkept := hsame q
      rw [hn] at hkept
      rw [get?_updateFile]
      exact (congrArg _ (hspares.has q n hq hn)).trans hkept
    · rw [get?_updateFile] at hn
      obtain ⟨n', hn', rfl⟩ := Option.map_eq_some_iff.1 hn
      refine (hspares.new q n' hn').imp_left fun hold => ?_
      have hkept := hsame q
      rw [hold] at hkept
      exact hold.trans hkept.symm
    · rw [get?_updateFile] at ht
      obtain ⟨n, hn, he⟩ := Option.map_eq_some_iff.1 ht
      cases n <;> cases he
      exact hn
    · rw [get?_updateFile]
      exact (congrArg _ (hspares.aside s hs)).trans (hsame _)
    · rw [isFile_updateFile]
      obtain ⟨place, f, hf⟩ := isFile_iff.1 (hisFile hr)
      exact isFile_iff.2 ⟨place, f, by rw [find_withFaults, hf]⟩

/-- Until the staging directory is taken away. -/
theorem Berth.installStaged (h : Berth d base root staging install dirs R stg ins)
    {order : List String → List String} (horder : ∀ l, (order l).Perm l)
    (hname : ∀ name, desc.executable = some name → Path.Plain name)
    {goOn : Nat → Except Error Unit} {strip : Nat} {items : List Archive.Item}
    (hN : ∀ e, .entry e ∈ items → e.NamedAs strip N)
    (hi : installStaged goOn order desc strip install staging items base = (r, after)) :
    after.WellFormed ∧ Spares N d after R ins ∧ (r = .ok () → ∀ name, desc.executable = some name →
      after.isFile (Path.join install name) = true) := by
  have hsite := h.site.2.1
  have hunpack := Archive.keeps_unpack hsite goOn strip items base hsite.staged
  have hnamed := Archive.keeps_unpack_named hsite goOn hN base hsite.staged
  rcases installStaged_cases hi with ⟨_, rfl, hu⟩ | ⟨e, hu, hrest⟩
  · have hst := (hunpack _ _ hu).1
    exact ⟨hst.wellFormed, h.spares_staged hst, nofun⟩
  have hst := (hunpack _ _ hu).1
  have hN := (hnamed _ _ hu).1.names
  rcases hrest with ⟨hnone, hm⟩ | ⟨name, hexe, ⟨-, rfl, rfl⟩ | ⟨hfile, ⟨_, rfl, hm⟩ | ⟨u, hm, hx⟩⟩⟩
  · obtain ⟨hwf, hspares, -⟩ := h.moveIntoPlace hst hN horder hm
    exact ⟨hwf, hspares, fun _ name hexe => by simp [hnone] at hexe⟩
  · exact ⟨hst.wellFormed, h.spares_staged hst, nofun⟩
  · obtain ⟨hwf, hspares, -⟩ := h.moveIntoPlace hst hN horder hm
    exact ⟨hwf, hspares, nofun⟩
  · obtain ⟨hwf, hspares, hok⟩ := h.makeExecutable hst hN horder (hname name hexe) hfile hm hx
    refine ⟨hwf, hspares, fun hr name' hexe' => ?_⟩
    rw [hexe] at hexe'
    cases hexe'
    exact hok hr

end install

/-- The install directory of a descriptor is one of those in the root. -/
structure Lodger (desc : Descriptor) (dirs : String → Prop) : Prop extends PlainNames desc where
  mem : dirs desc.installDir

section calls

variable {d made after : Disk} {root : Path} {dirs N : String → Prop} {R : Place} {desc : Descriptor}
  {order : List String → List String}

/-- An installation spares what is beside it, and when it succeeds the program is there. -/
theorem Neat.install (h : Neat d root dirs R) (hd : d.WellFormed) (hdirs : ∀ x, dirs x → Visible x)
    (hdesc : Lodger desc dirs) (horder : ∀ l, (order l).Perm l) {goOn : Nat → Except Error Unit}
    {strip : Nat} {items : List Archive.Item} {r : Except Error Unit}
    (hN : ∀ e, .entry e ∈ items → e.NamedAs strip N)
    (hi : install goOn order desc strip root items d = (r, after)) :
    after.WellFormed ∧ Spares N d after R desc.installDir ∧ (r = .ok () → ∀ name,
      desc.executable = some name → after.isFile (Path.join (desc.installPath root) name) = true) := by
  obtain ⟨stg, hnamed, hsteps⟩ := steps_staging d root
  unfold Provision.install at hi
  rcases bind_cases hi with ⟨_, -, hask⟩ | ⟨_, mid, hask, hi⟩
  · cases hask
  cases hask
  rcases bind_cases hi with ⟨_, rfl, hmk⟩ | ⟨⟨⟩, base, hmk, hi⟩
  · obtain ⟨_, hop⟩ := doing_error hmk
    obtain ⟨fs, rfl⟩ := attempt_error hop
    exact ⟨hd.withFaults fs, .of_same (same_withFaults d fs), nofun⟩
  obtain ⟨k, hway⟩ := h.way
  have hberth : Berth d base root (d.temporaryPath root ".staging-" "") (desc.installPath root) dirs R
      stg desc.installDir :=
    ⟨⟨hd, ⟨k, hway.anywhere⟩, hsteps, doing_ok hmk⟩, h, hnamed.head?,
      Path.steps_join_plain root hdesc.installDir, hdesc.mem, hdirs⟩
  unfold TaskM.removing at hi
  rcases hrun : installStaged goOn order desc strip (desc.installPath root)
    (d.temporaryPath root ".staging-" "") items base with ⟨r', last⟩
  simp only [hrun] at hi
  cases hi
  obtain ⟨hwf, hspares, hok⟩ := hberth.installStaged horder hdesc.executable hN hrun
  obtain ⟨hwf', hspares', -⟩ := hspares.without hd hwf h hdesc.mem hsteps hberth.site.1
  exact ⟨hwf', hspares', fun hr name hexe => hspares.isFile_without hd hwf h hdesc.mem hdirs hsteps
    hnamed.head? hberth.site.1 (hdesc.executable name hexe) (hok hr name hexe)⟩

/-- A new temporary file costs nothing. -/
theorem spares_create {ins : String} {place : Place} {data : FileData} {n : Nat}
    {fs : List (Option SystemError)} (hne : place ≠ []) (hv : d.get? place = none)
    (hplace : Scratch R place) (hins : Visible ins) :
    Spares N d { { d with faults := fs }.set place (.file data) with nextId := n } R ins := by
  have hget : ∀ q, ({ { d with faults := fs }.set place (.file data) with nextId := n } : Disk).get? q =
      if q = place then some (.file data) else d.get? q := fun q => get?_set hne _ q
  refine ⟨workingDir_set _ _ _, fun q m _ hm => ?_, fun q m hm => ?_, fun q t ht => ?_, fun s _ => ?_⟩
  · rw [hget, if_neg fun he => ?_, hm]
    rw [he, hv] at hm
    cases hm
  · rw [hget] at hm
    split at hm
    · next he => exact .inr (.inr (he ▸ hplace))
    · exact .inl hm
  · rw [hget] at ht
    split at ht
    · cases ht
    · exact .inl ht
  · rw [hget, if_neg]
    rintro rfl
    exact not_scratch hins (isWithin_append _ _) hplace

variable {p p' : Provisioner} {env : ProvisionEnv} {artifact : Artifact} {deadline : Clock}

/-- Whatever release is fetched for the artifact, its entries are named within `N`. -/
def FetchesNamed (env : ProvisionEnv) (artifact : Artifact) (N : String → Prop) : Prop :=
  ∀ deadline items, (env.fetch artifact.url deadline).result = .ok items →
    ∀ e, .entry e ∈ items → e.NamedAs artifact.strip N

theorem fetchesNamed_plain (env : ProvisionEnv) (artifact : Artifact) :
    FetchesNamed env artifact Path.Plain := fun _ _ _ e _ => e.namedAs_plain artifact.strip

theorem fetch_cases {items : Except Error (List Archive.Item)}
    (h : p.fetch env desc artifact deadline = (items, p')) :
    p'.root = p.root ∧ (env.fetch artifact.url deadline).result = items := by
  unfold Provisioner.fetch at h
  simp only at h
  split at h
  · next he =>
    cases h
    exact ⟨rfl, he⟩
  · next he =>
    cases h
    exact ⟨rfl, he⟩

/-- What is true of an installation is true of a download with it, from the root that was made. -/
theorem Neat.fetchAndInstall {m : Except SystemError Unit} (hmk : makeDirs p.root d = (m, made))
    (hd : made.WellFormed) (h : ∀ k R, made.LeadsTo Anywhere p.root k R → Neat made p.root dirs R)
    (hdirs : ∀ x, dirs x → Visible x) (hdesc : Lodger desc dirs) (horder : ∀ l, (env.order l).Perm l)
    (hN : FetchesNamed env artifact N) {r : Except Error Unit}
    (hrun : p.fetchAndInstall env desc artifact deadline d = (r, p', after)) :
    after.WellFormed ∧ ((∃ e, r = .error e) ∧ Same made after ∨
      ∃ k R, made.LeadsTo Anywhere p.root k R ∧ Spares N made after R desc.installDir ∧
        (r = .ok () → ∀ name, desc.executable = some name →
          after.isFile (Path.join (desc.installPath p.root) name) = true)) := by
  unfold Provisioner.fetchAndInstall at hrun
  rcases ho : p.openDownload desc d with ⟨e | download, q, opened⟩ <;> rw [ho] at hrun
  · cases hrun
    rcases openDownload_cases ho with ⟨_, fs, -, rfl⟩ | ⟨_, _, _, _, _, -, hr, -⟩
    · rw [hmk]
      exact ⟨hd.withFaults fs, .inl ⟨⟨e, rfl⟩, same_withFaults made fs⟩⟩
    · cases hr
  rcases openDownload_cases ho with ⟨_, _, hr, -⟩ | ⟨made', s, _, fs, place, hmk', hr, hq, hdot, hs, hf, rfl⟩
  · cases hr
  cases hr
  rw [hmk] at hmk'
  cases hmk'
  obtain ⟨k, R, hroot⟩ := leadsTo_of_makeDirs hmk
  have hneat := h k R hroot
  obtain ⟨hopened, -⟩ := near_download hd hroot hs hf fs 0o600
  obtain ⟨hv, hplace⟩ : made.get? (R ++ [s]) = none ∧ place = R ++ [s] := by
    obtain ⟨_, dir, hl, -, he⟩ := find_entry_cases hs hf
    obtain ⟨-, rfl⟩ := hroot.unique hl
    split at he <;> cases he
    exact ⟨‹_›, rfl⟩
  subst hplace
  have hcreated : Spares N made { { made with faults := fs }.set (R ++ [s]) (.file ⟨made.nextId, [], 0o600⟩)
      with nextId := made.nextId + 1 } R desc.installDir :=
    spares_create (by simp) hv ⟨s, hdot, isWithin_self _⟩ (hdirs _ hdesc.mem)
  simp only at hrun
  rcases hfetch : q.fetch env desc artifact deadline with ⟨e | items, q'⟩ <;> rw [hfetch] at hrun
  · cases hrun
    obtain ⟨hwf, hspares, -⟩ := hcreated.without hd hopened hneat hdesc.mem hs hv
    exact ⟨hwf, .inr ⟨k, R, hroot, hspares, nofun⟩⟩
  obtain ⟨hq', hitems⟩ := fetch_cases hfetch
  simp only at hrun
  rcases hi : q'.install env desc artifact deadline items _ with ⟨r', last⟩
  rw [hi] at hrun
  cases hrun
  unfold Provisioner.install at hi
  rw [hq', hq] at hi
  obtain ⟨hwf, hspares, hok⟩ := (hneat.spares hdesc.mem hdirs hcreated).install hopened hdirs hdesc
    horder (hN _ items hitems) hi
  have hlast := hcreated.trans hspares
  obtain ⟨hwf', hspares', -⟩ := hlast.without hd hwf hneat hdesc.mem hs hv
  exact ⟨hwf', .inr ⟨k, R, hroot, hspares', fun hr name hexe => hlast.isFile_without hd hwf hneat
    hdesc.mem hdirs hs hdot hv (hdesc.executable name hexe) (hok hr name hexe)⟩⟩

/-- What a call comes to: nothing, the install directory of a backend without a program, or a
download. -/
inductive Course (p : Provisioner) (env : ProvisionEnv) (desc : Descriptor) (d e : Disk)
    (r : Except Halt Path) : Prop
  | nothing (same : e = d)
      (installed : desc.artifact ≠ none → (∃ i, r = .ok i) → p.isInstalled d desc = true)
  | builtIn (m : Except SystemError Unit) (none : desc.artifact = none)
      (made : makeDirs (p.installPath desc) d = (m, e))
  | fetched (artifact : Artifact) (deadline : Clock) (end_ : Except Error Unit) (q : Provisioner)
      (some : desc.artifact = some artifact)
      (run : p.fetchAndInstall env desc artifact deadline d = (end_, q, e))
      (ok : (∃ i, r = .ok i) → end_ = .ok ())

theorem course_of_provision {r : Except Halt Path} (h : p.provision env desc d = (r, p', after)) :
    Course p env desc d after r := by
  cases hart : desc.artifact with
  | none =>
    unfold Provisioner.provision Provisioner.provisionBuiltIn at h
    simp only [hart] at h
    split at h
    · next hm =>
      cases h
      exact .builtIn _ hart (doing_ok hm)
    · next hm =>
      cases h
      obtain ⟨_, hop⟩ := doing_error hm
      exact .builtIn _ hart hop
  | some artifact =>
    cases hi : p.isInstalled d desc with
    | true =>
      rw [provision_installed (b := ⟨p, d⟩) hart hi] at h
      cases h
      exact .nothing rfl fun _ _ => hi
    | false =>
      cases ht : env.now.add? env.timeout with
      | none =>
        rw [provision_overflow (b := ⟨p, d⟩) hart hi ht] at h
        cases h
        exact .nothing rfl fun _ ⟨_, hr⟩ => by cases hr
      | some deadline =>
        rw [provision_fetching (b := ⟨p, d⟩) hart hi ht] at h
        rcases hf : p.fetchAndInstall env desc artifact deadline d with ⟨end_, q, last⟩
        rw [hf] at h
        cases h
        refine .fetched artifact deadline end_ q hart hf fun ⟨i, hr⟩ => ?_
        cases end_ with
        | ok u => rfl
        | error _ => cases hr

end calls

/-- The root is in order, and nothing was lost of what is installed beside `ins`. -/
structure Leaves (d e : Disk) (root : Path) (dirs : String → Prop) (ins : String) : Prop where
  tidy : Tidy e root dirs
  others : ∀ x name, dirs x → x ≠ ins → Path.Plain name →
    d.isFile (Path.join (Path.join root x) name) = true →
    e.isFile (Path.join (Path.join root x) name) = true

section leaves

variable {d e f : Disk} {root path : Path} {dirs N : String → Prop} {R : Place} {ins x s : String}
  {k m : Nat}

theorem Leaves.trans (h : Leaves d e root dirs ins) (h' : Leaves e f root dirs ins) :
    Leaves d f root dirs ins :=
  ⟨h'.tidy, fun x name hx hne hname hf => h'.others x name hx hne hname (h.others x name hx hne hname hf)⟩

theorem leads_of_isFile (hx : Path.Plain x) {name : String} (hname : Path.Plain name)
    (hf : d.isFile (Path.join (Path.join root x) name) = true) :
    ∃ m R, d.LeadsTo Anywhere root m R := by
  obtain ⟨_, _, _, -, hends⟩ := isFile_cases hf
  rw [Path.steps_join_plain _ hname, Path.steps_join_plain _ hx] at hends
  obtain ⟨_, _, hl, -⟩ := hends.split
  obtain ⟨k, R, hl, -⟩ := hl.split
  exact ⟨k, R, hl⟩

theorem Tidy.spares (h : Tidy d root dirs) (hins : dirs ins) (hdirs : ∀ x, dirs x → Visible x)
    (hl : d.LeadsTo Anywhere root m R) (he : e.WellFormed) (hs : Spares N d e R ins) :
    Leaves d e root dirs ins := by
  have hneat := h.neat m R hl
  obtain ⟨k, hl', hway⟩ := hs.way hneat hins
  refine ⟨⟨he, fun k' R' hR' => ?_, .inl ⟨k, R, hway.anywhere⟩⟩, fun x name hx hne hname hf => ?_⟩
  · obtain ⟨-, rfl⟩ := hway.unique hR'
    exact hneat.spares hins hdirs hs
  · refine hneat.isFile hx (hdirs x hx).plain hname hl' hway (fun q n hq hn => ?_) hf
    exact hs.has q n (fun hb => hne (isWithin_unique hq hb.1)) hn

/-- Order in a root is a matter of its directories and links. -/
theorem Neat.alike (h : Neat d root dirs R) (ha : Alike d e) : Neat e root dirs R := by
  have hlink : ∀ {q t}, e.get? q = some (.link t) → d.get? q = some (.link t) := fun {q t} =>
    (ha.same q (.link t) nofun).2
  obtain ⟨k, hway⟩ := h.way
  exact ⟨⟨k, ha.leadsTo hway⟩, fun x hx => ha.start ▸ h.away x hx,
    fun x hx t ht => h.no_link x hx t (hlink ht),
    fun x hx q t hq ht => h.downward x hx q t hq (hlink ht)⟩

theorem Tidy.alike (h : Tidy d root dirs) (he : e.WellFormed) (ha : Alike d e) : Tidy e root dirs :=
  ⟨he, fun m R hl => (h.neat m R (ha.symm.leadsTo hl)).alike ha,
    h.fresh.imp_left fun ⟨m, R, hl⟩ => ⟨m, R, ha.leadsTo hl⟩⟩

theorem Same.alike (h : Same d e) : Alike d e :=
  ⟨h.start.symm, fun q n _ => by rw [h.get?]⟩

theorem Tidy.same (h : Tidy d root dirs) (hins : dirs ins) (hdirs : ∀ x, dirs x → Visible x)
    (he : e.WellFormed) (hs : Same d e) : Leaves d e root dirs ins := by
  by_cases hleads : ∃ m R, d.LeadsTo Anywhere root m R
  · obtain ⟨m, R, hl⟩ := hleads
    exact h.spares hins hdirs hl he (.of_same (N := Path.Plain) hs)
  · exact ⟨h.alike he (Same.alike hs), fun x name hx _ hname hf =>
      absurd (leads_of_isFile (hdirs x hx).plain hname hf) hleads⟩

/-- The way to the root or to an install directory in it. -/
def Inward (root path : Path) (ins : String) : Prop :=
  ∀ cs, cs <+: Path.steps path → cs <+: Path.steps root ∨ cs = Path.steps root ++ [.name ins]

theorem inward_root (root : Path) (ins : String) : Inward root root ins := fun _ => .inl

theorem inward_install (root : Path) (hins : Path.Plain ins) : Inward root (Path.join root ins) ins :=
  fun cs hcs => by
    rw [Path.steps_join_plain root hins, List.prefix_concat_iff] at hcs
    exact hcs.symm

/-- Where a root was made that was not there, nothing stood. -/
theorem Tidy.empty_of_made (h : Tidy d root dirs) (hno : ¬ ∃ m R, d.LeadsTo Anywhere root m R)
    (hpath : Inward root path ins) {r : Except SystemError Unit} (hmk : makeDirs path d = (r, e))
    (hR : e.LeadsTo Anywhere root k R) {q : Place} (hq : isWithin R q = true) : d.get? q = none := by
  have hd := h.wellFormed
  rcases first_made hmk with hsame | ⟨way, cs, s, m, dir, hway, hcs, hl, hv, hmade⟩
  · exact absurd ⟨k, R, (Same.alike hsame).symm.leadsTo hR⟩ hno
  · have hprefix : Path.steps way <+: Path.steps root := (hpath _ hway).resolve_right fun hall => by
      rw [hcs] at hall
      obtain ⟨rfl, -⟩ := List.append_inj' hall rfl
      exact hno ⟨m, dir, hl⟩
    have hinside := isWithin_of_way hd (grown_of_makeDirs hd hmk) (h.fresh.resolve_left hno) hv hprefix
      hmade hR
    obtain ⟨r, rfl⟩ := isWithin_iff.1 (isWithin_trans hinside hq)
    exact hd.of_vacant hv r

/-- So only directories stand there. -/
theorem Tidy.dir_of_made (h : Tidy d root dirs) (hno : ¬ ∃ m R, d.LeadsTo Anywhere root m R)
    (hpath : Inward root path ins) {r : Except SystemError Unit} (hmk : makeDirs path d = (r, e))
    (hR : e.LeadsTo Anywhere root k R) {q : Place} (hq : isWithin R q = true) {n : Node}
    (hn : e.get? q = some n) : n = .dir := by
  rcases (grown_of_makeDirs h.wellFormed hmk).same q with he | ⟨-, -, he⟩
  · rw [he, h.empty_of_made hno hpath hmk hR hq] at hn
    cases hn
  · rw [he] at hn
    exact (Option.some.inj hn).symm

/-- When the root is made, or an install directory with it, nothing else stands in the new root. -/
theorem Tidy.made (h : Tidy d root dirs) (hdirs : ∀ x, dirs x → Visible x)
    (hno : ¬ ∃ m R, d.LeadsTo Anywhere root m R) (hpath : Inward root path ins)
    {r : Except SystemError Unit} (hmk : makeDirs path d = (r, e)) : Leaves d e root dirs ins := by
  have hd := h.wellFormed
  have hup := h.fresh.resolve_left hno
  have hgrown := grown_of_makeDirs hd hmk
  refine ⟨⟨hgrown.wellFormed, fun k R hR => ?_, .inr hup⟩, fun x name hx _ hname hf =>
    absurd (leads_of_isFile (hdirs x hx).plain hname hf) hno⟩
  have hempty : ∀ q, isWithin R q = true → d.get? q = none := fun q =>
    h.empty_of_made hno hpath hmk hR
  have hdir : ∀ q, isWithin R q = true → ∀ t, e.get? q ≠ some (.link t) := fun q hq t ht => by
    cases h.dir_of_made hno hpath hmk hR hq ht
  have hbelow : ∀ q n, Below R q → e.get? q = some n → q = R ++ [ins] := fun q n hq hn => by
    obtain ⟨way, m, hway, hl⟩ := made_on_way hd hmk (hempty q hq.1) (by simp [hn])
    rcases hpath _ hway with hprefix | hall
    · have hinside := isWithin_of_way hd hgrown hup (hempty q hq.1) hprefix hl hR
      exact absurd (eq_of_isWithin hq.1 (isWithin_length hinside)) hq.2
    · rw [LeadsTo, hall] at hl
      obtain ⟨k', mid, hfirst, hlast⟩ := hl.split
      obtain ⟨rfl, rfl⟩ := hR.unique hfirst
      rcases hlast.name_cases with ⟨-, -, -, he⟩ | ⟨t, _, ht, -⟩
      · exact he
      · exact absurd ht (hdir _ (isWithin_append _ _) t)
  refine ⟨⟨k, hR.mono fun q n _ hn _ => ⟨fun x _ hb => ?_, hn⟩⟩, fun x _ hb => ?_,
    fun x _ t => hdir _ (isWithin_append R [x]) t,
    fun x _ q t hq ht => absurd ht (hdir q (isWithin_trans (isWithin_append R [x]) hq.1) t)⟩
  · have hR' : Below R q := (Below.snoc (isWithin_self R) x).trans hb.1
    rw [hbelow q n hR' hn] at hb
    exact not_below_snoc ins hb
  · have hstart := hd.start
    rw [← hgrown.start, hempty _ (isWithin_trans (isWithin_append R [x]) hb.1)] at hstart
    cases hstart

variable {p p' : Provisioner} {env : ProvisionEnv} {desc : Descriptor}

theorem Tidy.makeRoot (h : Tidy d root dirs) (hins : dirs ins) (hdirs : ∀ x, dirs x → Visible x)
    {r : Except SystemError Unit} (hmk : makeDirs root d = (r, e)) : Leaves d e root dirs ins := by
  by_cases hleads : ∃ m R, d.LeadsTo Anywhere root m R
  · obtain ⟨m, R, hl⟩ := hleads
    have hgrown := grown_of_leads h.wellFormed hl hmk
    exact h.spares hins hdirs hl hgrown.wellFormed
      ((Spares.of_same (N := Path.Plain) (.refl d)).grown nofun hgrown)
  · exact h.made hdirs hleads (inward_root root ins) hmk

theorem Tidy.makeInstall (h : Tidy d root dirs) (hins : dirs ins) (hdirs : ∀ x, dirs x → Visible x)
    {r : Except SystemError Unit} (hmk : makeDirs (Path.join root ins) d = (r, e)) :
    Leaves d e root dirs ins := by
  have hplain := (hdirs ins hins).plain
  by_cases hleads : ∃ m R, d.LeadsTo Anywhere root m R
  · obtain ⟨m, R, hl⟩ := hleads
    have hgrown := grown_of_parent h.wellFormed hl (Path.steps_join_plain root hplain) hmk
    exact h.spares hins hdirs hl hgrown.wellFormed
      ((Spares.of_same (N := Path.Plain) (.refl d)).grown (fun _ => id) hgrown)
  · exact h.made hdirs hleads (inward_install root hplain) hmk

theorem Leaves.isInstalled (h : Leaves d e p.root dirs ins) (hroot : p'.root = p.root)
    (hdesc : Lodger desc dirs) (hne : desc.installDir ≠ ins) (hi : p.isInstalled d desc = true) :
    p'.isInstalled e desc = true := by
  unfold Provisioner.isInstalled Descriptor.executablePath Provisioner.installPath at hi ⊢
  rw [hroot]
  cases hexe : desc.executable with
  | none => rfl
  | some name =>
    rw [hexe] at hi
    exact h.others _ name hdesc.mem hne (hdesc.executable name hexe) hi

/-- A call leaves the root in order and what is installed beside its own directory; when it succeeds
its own program is installed. -/
theorem Tidy.provision (h : Tidy d p.root dirs) (hdirs : ∀ x, dirs x → Visible x)
    (hdesc : Lodger desc dirs) (horder : ∀ l, (env.order l).Perm l) {r : Except Halt Path}
    (hrun : p.provision env desc d = (r, p', e)) :
    Leaves d e p.root dirs desc.installDir ∧
      (desc.artifact ≠ none → (∃ i, r = .ok i) → p'.isInstalled e desc = true) := by
  have hroot := Provisioner.root_of_provision hrun
  cases course_of_provision hrun with
  | nothing same installed =>
    subst same
    refine ⟨h.same hdesc.mem hdirs h.wellFormed (.refl e), fun hart hr => ?_⟩
    unfold Provisioner.isInstalled Provisioner.installPath
    rw [hroot]
    exact installed hart hr
  | builtIn m none made => exact ⟨h.makeInstall hdesc.mem hdirs made, fun hne => absurd none hne⟩
  | fetched artifact deadline end_ q _ run ok =>
    rcases hmk : makeDirs p.root d with ⟨m, made⟩
    have hmade := h.makeRoot hdesc.mem hdirs hmk
    obtain ⟨hwf, hcases⟩ := Neat.fetchAndInstall hmk hmade.tidy.wellFormed hmade.tidy.neat hdirs
      hdesc horder (fetchesNamed_plain env artifact) run
    rcases hcases with ⟨⟨_, rfl⟩, hsame⟩ | ⟨k, R, hl, hspares, hfile⟩
    · exact ⟨hmade.trans (hmade.tidy.same hdesc.mem hdirs hwf hsame), fun _ hr => by cases ok hr⟩
    · refine ⟨hmade.trans (hmade.tidy.spares hdesc.mem hdirs hl hwf hspares), fun _ hr => ?_⟩
      unfold Provisioner.isInstalled Descriptor.executablePath Provisioner.installPath
      rw [hroot]
      cases hexe : desc.executable with
      | none => rfl
      | some name => exact hfile (ok hr) name hexe

/-- Where the root leads somewhere, a call changes nothing beside its own directory, and there only
what its releases hold. -/
theorem Tidy.spares_provision (h : Tidy d p.root dirs) (hdirs : ∀ x, dirs x → Visible x)
    (hdesc : Lodger desc dirs) (horder : ∀ l, (env.order l).Perm l)
    (hN : ∀ artifact, desc.artifact = some artifact → FetchesNamed env artifact N)
    {r : Except Halt Path} (hl : d.LeadsTo Anywhere p.root m R)
    (hrun : p.provision env desc d = (r, p', e)) :
    e.WellFormed ∧ Spares N d e R desc.installDir := by
  have hd := h.wellFormed
  have hself : Spares N d d R desc.installDir := .of_same (.refl d)
  cases course_of_provision hrun with
  | nothing same _ =>
    subst same
    exact ⟨hd, hself⟩
  | builtIn m _ made =>
    have hgrown := grown_of_parent hd hl (Path.steps_join_plain p.root hdesc.installDir) made
    exact ⟨hgrown.wellFormed, hself.grown (fun _ => id) hgrown⟩
  | fetched artifact deadline end_ q some run _ =>
    rcases hmk : makeDirs p.root d with ⟨m, made⟩
    have hgrown := grown_of_leads hd hl hmk
    have hmade : Spares N d made R desc.installDir := hself.grown nofun hgrown
    obtain ⟨hwf, hcases⟩ := Neat.fetchAndInstall hmk hgrown.wellFormed
      (h.makeRoot hdesc.mem hdirs hmk).tidy.neat hdirs hdesc horder (hN artifact some) run
    rcases hcases with ⟨-, hsame⟩ | ⟨k, R', hl', hspares, -⟩
    · exact ⟨hwf, hmade.trans (.of_same hsame)⟩
    · obtain ⟨-, rfl⟩ := (hgrown.leadsTo hl).unique hl'
      exact ⟨hwf, hmade.trans hspares⟩

/-- In a root that a call has made, nothing but directories stands under such a name. -/
theorem Tidy.dir_of_provision (h : Tidy d p.root dirs) (hdirs : ∀ x, dirs x → Visible x)
    (hdesc : Lodger desc dirs) (horder : ∀ l, (env.order l).Perm l)
    (hN : ∀ artifact, desc.artifact = some artifact → FetchesNamed env artifact N)
    {r : Except Halt Path} (hno : ¬ ∃ m R, d.LeadsTo Anywhere p.root m R)
    (hrun : p.provision env desc d = (r, p', e)) (hR : e.LeadsTo Anywhere p.root k R)
    (hx : Visible x) (hs : x = desc.installDir → ¬ N s) {n : Node}
    (hn : e.get? (R ++ [x] ++ [s]) = some n) : n = .dir := by
  have hwithin : isWithin R (R ++ [x] ++ [s]) = true :=
    isWithin_trans (isWithin_append R _) (isWithin_append _ _)
  cases course_of_provision hrun with
  | nothing same _ => exact absurd ⟨k, R, same ▸ hR⟩ hno
  | builtIn m _ made =>
    exact h.dir_of_made hno (inward_install p.root hdesc.installDir) made hR hwithin hn
  | fetched artifact deadline end_ q some run _ =>
    rcases hmk : makeDirs p.root d with ⟨m, made⟩
    have htidy := (h.makeRoot hdesc.mem hdirs hmk).tidy
    obtain ⟨hwf, hcases⟩ := Neat.fetchAndInstall hmk htidy.wellFormed htidy.neat hdirs hdesc horder
      (hN artifact some) run
    rcases hcases with ⟨-, hsame⟩ | ⟨k', R', hl, hspares, -⟩
    · rw [hsame.get?] at hn
      exact h.dir_of_made hno (inward_root p.root x) hmk ((Same.alike hsame).symm.leadsTo hR)
        hwithin hn
    · obtain ⟨m', -, hway⟩ := hspares.way (htidy.neat k' R' hl) hdesc.mem
      obtain ⟨-, rfl⟩ := hway.unique hR
      rw [hspares.get?_entry hx hs] at hn
      exact h.dir_of_made hno (inward_root p.root x) hmk hl hwithin hn

end leaves
end RigWarden.Provision
