import RigWarden.Proofs.Provision.Setting

/-!
# The program that is made executable

After all entries were moved, every way below the staging directory has become the same way below
the install path. So the executable that was found among the staged entries is the file whose mode
is changed in the end, and that file is new.
-/

namespace RigWarden.Provision

open Disk Relation

/-- All that stood below `P` stands below `I` now. -/
def Copied (d : Disk) (P : Place) (e : Disk) (I : Place) : Prop :=
  ∀ r n, r ≠ [] → d.get? (P ++ r) = some n → e.get? (I ++ r) = some n

/-- The links below a place lead further down. -/
def Downward (d : Disk) (P : Place) : Prop :=
  ∀ q t, Below P q → d.get? q = some (.link t) → Archive.isContained t = true

section copied

variable {d u e : Disk} {P I : Place} {names : List String} {A : Place → Prop}

theorem Moved.copied (h : Moved u P I names e) (hu : u.WellFormed)
    (hall : ∀ x, u.get? (P ++ [x]) ≠ none → x ∈ names) : Copied u P e I := by
  intro r n hr hn
  obtain ⟨x, r, rfl⟩ := List.exists_cons_of_ne_nil hr
  rw [h.moved x (hall x ?_) r, hn]
  by_cases hnil : r = []
  · rw [← hnil, hn]
    exact nofun
  · rw [hu.above (p := P ++ [x]) hnil]
    · exact nofun
    · rw [List.append_assoc, List.singleton_append, hn]
      exact nofun

theorem Copied.part (h : Copied u P e I) (hp : Part d u) : Copied d P e I :=
  fun r n hr hn => h r n hr (hp.has _ n hn)

theorem Copied.snoc (h : Copied d P e I) {r : Place} {s : String} {n : Node}
    (hn : d.get? (P ++ r ++ [s]) = some n) : e.get? (I ++ r ++ [s]) = some n := by
  rw [List.append_assoc] at hn ⊢
  exact h _ n (by simp) hn

theorem Downward.isDownward (h : Downward d P) {r : Place} {s : String} {t : Path}
    (ht : d.get? (P ++ r ++ [s]) = some (.link t)) : ∀ c ∈ Path.steps t, c.isDownward = true :=
  Archive.isDownward_of_isContained (h _ t (Below.snoc (isWithin_append P r) s) ht)

/-- A way below the staging directory is found again where its entries were moved. -/
theorem Copied.follows (h : Copied d P e I) (hlinks : Downward d P) {a b : Stand}
    (hs : ReflTransGen (Stand.Step d A) a b) {r : Place} (ha : a.place = P ++ r)
    (hdown : ∀ c ∈ a.ahead, c.isDownward = true) :
    ∃ r', b.place = P ++ r' ∧ (∀ c ∈ b.ahead, c.isDownward = true) ∧
      ReflTransGen (Stand.Step e Anywhere) { a with place := I ++ r } { b with place := I ++ r' } := by
  induction hs with
  | refl => exact ⟨r, ha, hdown, .refl⟩
  | tail _ hs ih =>
    obtain ⟨r', hplace, hd, hsteps⟩ := ih
    have hrest : ∀ {c : Path.Component} {cs : List Path.Component},
        (∀ x ∈ c :: cs, x.isDownward = true) → ∀ x ∈ cs, x.isDownward = true :=
      fun h x hx => h x (List.mem_cons_of_mem _ hx)
    cases hs with
    | root => exact absurd (hd _ List.mem_cons_self) nofun
    | here => exact ⟨r', hplace, hrest hd, hsteps.tail .here⟩
    | up => exact absurd (hd _ List.mem_cons_self) nofun
    | @down n here s cs hs _ hdir =>
      simp only at hplace
      subst hplace
      refine ⟨r' ++ [s], List.append_assoc _ _ _, hrest hd, hsteps.tail ?_⟩
      have hstep := @Stand.Step.down _ Anywhere n _ s cs hs trivial (h.snoc hdir)
      rwa [List.append_assoc] at hstep
    | @link n here s cs t hs _ ht =>
      simp only at hplace
      subst hplace
      refine ⟨r', rfl, fun c hc => ?_, hsteps.tail (.link hs trivial (h.snoc ht))⟩
      exact (List.mem_append.1 hc).elim (hlinks.isDownward ht c) (hrest hd c)

end copied

section executable

variable {d after : Disk} {p : Path} {r : Except Error Unit}

/-- Making a program executable changes the mode of one file, or nothing. -/
theorem makeExecutable_cases (h : makeExecutable p d = (r, after)) :
    ∃ fs, after = { d with faults := fs } ∨
      ∃ place f, d.find .through p = .ok (.node place (.file f)) ∧
        after = { d with faults := fs }.updateFile f.id fun f =>
          { f with mode := f.mode ||| 0o755 } := by
  have hmode : ∀ {what : String} {r : Except Error Unit} {after : Disk},
      TaskM.doing what (addMode p 0o755) d = (r, after) → ∃ fs, after = { d with faults := fs } ∨
      ∃ place f, d.find .through p = .ok (.node place (.file f)) ∧
        after = { d with faults := fs }.updateFile f.id fun f =>
          { f with mode := f.mode ||| 0o755 } := by
    intro what r after h
    rcases r with _ | ⟨⟩
    · obtain ⟨_, hop⟩ := doing_error h
      obtain ⟨fs, rfl⟩ := attempt_error hop
      exact ⟨fs, .inl rfl⟩
    · have hop := attempt_ok (doing_ok h)
      rw [find_withFaults] at hop
      rcases hf : d.find .through p with _ | ⟨place, n⟩ | place <;>
        simp only [hf, Bind.bind, Except.bind] at hop
      · cases hop
      · cases n with
        | file f =>
          cases hop
          exact ⟨d.faults.drop 1, .inr ⟨place, f, rfl, rfl⟩⟩
        | _ =>
          cases hop
          exact ⟨d.faults.drop 1, .inl rfl⟩
      · cases hop
  unfold makeExecutable at h
  rcases bind_cases h with ⟨_, -, hask⟩ | ⟨found, mid, hask, h⟩
  · cases hask
  · cases hask
    split at h <;> exact hmode h

variable {base e u : Disk} {root staging install : Path} {R I : Place} {stg ins name : String}
  {m : Nat} {names : List String}

/-- What is found at the install path is the program that came from the archive. -/
theorem Prepared.executable_new (h : Prepared d base root staging R stg)
    (hst : Archive.Staged base (R ++ [stg]) e) (hname : Path.Plain name)
    (hfile : e.isFile (Path.join staging name) = true)
    (hgrown : Grown e (· = R ++ [ins]) u) (hscene : Scene u root staging install R I stg m)
    (hall : ∀ x, u.get? (R ++ [stg] ++ [x]) ≠ none → x ∈ names)
    (hmoving : Moving u install (R ++ [stg]) I m names after) {place : Place} {n : Node}
    (hfind : after.find .through (Path.join install name) = .ok (.node place n)) :
    ∃ f, n = .file f ∧ base.nextId ≤ f.id := by
  obtain ⟨f₀, dir, s, hf₀, hends⟩ := isFile_cases hfile
  rw [Path.steps_join_plain staging hname] at hends
  obtain ⟨k, mid, hl, j, hlast⟩ := hends.split
  obtain ⟨k', hstaging⟩ := hst.leads h.site.2.1
  obtain ⟨rfl, rfl⟩ := hstaging.unique hl
  have hcopied := (hmoving.toMoved.copied hscene.wellFormed hall).part hgrown.part
  obtain ⟨r', hdir, -, hmoved⟩ := hcopied.follows hst.links hlast (r := []) (by simp)
    (by simp [Path.Component.isDownward])
  simp only at hdir
  subst hdir
  rw [List.append_nil] at hmoved
  have hid : base.nextId ≤ f₀.id := hst.files _ f₀ (Below.snoc (isWithin_append _ r') s) hf₀
  have hf₁ := hcopied.snoc hf₀
  have hinstall := hmoving.toMoved.spared_leads hmoving.leads
  rw [← hmoving.start] at hinstall
  rcases walk_through_cases (walk_of_find hfind) with ⟨-, k₂, hl₂⟩ | ⟨f', dir', s', hn, rfl, hf', he⟩
  · rw [Path.steps_join_plain install hname] at hl₂
    obtain ⟨_, mid₂, hl₂, hlast₂⟩ := hl₂.split
    obtain ⟨-, rfl⟩ := hinstall.unique hl₂
    exact absurd hlast₂ (Ends.not_leads ⟨j, hmoved⟩ hf₁)
  · rw [Path.steps_join_plain install hname] at he
    obtain ⟨k₂, mid₂, hl₂, hend⟩ := he.split
    obtain ⟨-, rfl⟩ := hinstall.unique hl₂
    obtain ⟨rfl, rfl⟩ := Ends.unique ⟨j, hmoved⟩ hend hf₁ hf'
    rw [hf₁] at hf'
    cases hf'
    exact ⟨f₀, hn, hid⟩

/-- All that installing a staged release can do. -/
theorem installStaged_cases {goOn : Nat → Except Error Unit} {order : List String → List String}
    {desc : Descriptor} {strip : Nat} {items : List Archive.Item}
    (h : installStaged goOn order desc strip install staging items d = (r, after)) :
    (∃ err, r = .error err ∧ Archive.unpack goOn staging strip items d = (.error err, after)) ∨
    ∃ e, Archive.unpack goOn staging strip items d = (.ok (), e) ∧
      ((desc.executable = none ∧ moveIntoPlace order staging install e = (r, after)) ∨
        ∃ name, desc.executable = some name ∧
          ((e.isFile (Path.join staging name) = false ∧ r = .error (.archive (.lacks name)) ∧
              after = e) ∨
            e.isFile (Path.join staging name) = true ∧
              ((∃ err, r = .error err ∧ moveIntoPlace order staging install e = (.error err, after)) ∨
                ∃ u, moveIntoPlace order staging install e = (.ok (), u) ∧
                  makeExecutable (Path.join install name) u = (r, after)))) := by
  unfold installStaged at h
  rcases bind_cases h with hu | ⟨⟨⟩, e, hu, h⟩
  · exact .inl hu
  refine .inr ⟨e, hu, ?_⟩
  cases hexe : desc.executable with
  | none =>
    rw [hexe] at h
    exact .inl ⟨rfl, h⟩
  | some name =>
    rw [hexe] at h
    refine .inr ⟨name, rfl, ?_⟩
    rcases bind_cases h with ⟨_, -, hask⟩ | ⟨found, mid, hask, h⟩
    · cases hask
    cases hask
    by_cases hfile : e.isFile (Path.join staging name) = true
    · simp only [hfile, Bool.not_true, Bool.false_eq_true, if_false] at h
      refine .inr ⟨hfile, ?_⟩
      rcases bind_cases h with hm | ⟨⟨⟩, u, hm, hx⟩
      · exact .inl hm
      · exact .inr ⟨u, hm, hx⟩
    · simp only [Bool.not_eq_true] at hfile
      simp only [hfile, Bool.not_false, if_true] at h
      cases h
      exact .inl ⟨hfile, rfl, rfl⟩

end executable

end RigWarden.Provision
