import RigWarden.Proofs.Disk.Effects

/-!
# Unpacking stays in the staging directory

Whatever an archive holds, unpacking only changes what lies below the staging directory, and all
links there lead further down. Both hold after every single operation, so an archive never gets to a
place from where its later entries would land elsewhere.
-/

namespace RigWarden

open Disk

/-- The place lies strictly below another one. -/
def Below (P q : Place) : Prop := isWithin P q = true ∧ q ≠ P

def Path.Component.isDownward : Path.Component → Bool
  | name _ => true
  | here => true
  | _ => false

def Disk.Found.place : Found → Place
  | .node place _ => place
  | .vacant place => place

section below

variable {P q : Place} {s : String}

theorem Below.snoc (h : isWithin P q = true) (s : String) : Below P (q ++ [s]) := by
  obtain ⟨r, rfl⟩ := isWithin_iff.1 h
  refine ⟨by rw [List.append_assoc]; exact isWithin_append P _, fun he => ?_⟩
  have hlen := congrArg List.length he
  simp at hlen

theorem Below.ne_nil (h : Below P q) : q ≠ [] := fun he =>
  h.2 (eq_of_isWithin h.1 (by simp [he]) )

theorem Below.trans {r : Place} (h : Below P q) (hr : isWithin q r = true) : Below P r := by
  refine ⟨isWithin_trans h.1 hr, fun he => h.2 ?_⟩
  rw [he] at hr
  exact eq_of_isWithin h.1 (isWithin_length hr)

end below

namespace Archive

theorem isDownward_of_isContained {t : Path} (h : isContained t = true) :
    ∀ c ∈ Path.steps t, c.isDownward = true := by
  intro c hc
  have hall := List.all_eq_true.1 (Bool.and_eq_true_iff.1 h).2
  by_cases hhere : c = .here
  · rw [hhere]
    rfl
  · have hmem : c ∈ Path.components t := by
      unfold Path.components
      cases hs : Path.steps t with
      | nil =>
        rw [hs] at hc
        cases hc
      | cons first rest =>
        rw [hs, List.mem_cons] at hc
        rcases hc with rfl | hc
        · exact List.mem_cons_self
        · exact List.mem_cons_of_mem _ (List.mem_filter.2 ⟨hc, by simpa using hhere⟩)
    have := hall c hmem
    cases c <;> simp_all [Path.Component.isDownward]

/-- A directory that was made for an archive and holds nothing yet. -/
structure Site (base : Disk) (staging : Path) (P : Place) : Prop where
  wellFormed : base.WellFormed
  dir : base.get? P = some .dir
  empty : ∀ q, Below P q → base.get? q = none
  away : isWithin P base.workingDir = false
  leads : ∃ m, base.LeadsTo Anywhere staging m P

/-- Nothing was changed but below the staging directory, where all links lead further down, all
files are new and the entries have names of the kind `N`. -/
structure StagedAs (N : String → Prop) (base : Disk) (P : Place) (d : Disk) : Prop where
  wellFormed : d.WellFormed
  start : d.workingDir = base.workingDir
  outside : ∀ q, ¬ Below P q → d.get? q = base.get? q
  links : ∀ q t, Below P q → d.get? q = some (.link t) → isContained t = true
  files : ∀ q f, Below P q → d.get? q = some (.file f) → base.nextId ≤ f.id
  names : ∀ s, d.get? (P ++ [s]) ≠ none → N s
  newer : base.nextId ≤ d.nextId

/-- The entries have plain names. -/
abbrev Staged : Disk → Place → Disk → Prop := StagedAs Path.Plain

section staged

variable {base d : Disk} {P q : Place} {staging : Path} {N : String → Prop}

theorem Site.staged (h : Site base staging P) : StagedAs N base P base := by
  refine ⟨h.wellFormed, rfl, fun _ _ => rfl, fun q t hq ht => ?_, fun q f hq hf => ?_,
    fun s hs => ?_, Nat.le_refl _⟩
  · rw [h.empty q hq] at ht
    cases ht
  · rw [h.empty q hq] at hf
    cases hf
  · exact absurd (h.empty _ (Below.snoc (isWithin_self P) s)) hs

theorem staged_blind (N : String → Prop) (base : Disk) (P : Place) : Blind (StagedAs N base P) :=
  fun _ fs h => ⟨h.wellFormed.withFaults fs, h.start, h.outside, h.links, h.files, h.names, h.newer⟩

theorem StagedAs.set {n : Node} (h : StagedAs N base P d) (hq : Below P q) (hv : d.get? q = none)
    (hd : d.get? q.dropLast = some .dir) (hname : ∀ s, q = P ++ [s] → N s)
    (hn : ∀ f, n ≠ .file f) (hlink : ∀ t, n = .link t → isContained t = true) :
    StagedAs N base P (d.set q n) := by
  refine ⟨h.wellFormed.set hv hd fun f hf => absurd hf (hn f), by rw [workingDir_set, h.start],
    fun p hp => ?_, fun p t hp ht => ?_, fun p f hp hf => ?_, fun s hs => ?_,
    by rw [nextId_set]; exact h.newer⟩
  · rw [get?_set hq.ne_nil, if_neg fun he : p = q => hp (he ▸ hq), h.outside p hp]
  · rw [get?_set hq.ne_nil] at ht
    split at ht
    · exact hlink t (Option.some.inj ht)
    · exact h.links p t hp ht
  · rw [get?_set hq.ne_nil] at hf
    split at hf
    · exact absurd (Option.some.inj hf) (hn f)
    · exact h.files p f hp hf
  · rw [get?_set hq.ne_nil] at hs
    split at hs
    · next he => exact hname s he.symm
    · exact h.names s hs

theorem StagedAs.create {mode : Nat} (h : StagedAs N base P d) (hq : Below P q) (hv : d.get? q = none)
    (hd : d.get? q.dropLast = some .dir) (hname : ∀ s, q = P ++ [s] → N s) :
    StagedAs N base P { d.set q (.file ⟨d.nextId, [], mode⟩) with nextId := d.nextId + 1 } := by
  have hget : ∀ p,
      ({ d.set q (.file ⟨d.nextId, [], mode⟩) with nextId := d.nextId + 1 } : Disk).get? p =
        if p = q then some (.file ⟨d.nextId, [], mode⟩) else d.get? p := get?_set hq.ne_nil _
  refine ⟨h.wellFormed.create hv hd, by rw [← h.start]; exact workingDir_set d q _, fun p hp => ?_,
    fun p t hp ht => ?_, fun p f hp hf => ?_, fun s hs => ?_, Nat.le_succ_of_le h.newer⟩
  · rw [hget, if_neg fun he : p = q => hp (he ▸ hq), h.outside p hp]
  · rw [hget] at ht
    split at ht
    · cases ht
    · exact h.links p t hp ht
  · rw [hget] at hf
    split at hf
    · cases hf
      exact h.newer
    · exact h.files p f hp hf
  · rw [hget] at hs
    split at hs
    · next he => exact hname s he.symm
    · exact h.names s hs

theorem StagedAs.erase (h : StagedAs N base P d) (hq : Below P q)
    (haway : isWithin P base.workingDir = false) : StagedAs N base P (d.erase q) := by
  have hout : ∀ p, (d.erase q).get? p ≠ none → (d.erase q).get? p = d.get? p := fun p hp => by
    rw [get?_erase] at hp ⊢
    split at hp
    · exact absurd rfl hp
    · next hw => rw [if_neg hw]
  refine ⟨h.wellFormed.erase ?_, h.start, fun p hp => ?_, fun p t hp ht => ?_, fun p f hp hf => ?_,
    fun s hs => h.names s (hout _ hs ▸ hs), h.newer⟩
  · rw [Bool.eq_false_iff, h.start]
    intro hw
    rw [isWithin_trans hq.1 hw] at haway
    cases haway
  · rw [get?_erase, if_neg fun hw => hp (hq.trans hw.2), h.outside p hp]
  · exact h.links p t hp (hout p (by rw [ht]; exact nofun) ▸ ht)
  · exact h.files p f hp (hout p (by rw [hf]; exact nofun) ▸ hf)

theorem StagedAs.updateFile (h : StagedAs N base P d) (hbase : base.WellFormed) {id : Nat}
    (hid : base.nextId ≤ id) {f : FileData → FileData} (hf : ∀ data, (f data).id = data.id) :
    StagedAs N base P (d.updateFile id f) := by
  refine ⟨h.wellFormed.updateFile id hf, h.start, fun p hp => ?_, fun p t hp ht => ?_,
    fun p data hp hdata => ?_, fun s hs => h.names s fun hnone => hs ?_, h.newer⟩
  · rw [get?_updateFile, h.outside p hp, hbase.map_updated hid]
  · rw [get?_updateFile] at ht
    obtain ⟨n, hn, he⟩ := Option.map_eq_some_iff.1 ht
    cases n <;> cases he
    exact h.links p t hp hn
  · rw [get?_updateFile] at hdata
    obtain ⟨n, hn, he⟩ := Option.map_eq_some_iff.1 hdata
    cases n with
    | file old =>
      cases he
      have hold := h.files p old hp hn
      split
      · exact (hf old).symm ▸ hold
      · exact hold
    | _ => cases he
  · rw [get?_updateFile, hnone]
    rfl

/-- Where all links lead further down, one stays in a place by going down from it. -/
theorem within_of_steps (hlinks : ∀ q t, Below P q → d.get? q = some (.link t) → isContained t = true)
    {A : Place → Prop} {a b : Stand} (hs : Relation.ReflTransGen (Stand.Step d A) a b)
    (ha : isWithin P a.place = true) (hdown : ∀ c ∈ a.ahead, c.isDownward = true) :
    isWithin P b.place = true ∧ ∀ c ∈ b.ahead, c.isDownward = true := by
  induction hs with
  | refl => exact ⟨ha, hdown⟩
  | tail _ hs ih =>
    obtain ⟨hw, hd⟩ := ih
    cases hs with
    | root => exact absurd (hd _ List.mem_cons_self) nofun
    | here => exact ⟨hw, fun c hc => hd c (List.mem_cons_of_mem _ hc)⟩
    | up => exact absurd (hd _ List.mem_cons_self) nofun
    | @down n here s cs _ _ _ =>
      exact ⟨(Below.snoc hw s).1, fun c hc => hd c (List.mem_cons_of_mem _ hc)⟩
    | @link n here s cs t _ _ ht =>
      refine ⟨hw, fun c hc => ?_⟩
      rcases List.mem_append.1 hc with hc | hc
      · exact isDownward_of_isContained (hlinks _ t (Below.snoc hw s) ht) c hc
      · exact hd c (List.mem_cons_of_mem _ hc)

theorem StagedAs.within_of_leads (h : StagedAs N base P d) {A : Place → Prop} {n m : Nat}
    {here there : Place} {cs : List Path.Component} (hl : d.Leads A n here cs m there)
    (hhere : isWithin P here = true) (hdown : ∀ c ∈ cs, c.isDownward = true) :
    isWithin P there = true :=
  (within_of_steps h.links hl hhere hdown).1

/-- Whatever is looked up from a place on the way down is found in it. -/
theorem within_of_walk
    (hlinks : ∀ q t, Below P q → d.get? q = some (.link t) → isContained t = true)
    {l : Lookup} {n : Nat} {slash : Bool} {here : Place} {cs : List Path.Component} {found : Found}
    (hw : d.walk l n slash here cs = .ok found) (hhere : isWithin P here = true)
    (hdown : ∀ c ∈ cs, c.isDownward = true) : isWithin P found.place = true := by
  induction n using Nat.strongRecOn generalizing slash here cs with
  | ind n ih =>
    rcases List.eq_nil_or_concat cs with rfl | ⟨cs, c, rfl⟩
    · rw [walk_nil] at hw
      cases hw
      exact hhere
    · rw [List.concat_eq_append] at hw hdown
      obtain ⟨m, dir, hl, hlast⟩ := walk_append (by simp) hw
      have hdir := (within_of_steps hlinks hl hhere fun c hc => hdown c (List.mem_append_left _ hc)).1
      have hc := hdown c (by simp)
      cases c with
      | root => cases hc
      | up => cases hc
      | here =>
        rw [walk_here, walk_nil] at hlast
        cases hlast
        exact hdir
      | name s =>
        have hplace := (Below.snoc hdir s).1
        rw [walk_last] at hlast
        unfold finish at hlast
        simp only at hlast
        split at hlast
        · cases hlast
        · split at hlast
          · cases hlast
          · split at hlast
            · cases hlast
              exact hplace
            · cases hlast
              exact hplace
            · split at hlast
              · cases hlast
              · cases hlast
                exact hplace
            · next t ht =>
              split at hlast
              · cases hlast
                exact hplace
              · cases m with
                | zero => cases hlast
                | succ m =>
                  refine ih m (Nat.lt_of_succ_le hl.links_le) hlast hdir fun c hc => ?_
                  exact isDownward_of_isContained (hlinks _ t (Below.snoc hdir s) ht) c hc

theorem StagedAs.leads (h : StagedAs N base P d) (hsite : Site base staging P) :
    ∃ m, d.LeadsTo Anywhere staging m P := by
  obtain ⟨m, hl⟩ := hsite.leads
  refine ⟨m, ?_⟩
  rw [LeadsTo, h.start]
  refine hl.mono fun p n _ hn _ => ⟨trivial, ?_⟩
  rw [h.outside p fun hp => ?_, hn]
  rw [hsite.empty p hp] at hn
  cases hn

/-- A first part of a way that goes on below the staging directory. -/
theorem prefix_cases {α : Type} {l a b : List α} {x : α} (h : l ++ [x] <+: a ++ b) :
    l ++ [x] <+: a ∨ ∃ b', l = a ++ b' ∧ b' ++ [x] <+: b := by
  rcases List.prefix_or_prefix_of_prefix h (List.prefix_append a b) with hl | ⟨c, hc⟩
  · exact .inl hl
  · rcases List.eq_nil_or_concat c with rfl | ⟨c, y, rfl⟩
    · rw [List.append_nil] at hc
      exact .inl (hc ▸ List.prefix_refl _)
    · rw [List.concat_eq_append, ← List.append_assoc] at hc
      obtain ⟨rfl, hy⟩ := List.append_inj' hc rfl
      cases hy
      refine .inr ⟨c, rfl, ?_⟩
      rwa [List.append_assoc, List.prefix_append_right_inj] at h

/-- A free place on the way to an entry lies below the staging directory. -/
theorem StagedAs.below_of_vacant (h : StagedAs N base P d) (hsite : Site base staging P) {p : Path}
    {cs : List Path.Component} (hp : Path.steps p <+: Path.steps staging ++ cs)
    (hdown : ∀ c ∈ cs, c.isDownward = true) (hf : d.find .entry p = .ok (.vacant q)) :
    Below P q ∧ d.get? q = none ∧ d.get? q.dropLast = some .dir ∧
      ∀ s, q = P ++ [s] → .name s ∈ cs := by
  obtain ⟨as, s, m, dir, has, hl, rfl, hv, -⟩ := walk_entry_vacant (walk_of_find hf)
  have hdir : d.get? dir = some .dir := hl.dir h.wellFormed h.wellFormed.start
  obtain ⟨k, hstaging⟩ := h.leads hsite
  rw [List.dropLast_concat]
  rw [has] at hp
  rcases prefix_cases hp with hstart | ⟨bs, rfl, hbs⟩
  · -- The staging directory is there, and so is all that leads to it.
    exact absurd hf (hstaging.not_vacant (has ▸ hstart))
  · obtain ⟨_, _, hinit, hrest⟩ := hl.split
    obtain ⟨-, rfl⟩ := hstaging.unique hinit
    refine ⟨?_, hv, hdir, fun x hx => ?_⟩
    · refine Below.snoc (h.within_of_leads hrest (isWithin_self _) fun c hc => hdown c ?_) s
      exact hbs.subset (List.mem_append_left _ hc)
    · obtain ⟨-, hxs⟩ := List.append_inj' hx rfl
      cases hxs
      exact hbs.subset (by simp)

theorem StagedAs.below_of_node (h : StagedAs N base P d) (hsite : Site base staging P) {p : Path}
    {cs : List Path.Component} {s : String} {n : Node}
    (hp : Path.steps p = Path.steps staging ++ cs ++ [.name s])
    (hdown : ∀ c ∈ cs, c.isDownward = true) (hf : d.find .entry p = .ok (.node q n)) :
    Below P q := by
  obtain ⟨m, dir, hl, -, he⟩ := find_entry_cases hp hf
  obtain ⟨k, hstaging⟩ := h.leads hsite
  obtain ⟨_, _, hinit, hrest⟩ := hl.split
  obtain ⟨-, rfl⟩ := hstaging.unique hinit
  split at he
  · cases he
  · cases he
    exact Below.snoc (h.within_of_leads hrest (isWithin_self _) hdown) s

end staged

/-! Entries -/

theorem plainName?_eq_some {c : Path.Component} {s : String} (h : plainName? c = some s) :
    c = .name s := by
  cases c <;> cases h
  rfl

theorem mem_steps_of_mem_stripped {strip : Nat} {name : Path} {c : Path.Component}
    (h : c ∈ stripped strip name) : c ∈ Path.steps name := by
  have hmem := (List.mem_filter.1 ((List.drop_subset strip _) h)).1
  unfold Path.components at hmem
  cases hs : Path.steps name with
  | nil =>
    rw [hs] at hmem
    cases hmem
  | cons first rest =>
    rw [hs, List.mem_cons] at hmem
    rcases hmem with rfl | hmem
    · exact List.mem_cons_self
    · exact List.mem_cons_of_mem _ (List.mem_filter.1 hmem).1

/-- An entry that is not refused has plain names only, and a contained link if it is one. -/
theorem Entry.of_fault?_eq_none {e : Entry} {strip : Nat}
    (h : e.fault? (stripped strip e.name) = none) :
    (∀ s ∈ (stripped strip e.name).filterMap plainName?, Path.Plain s) ∧
      ((stripped strip e.name).filterMap plainName? = [] → stripped strip e.name = []) ∧
      (e.kind = .symlink → isContained e.link = true) := by
  unfold fault? at h
  split at h
  · cases h
  · next hplain =>
    rw [List.any_eq_true] at hplain
    refine ⟨fun s hs => ?_, fun hnil => ?_, fun hkind => ?_⟩
    · obtain ⟨c, hc, hname⟩ := List.mem_filterMap.1 hs
      exact Path.plain_of_mem_steps (plainName?_eq_some hname ▸ mem_steps_of_mem_stripped hc)
    · rw [List.filterMap_eq_nil_iff] at hnil
      refine List.eq_nil_iff_forall_not_mem.2 fun c hc => hplain ⟨c, hc, ?_⟩
      rw [hnil c hc]
      rfl
    · simp only [hkind] at h
      split at h
      · assumption
      · cases h

/-- Whatever name is left of an entry, if it is plain, it is of the kind `N`. -/
def Entry.NamedAs (e : Entry) (strip : Nat) (N : String → Prop) : Prop :=
  ∀ s, .name s ∈ stripped strip e.name → Path.Plain s → N s

theorem Entry.namedAs_plain (e : Entry) (strip : Nat) : e.NamedAs strip Path.Plain :=
  fun _ _ h => h

section unpack

variable {base : Disk} {P : Place} {staging : Path} {N : String → Prop} (hsite : Site base staging P)
include hsite

/-- What stands in the way of an entry is removed below the staging directory. -/
theorem keeps_replacing {α : Type} {make : DiskM α} {Q : α → Prop} {p : Path}
    {cs : List Path.Component} {s : String}
    (hp : Path.steps p = Path.steps staging ++ cs ++ [.name s])
    (hdown : ∀ c ∈ cs, c.isDownward = true) (hmake : Keeps (StagedAs N base P) make Q) :
    Keeps (StagedAs N base P) (replacing p make) Q := by
  intro d hd r after he
  unfold replacing at he
  split at he
  · next mid hop =>
    refine Keeps.bind (Keeps.removeFile (staged_blind N base P).fading fun d place n hd hf _ => ?_)
      (fun _ _ => hmake) mid (hmake d hd _ _ hop).1 r after he
    exact hd.erase (hd.below_of_node hsite hp hdown hf) hsite.away
  · exact hmake d hd _ _ he

theorem keeps_place {e : Entry} {p : Path} {cs : List Path.Component} {s : String}
    (hp : Path.steps p = Path.steps staging ++ cs ++ [.name s])
    (hdown : ∀ c ∈ cs, c.isDownward = true) (hnames : ∀ x, .name x ∈ cs ++ [.name s] → N x)
    (hlink : e.kind = .symlink → isContained e.link = true) :
    Keeps (StagedAs N base P) (e.place p) Keeps.Always := by
  have hblind := (staged_blind N base P).fading
  have hall : ∀ c ∈ cs ++ [.name s], c.isDownward = true := fun c hc => by
    rcases List.mem_append.1 hc with hc | hc
    · exact hdown c hc
    · rw [List.mem_singleton.1 hc]
      rfl
  have hfree : ∀ d place, StagedAs N base P d → d.find .entry p = .ok (.vacant place) →
      Below P place ∧ d.get? place = none ∧ d.get? place.dropLast = some .dir ∧
        ∀ s, place = P ++ [s] → N s := fun d place hd hf => by
    obtain ⟨hb, hv, hdir, hname⟩ := hd.below_of_vacant hsite
      ⟨[], by rw [List.append_nil, hp, List.append_assoc]⟩ hall hf
    exact ⟨hb, hv, hdir, fun x hx => hnames x (hname x hx)⟩
  unfold Entry.place
  split
  · refine Keeps.ensureDir hblind fun d place hd hf => ?_
    obtain ⟨hb, hv, hdir, hname⟩ := hfree d place hd hf
    exact hd.set hb hv hdir hname nofun nofun
  · split
    · next hkind =>
      refine keeps_replacing hsite hp hdown (Keeps.makeLink hblind fun d place hd hf => ?_)
      obtain ⟨hb, hv, hdir, hname⟩ := hfree d place hd hf
      refine hd.set hb hv hdir hname nofun fun t ht => ?_
      cases ht
      exact hlink hkind
    · have hupdate : ∀ id, base.nextId ≤ id → ∀ f : FileData → FileData,
          (∀ data, (f data).id = data.id) →
          ∀ d, StagedAs N base P d → StagedAs N base P (d.updateFile id f) :=
        fun id hid f hf d hd => hd.updateFile hsite.wellFormed hid hf
      refine Keeps.bind (Q := fun id => base.nextId ≤ id)
        (keeps_replacing hsite hp hdown (Keeps.createNew hblind fun d place hd hf => ?_))
        fun id hid => Keeps.bind (Keeps.append hblind (hupdate id hid _ fun _ => rfl)) fun _ _ =>
          Keeps.setMode hblind (hupdate id hid _ fun _ => rfl)
      obtain ⟨hb, hv, hdir, hname⟩ := hfree d place hd hf
      exact ⟨hd.create hb hv hdir hname, hd.newer⟩

theorem keeps_entry {e : Entry} {strip : Nat} (hN : e.NamedAs strip N) :
    Keeps (StagedAs N base P) (e.unpack staging strip) Keeps.Always := by
  unfold Entry.unpack
  simp only
  split
  · exact Keeps.pure trivial
  · next hne =>
    split
    · exact Keeps.throw _
    · next hfault =>
      obtain ⟨hnames, hnil, hlink⟩ := Entry.of_fault?_eq_none hfault
      have hsome : (stripped strip e.name).filterMap plainName? ≠ [] := fun h => hne (hnil h)
      have hsteps := Path.steps_join_intercalate staging hsome hnames
      obtain ⟨ns, s, hns⟩ := (List.eq_nil_or_concat _).resolve_left hsome
      rw [hns, List.concat_eq_append, List.map_append, ← List.append_assoc] at hsteps
      have hdown : ∀ c ∈ ns.map Path.Component.name, c.isDownward = true := fun c hc => by
        obtain ⟨x, -, rfl⟩ := List.mem_map.1 hc
        rfl
      have hkind : ∀ x, .name x ∈ ns.map Path.Component.name ++ [.name s] → N x := fun x hx => by
        have hmem : x ∈ (stripped strip e.name).filterMap plainName? := by
          rw [hns, List.concat_eq_append]
          simpa using hx
        obtain ⟨c, hc, hname⟩ := List.mem_filterMap.1 hmem
        exact hN x (plainName?_eq_some hname ▸ hc) (hnames x hmem)
      rw [hns, List.concat_eq_append]
      refine Keeps.bind (Q := Keeps.Always) (Keeps.unpacking ?_) fun _ _ => Keeps.pure trivial
      refine Keeps.bind (Keeps.makeDirs (staged_blind N base P).fading fun q hq d place hd hf => ?_)
        fun _ _ => keeps_place hsite hsteps hdown hkind hlink
      have hq' := hq.trans (Path.steps_getD_parent _)
      rw [hsteps, List.append_assoc] at hq'
      have hall : ∀ c ∈ ns.map Path.Component.name ++ [s].map Path.Component.name,
          c.isDownward = true := fun c hc => by
        rw [← List.map_append, List.mem_map] at hc
        obtain ⟨x, -, rfl⟩ := hc
        rfl
      obtain ⟨hb, hv, hdir, hname⟩ := hd.below_of_vacant hsite hq' hall hf
      exact hd.set hb hv hdir (fun x hx => hkind x (hname x hx)) nofun nofun

theorem keeps_unpackFrom (goOn : Nat → Except Error Unit) (strip index : Nat) {items : List Item}
    (hN : ∀ e, .entry e ∈ items → e.NamedAs strip N) :
    Keeps (StagedAs N base P) (unpackFrom goOn staging strip index items) Keeps.Always := by
  induction items generalizing index with
  | nil => exact Keeps.pure trivial
  | cons item items ih =>
    unfold unpackFrom
    refine Keeps.bind (Keeps.ofExcept _ fun _ => trivial) fun _ _ => ?_
    cases item with
    | broken text => exact Keeps.throw _
    | entry e =>
      have hrest := ih (index + 1) fun f hf => hN f (List.mem_cons_of_mem _ hf)
      exact Keeps.bind (keeps_entry hsite (hN e List.mem_cons_self)) fun _ _ =>
        Keeps.bind hrest fun _ _ => Keeps.pure trivial

theorem keeps_unpack_named (goOn : Nat → Except Error Unit) {strip : Nat} {items : List Item}
    (hN : ∀ e, .entry e ∈ items → e.NamedAs strip N) :
    Keeps (StagedAs N base P) (unpack goOn staging strip items) Keeps.Always := by
  unfold unpack
  refine Keeps.bind (keeps_unpackFrom hsite goOn strip 0 hN) fun n _ => ?_
  split
  · exact Keeps.throw _
  · exact Keeps.pure trivial

theorem keeps_unpack (goOn : Nat → Except Error Unit) (strip : Nat) (items : List Item) :
    Keeps (Staged base P) (unpack goOn staging strip items) Keeps.Always :=
  keeps_unpack_named hsite goOn fun e _ => e.namedAs_plain strip

end unpack

/-- Whatever a path of names below the staging directory is looked up as, it is found there. -/
theorem StagedAs.within_of_find {N : String → Prop} {base d : Disk} {P : Place} {staging : Path}
    (h : StagedAs N base P d) (hsite : Site base staging P) {ns : List String} (hne : ns ≠ []) (hns : ∀ s ∈ ns, Path.Plain s)
    {l : Lookup} {found : Found}
    (hf : d.find l (Path.join staging ("/".intercalate ns)) = .ok found) :
    isWithin P found.place = true := by
  have hw := walk_of_find hf
  obtain ⟨m, hl⟩ := h.leads hsite
  rw [Path.steps_join_intercalate staging hne hns, hl.walk_append (by simpa using hne)] at hw
  refine within_of_walk h.links hw (isWithin_self P) fun c hc => ?_
  obtain ⟨x, -, rfl⟩ := List.mem_map.1 hc
  rfl

end Archive
end RigWarden
