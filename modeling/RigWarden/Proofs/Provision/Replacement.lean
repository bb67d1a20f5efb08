import RigWarden.Proofs.Disk.Making
import RigWarden.Proofs.Provision.Containment

/-!
# Replacing what is installed

Entries are moved one after the other, and a failure does not take back what was moved. When no
operation fails for a reason of its own, only one thing can stop the moves: a staged directory whose
target is a link that leads nowhere, since such a link is not taken away and a directory cannot be
renamed to it.
-/

namespace RigWarden.Provision

open Disk

section calm

variable {d : Disk} {p : Path} {place : Place} {n : Node}

theorem removeDirs_calm (h : d.faults = []) (hf : d.find .entry p = .ok (.node place n))
    (hn : ∀ f, n ≠ .file f) : removeDirs p d = (.ok (), d.erase place) := by
  rw [removeDirs, attempt_calm h]
  simp only [hf, Bind.bind, Except.bind]
  cases n with
  | file f => exact absurd rfl (hn f)
  | _ => rfl

theorem doing_calm {α : Type} {what : String} {op : DiskM α} {a : α} {after : Disk}
    (h : op d = (.ok a, after)) : TaskM.doing what op d = (.ok a, after) := by
  rw [TaskM.doing, h]

/-- A rename to a place where nothing stands. -/
theorem rename_vacant {source target : Path} {from_ to_ : Place} (h : d.faults = [])
    (hs : d.find .entry source = .ok (.node from_ n)) (ht : d.find .entry target = .ok (.vacant to_))
    (hw : isWithin from_ to_ = false) : rename source target d = (.ok (), d.move from_ to_) := by
  rw [rename, attempt_calm h]
  simp only [hs, ht, Bind.bind, Except.bind]
  rw [if_neg fun hc => Bool.eq_false_iff.1 hw hc.2]
  rfl

/-- A rename to a place where a link stands. -/
theorem rename_link {source target t : Path} {from_ to_ : Place} (h : d.faults = [])
    (hs : d.find .entry source = .ok (.node from_ n))
    (ht : d.find .entry target = .ok (.node to_ (.link t)))
    (hw : isWithin from_ to_ = false) (hc : d.children to_ = []) :
    rename source target d =
      if n = .dir then (.error .notDirectory, d) else (.ok (), (d.erase to_).move from_ to_) := by
  have hne : from_ ≠ to_ := fun he => by
    rw [he, isWithin_self] at hw
    cases hw
  rw [rename, attempt_calm h]
  simp only [hs, ht, Bind.bind, Except.bind]
  rw [if_neg hne, if_neg fun hb => Bool.eq_false_iff.1 hw hb.2]
  by_cases hn : n = .dir
  · rw [if_pos ⟨hn, nofun⟩, if_pos hn]
    rfl
  · rw [if_neg fun hb => hn hb.1, if_neg (by simp), if_neg (by simp [hc]), if_neg hn]
    rfl

end calm

/-- A place that is neither staged nor below the install path. -/
def Aside (P I : Place) (p : Place) : Prop := ¬ Below P p ∧ ¬ Below I p

/-- The staging directory and the install path are reached without a look into either, and neither
lies in the other. -/
structure Direct (u : Disk) (staging install : Path) (P I : Place) (m : Nat) : Prop where
  wellFormed : u.WellFormed
  staging_leads : u.LeadsTo (Aside P I) staging m P
  install_leads : u.LeadsTo (Aside P I) install m I
  apart : isWithin P I = false
  apart' : isWithin I P = false

/-- The system takes the paths of an entry that is to be moved. -/
structure Movable (staging install : Path) (x : String) : Prop where
  source : Usable (Path.join staging x)
  target : Usable (Path.join install x)
  short : (Text.utf8 x).length ≤ maxName

/-- What is aside is as it was. -/
structure Steady (u : Disk) (P I : Place) (f : Disk) : Prop where
  start : f.workingDir = u.workingDir
  same : ∀ p, Aside P I p → f.get? p = u.get? p

/-- A staged directory has to take the place of a link that leads nowhere. -/
def Stuck (e : Disk) (install : Path) (P I : Place) (x : String) : Prop :=
  e.get? (P ++ [x]) = some .dir ∧ (∃ t, e.get? (I ++ [x]) = some (.link t)) ∧
    e.exists? (Path.join install x) = false

section direct

variable {u e f : Disk} {staging install : Path} {P I : Place} {m : Nat} {ms : List String}
  {x : String}

theorem Direct.not_isWithin (h : Direct u staging install P I m) (x : String) :
    isWithin (P ++ [x]) (I ++ [x]) = false ∧ isWithin (I ++ [x]) (P ++ [x]) = false := by
  have hout : ∀ {Q J : Place}, isWithin Q J = false → isWithin J Q = false →
      isWithin (Q ++ [x]) (J ++ [x]) = false := fun hQ hJ =>
    not_isWithin_of_isWithin (isWithin_append _ [x]) (isWithin_append_false hQ hJ [x])
  exact ⟨hout h.apart h.apart', hout h.apart' h.apart⟩

/-- Nothing lies below a link. -/
theorem Moved.children_eq_nil (h : Moved u P I ms e) (hd : Direct u staging install P I m)
    (hxm : x ∉ ms) {t : Path} (ht : e.get? (I ++ [x]) = some (.link t)) :
    e.children (I ++ [x]) = [] := by
  refine List.eq_nil_iff_forall_not_mem.2 fun y hy => ?_
  have hkept : ∀ r, e.get? (I ++ x :: r) = u.get? (I ++ x :: r) := fun r =>
    h.kept _ (fun hb => Bool.eq_false_iff.1 (isWithin_append_false hd.apart hd.apart' _) hb.1)
      fun z hz => not_isWithin_other (fun he : z = x => hxm (he ▸ hz)) r
  have hbelow := mem_children_iff.1 hy
  rw [List.append_assoc, List.singleton_append, hkept, List.append_cons] at hbelow
  have hdir := hd.wellFormed.above (by simp) hbelow
  rw [hkept [], hdir] at ht
  cases ht

theorem Moved.steady (h : Moved u P I ms e) : Steady u P I e :=
  ⟨h.start, fun _ hp => h.kept _ hp.1 fun y _ => Bool.eq_false_iff.2 fun hw =>
    hp.2 ((Below.snoc (isWithin_self I) y).trans hw)⟩

theorem Steady.erase (h : Steady u P I e) (x : String) : Steady u P I (e.erase (I ++ [x])) := by
  refine ⟨h.start, fun p hp => ?_⟩
  rw [get?_erase, if_neg fun hw => hp.2 ((Below.snoc (isWithin_self I) x).trans hw.2), h.same p hp]

theorem Steady.leadsTo (h : Steady u P I f) {p : Path} {there : Place}
    (hl : u.LeadsTo (Aside P I) p m there) : f.LeadsTo (Aside P I) p m there := by
  rw [LeadsTo, h.start]
  exact hl.mono fun q _ hq hn _ => ⟨hq, (h.same q hq).trans hn⟩

/-- An entry is found under its name, in the staging directory and at the install path. -/
theorem Steady.find_source (h : Steady u P I f) (hd : Direct u staging install P I m)
    (hx : Path.Plain x) (hm : Movable staging install x) :
    f.find .entry (Path.join staging x) = .ok (match f.get? (P ++ [x]) with
      | none => .vacant (P ++ [x])
      | some n => .node (P ++ [x]) n) :=
  find_entry_eq hm.source (Path.steps_join_plain staging hx) (h.leadsTo hd.staging_leads) hm.short

theorem Steady.find_target (h : Steady u P I f) (hd : Direct u staging install P I m)
    (hx : Path.Plain x) (hm : Movable staging install x) :
    f.find .entry (Path.join install x) = .ok (match f.get? (I ++ [x]) with
      | none => .vacant (I ++ [x])
      | some n => .node (I ++ [x]) n) :=
  find_entry_eq hm.target (Path.steps_join_plain install hx) (h.leadsTo hd.install_leads) hm.short

theorem endsInSlash_join (base : Path) (hx : Path.Plain x) :
    Path.endsInSlash (Path.join base x) = false := by
  have hlast : ∀ cs : List Char, (cs ++ x.toList).getLast? ≠ some '/' := fun cs he => by
    rw [List.getLast?_append_of_ne_nil _ hx.ne_nil] at he
    exact hx.no_slash (List.mem_of_getLast? he)
  unfold Path.endsInSlash
  rw [decide_eq_false_iff_not]
  rcases Path.toList_join base hx.isAbsolute with ⟨he, -⟩ | ⟨he, -⟩
  · rw [he]
    exact hlast _
  · rw [he, List.append_cons]
    exact hlast _

/-- What a target leads to, if no link stands there. -/
theorem Steady.node?_target (h : Steady u P I f) (hd : Direct u staging install P I m)
    (hx : Path.Plain x) (hm : Movable staging install x)
    (hlink : ∀ t, f.get? (I ++ [x]) ≠ some (.link t)) :
    f.node? (Path.join install x) = f.get? (I ++ [x]) := by
  unfold node?
  rw [find_of_usable hm.target, Path.steps_join_plain install hx,
    (h.leadsTo hd.install_leads).walk_append (by simp), walk_last, finish, endsInSlash_join install hx,
    if_neg (by simp), if_neg (Nat.not_lt.2 hm.short)]
  cases hn : f.get? (I ++ [x]) with
  | none => rfl
  | some n =>
    cases n with
    | link t => exact absurd hn (hlink t)
    | _ => rfl

/-- What leads somewhere is taken away. -/
theorem Steady.clear_calm (h : Steady u P I e) (hd : Direct u staging install P I m)
    (hcalm : e.faults = []) (hx : Path.Plain x) (hm : Movable staging install x) :
    clear (Path.join install x) e =
      (.ok (), if e.exists? (Path.join install x) then e.erase (I ++ [x]) else e) := by
  have hfind := h.find_target hd hx hm
  have hnode := h.node?_target hd hx hm
  simp only [clear, bind_apply, TaskM.ask]
  by_cases hdir : e.isDir (Path.join install x) = true
  · have hleads : e.node? (Path.join install x) = some .dir := by simpa [isDir] using hdir
    rw [if_pos hdir, exists?, hleads, Option.isSome_some, if_pos rfl]
    refine doing_calm ?_
    cases hn : e.get? (I ++ [x]) with
    | none =>
      rw [hnode (by simp [hn]), hn] at hleads
      cases hleads
    | some n =>
      rw [hn] at hfind
      refine removeDirs_calm hcalm hfind fun f hf => ?_
      rw [hnode (by simp [hn, hf]), hn, hf] at hleads
      cases hleads
  · rw [if_neg hdir]
    by_cases hex : e.exists? (Path.join install x) = true
    · simp only [bind_apply, TaskM.ask, hex, if_true]
      refine doing_calm ?_
      cases hn : e.get? (I ++ [x]) with
      | none =>
        rw [exists?, hnode (by simp [hn]), hn] at hex
        cases hex
      | some n =>
        rw [hn] at hfind
        refine removeFile_calm hcalm hfind fun hn' => hdir ?_
        rw [isDir, hnode (by simp [hn, hn']), hn, hn']
        rfl
    · simp only [bind_apply, TaskM.ask, hex, if_false, Bool.false_eq_true]
      rfl

/-- What is moved and what is in its way are found, and the entry takes its place; only a staged
directory and a link that leads nowhere do not go together. -/
theorem Moving.moveEntry_calm (h : Moving u install P I m ms e) (hd : Direct u staging install P I m)
    (hcalm : e.faults = []) (hx : Path.Plain x) (hxm : x ∉ ms) (hm : Movable staging install x)
    (hsrc : u.get? (P ++ [x]) ≠ none) :
    (¬ Stuck e install P I x ∧ ∃ after, moveEntry staging install x e = (.ok (), after) ∧
        after.faults = []) ∨
      Stuck e install P I x ∧ moveEntry staging install x e =
        (.error (.io ("installing " ++ Path.join install x) .notDirectory), e) := by
  have hsteady := h.toMoved.steady
  obtain ⟨hout, hout'⟩ := hd.not_isWithin x
  obtain ⟨n, hn⟩ := Option.ne_none_iff_exists'.1 hsrc
  rw [← h.staged x hxm []] at hn
  rw [moveEntry_eq, bind_apply, hsteady.clear_calm hd hcalm hx hm]
  by_cases hex : e.exists? (Path.join install x) = true
  · have hcleared := hsteady.erase x
    have hs := hcleared.find_source hd hx hm
    have ht := hcleared.find_target hd hx hm
    rw [get?_erase, if_neg fun hw => Bool.eq_false_iff.1 hout' hw.2, hn] at hs
    rw [get?_erase, if_pos ⟨by simp, isWithin_self _⟩] at ht
    refine .inl ⟨fun hstuck => Bool.eq_false_iff.1 hstuck.2.2 hex,
      (e.erase (I ++ [x])).move (P ++ [x]) (I ++ [x]), ?_, hcalm⟩
    rw [if_pos hex]
    exact doing_calm (rename_vacant (d := e.erase (I ++ [x])) hcalm hs ht hout)
  · have hs := hsteady.find_source hd hx hm
    have ht := hsteady.find_target hd hx hm
    rw [hn] at hs
    simp only [hex, if_false, Bool.false_eq_true]
    cases htarget : e.get? (I ++ [x]) with
    | none =>
      rw [htarget] at ht
      refine .inl ⟨fun ⟨_, ⟨t, hlink⟩, _⟩ => ?_, e.move (P ++ [x]) (I ++ [x]), ?_, hcalm⟩
      · rw [htarget] at hlink
        cases hlink
      · exact doing_calm (rename_vacant hcalm hs ht hout)
    | some old =>
      have hlink : ∃ t, old = .link t := by
        by_contra hno
        refine hex ?_
        rw [exists?, hsteady.node?_target hd hx hm fun t ht => hno ⟨t, ?_⟩, htarget]
        · rfl
        · rw [htarget] at ht
          exact Option.some.inj ht
      obtain ⟨t, rfl⟩ := hlink
      rw [htarget] at ht
      have hrename := rename_link hcalm hs ht hout (h.toMoved.children_eq_nil hd hxm htarget)
      by_cases hdir : n = .dir
      · subst hdir
        rw [if_pos rfl] at hrename
        refine .inr ⟨⟨hn, ⟨t, htarget⟩, by simpa using hex⟩, ?_⟩
        simp only [TaskM.doing, hrename]
      · rw [if_neg hdir] at hrename
        refine .inl ⟨fun hstuck => hdir ?_, _, doing_calm hrename, hcalm⟩
        rw [hstuck.1] at hn
        exact (Option.some.inj hn).symm

/-- The entries are moved one after the other, up to the first that is stuck. -/
theorem Moving.moveEntries_calm {root : Path} {R : Place} {stg : String}
    (h : Moving u install (R ++ [stg]) I m ms e) (hs : Scene u root staging install R I stg m)
    (hd : Direct u staging install (R ++ [stg]) I m) (hcalm : e.faults = []) {names : List String}
    (hplain : ∀ x ∈ names, Path.Plain x) (hmov : ∀ x ∈ names, Movable staging install x)
    (hsrc : ∀ x ∈ names, u.get? (R ++ [stg] ++ [x]) ≠ none) (hnodup : (ms ++ names).Nodup) :
    ∃ moved rest mid, names = moved ++ rest ∧ Moving u install (R ++ [stg]) I m (ms ++ moved) mid ∧
      mid.faults = [] ∧
      (rest = [] ∧ moveEntries staging install names e = (.ok (), mid) ∨
        ∃ x more, rest = x :: more ∧ Stuck mid install (R ++ [stg]) I x ∧
          moveEntries staging install names e =
            (.error (.io ("installing " ++ Path.join install x) .notDirectory), mid)) := by
  induction names generalizing ms e with
  | nil => exact ⟨[], [], e, rfl, by rwa [List.append_nil], hcalm, .inl ⟨rfl, rfl⟩⟩
  | cons x names ih =>
    have hx := hplain x List.mem_cons_self
    have hxm : x ∉ ms := fun hmem => by
      rw [List.nodup_append] at hnodup
      exact hnodup.2.2 x hmem x List.mem_cons_self rfl
    rw [moveEntries, bind_apply]
    rcases h.moveEntry_calm hd hcalm hx hxm (hmov x List.mem_cons_self) (hsrc x List.mem_cons_self) with
      ⟨-, mid, hmove, hmid⟩ | ⟨hstuck, hmove⟩
    · have hassoc : ∀ l, ms ++ x :: l = ms ++ [x] ++ l := by simp
      rw [hassoc] at hnodup
      obtain ⟨moved, rest, last, rfl, hlast, hcalm', hend⟩ := ih (h.step hs hx hxm hmove) hmid
        (fun y hy => hplain y (List.mem_cons_of_mem _ hy))
        (fun y hy => hmov y (List.mem_cons_of_mem _ hy))
        (fun y hy => hsrc y (List.mem_cons_of_mem _ hy)) hnodup
      rw [hmove]
      exact ⟨x :: moved, rest, last, rfl, by rwa [hassoc], hcalm', hend⟩
    · rw [hmove]
      exact ⟨[], x :: names, e, rfl, by rwa [List.append_nil], hcalm, .inr ⟨x, names, rfl, hstuck, rfl⟩⟩

end direct

section executable

variable {d e : Disk} {staging install : Path} {P I : Place} {slash : Bool} {r q : Place} {nd : Node}
  {m : Nat} {name : String} {A B : Place → Prop}

theorem Copied.finish (h : Copied d P e I) {jump jump' : Walk} {s : String}
    (hjump : ∀ {slash : Bool} {t : Path}, d.get? (P ++ r ++ [s]) = some (.link t) →
      jump slash (P ++ r) (Path.steps t) = .ok (.node q nd) →
      ∃ r', q = P ++ r' ∧ jump' slash (I ++ r) (Path.steps t) = .ok (.node (I ++ r') nd))
    (hw : Disk.finish d .through slash jump (P ++ r) s = .ok (.node q nd)) :
    ∃ r', q = P ++ r' ∧ Disk.finish e .through slash jump' (I ++ r) s = .ok (.node (I ++ r') nd) := by
  rw [Disk.finish, if_neg (by simp)] at hw ⊢
  split at hw
  · cases hw
  · next hs =>
    rw [if_neg hs]
    split at hw
    · cases hw
    · next hn =>
      cases hw
      exact ⟨r ++ [s], List.append_assoc _ _ _, by rw [h.snoc hn, List.append_assoc]⟩
    · next f hn =>
      split at hw
      · cases hw
      · next hslash =>
        cases hw
        refine ⟨r ++ [s], List.append_assoc _ _ _, ?_⟩
        rw [h.snoc hn, List.append_assoc]
        exact if_neg hslash
    · next t hn =>
      rw [if_neg (by simp)] at hw
      rw [h.snoc hn]
      exact hjump hn hw

/-- What is looked up below the staging directory is found again where its entries were moved. -/
theorem Copied.walk (h : Copied d P e I) (hlinks : Downward d P) {n : Nat}
    {cs : List Path.Component} (hdown : ∀ c ∈ cs, c.isDownward = true)
    (hw : d.walk .through n slash (P ++ r) cs = .ok (.node q nd)) :
    ∃ r', q = P ++ r' ∧ e.walk .through n slash (I ++ r) cs = .ok (.node (I ++ r') nd) := by
  induction n using Nat.strongRecOn generalizing slash r cs with
  | ind n ih =>
    have hjump : ∀ {slash : Bool} {r : Place} {s : String} {t : Path} (rest : List Path.Component),
        (∀ c ∈ rest, c.isDownward = true) → d.get? (P ++ r ++ [s]) = some (.link t) →
        jumpAt d .through n slash (P ++ r) (Path.steps t ++ rest) = .ok (.node q nd) →
        ∃ r', q = P ++ r' ∧
          jumpAt e .through n slash (I ++ r) (Path.steps t ++ rest) = .ok (.node (I ++ r') nd) := by
      intro slash r s t rest hrest ht hw
      cases n with
      | zero => cases hw
      | succ n =>
        exact ih n (Nat.lt_succ_self n) (fun c hc => (List.mem_append.1 hc).elim
          (hlinks.isDownward ht c) (hrest c)) hw
    induction cs generalizing r with
    | nil =>
      rw [walk_nil] at hw
      cases hw
      exact ⟨r, rfl, walk_nil _ _ _ _ _⟩
    | cons c cs ihc =>
      have hcs : ∀ c ∈ cs, c.isDownward = true := fun c hc => hdown c (List.mem_cons_of_mem _ hc)
      have hc := hdown c List.mem_cons_self
      cases c with
      | root => cases hc
      | up => cases hc
      | here =>
        rw [walk_here] at hw ⊢
        exact ihc hcs hw
      | name s =>
        by_cases hnil : cs = []
        · subst hnil
          rw [walk_last] at hw ⊢
          refine h.finish (fun ht hw => ?_) hw
          simpa using hjump [] nofun ht (by simpa using hw)
        · rw [walk_name _ _ _ _ _ _ hnil] at hw ⊢
          split at hw
          · cases hw
          · next hs =>
            rw [if_neg hs]
            split at hw
            · cases hw
            · next hn =>
              rw [h.snoc hn]
              rw [List.append_assoc] at hw
              simpa [List.append_assoc] using ihc hcs hw
            · cases hw
            · next t hn =>
              rw [h.snoc hn]
              exact hjump cs hcs hn hw

/-- The staged program is found at the install path, over the same links, and made executable. -/
theorem Copied.makeExecutable_calm (h : Copied d P e I) (hlinks : Downward d P)
    (hs : d.LeadsTo A staging m P) (hi : e.LeadsTo B install m I) (hcalm : e.faults = [])
    (hname : Path.Plain name) (hu : Usable (Path.join install name)) {f : FileData}
    (hf : d.fileAt (Path.join staging name) = .ok f) :
    makeExecutable (Path.join install name) e =
      (.ok (), e.updateFile f.id fun f => { f with mode := f.mode ||| 0o755 }) := by
  have hdown : ∀ c ∈ [Path.Component.name name], c.isDownward = true := by
    simp [Path.Component.isDownward]
  obtain ⟨place, hfind⟩ : ∃ place,
      e.find .through (Path.join install name) = .ok (.node place (.file f)) := by
    unfold fileAt at hf
    split at hf
    · cases hf
    · cases hf
    · next place _ hfind =>
      cases hf
      have hw := walk_of_find hfind
      rw [endsInSlash_join staging hname, Path.steps_join_plain staging hname,
        hs.walk_append (by simp)] at hw
      obtain ⟨r', -, hw'⟩ := h.walk hlinks (r := []) hdown (by simpa using hw)
      refine ⟨I ++ r', ?_⟩
      rw [find_of_usable hu, endsInSlash_join install hname, Path.steps_join_plain install hname,
        hi.walk_append (by simp)]
      simpa using hw'
    · cases hf
  have hmode : addMode (Path.join install name) 0o755 e =
      (.ok (), e.updateFile f.id fun f => { f with mode := f.mode ||| 0o755 }) := by
    rw [addMode, attempt_calm hcalm]
    simp only [hfind, Bind.bind, Except.bind]
    rfl
  simp only [makeExecutable, bind_apply, TaskM.ask]
  split <;> exact doing_calm hmode

end executable

section setting

variable {d base e u : Disk} {root staging install : Path} {R I : Place} {stg ins : String}
  {m : Nat}

/-- A root that is reached without a look into the install directory, which is no link. -/
structure Plainly (d : Disk) (root : Path) (R : Place) (ins : String) : Prop where
  root_leads : ∃ k, d.LeadsTo (fun q => isWithin (R ++ [ins]) q = false) root k R
  no_link : ∀ t, d.get? (R ++ [ins]) ≠ some (.link t)

theorem Prepared.direct (h : Prepared d base root staging R stg)
    (hins : Path.steps install = Path.steps root ++ [.name ins]) (hp : Plainly d root R ins)
    (hne : ins ≠ stg) (hst : Archive.Staged base (R ++ [stg]) e)
    (hgrown : Grown e (· = R ++ [ins]) u) (hscene : Scene u root staging install R I stg m) :
    I = R ++ [ins] ∧ Direct u staging install (R ++ [stg]) (R ++ [ins]) m := by
  have hpart : Part d u := (h.part hst).trans hgrown.part
  have hapart : ∀ {a b : String}, a ≠ b → isWithin (R ++ [a]) (R ++ [b]) = false := fun hab =>
    not_isWithin_other hab []
  obtain ⟨k, hroot⟩ := hp.root_leads
  have hroot' : u.LeadsTo (Aside (R ++ [stg]) (R ++ [ins])) root k R := by
    rw [LeadsTo, ← hpart.start]
    refine hroot.mono fun q n hq hn _ => ⟨⟨fun hb => ?_, fun hb => ?_⟩, hpart.has q n hn⟩
    · obtain ⟨r, rfl⟩ := isWithin_iff.1 hb.1
      rw [h.wellFormed.of_vacant h.site.1 r] at hn
      cases hn
    · exact Bool.eq_false_iff.1 hq hb.1
  have hdown : ∀ {s : String}, (Text.utf8 s).length ≤ maxName → u.get? (R ++ [s]) = some .dir →
      (s = stg ∨ s = ins) → Stand.Step u (Aside (R ++ [stg]) (R ++ [ins])) ⟨k, R, [.name s]⟩
        ⟨k, R ++ [s], []⟩ := by
    intro s hs hd hor
    refine .down hs ⟨fun hb => ?_, fun hb => ?_⟩ hd
    · rcases hor with rfl | rfl
      · exact hb.2 rfl
      · exact Bool.eq_false_iff.1 (hapart hne.symm) hb.1
    · rcases hor with rfl | rfl
      · exact Bool.eq_false_iff.1 (hapart hne) hb.1
      · exact hb.2 rfl
  have hlast : ∀ {p : Path} {s : String} {j : Nat} {there : Place} {A : Place → Prop},
      Path.steps p = Path.steps root ++ [.name s] → u.LeadsTo A p j there →
      u.Leads A k R [.name s] j there := by
    intro p s j there A hsteps hl
    rw [LeadsTo, hsteps] at hl
    obtain ⟨k', mid, hinit, hrest⟩ := hl.split
    obtain ⟨rfl, rfl⟩ := hroot'.unique hinit
    exact hrest
  have hstaging : u.LeadsTo (Aside (R ++ [stg]) (R ++ [ins])) staging k (R ++ [stg]) := by
    obtain ⟨j, hl⟩ := hst.leads h.site.2.1
    rcases (hlast h.staging_steps (hgrown.part.leadsTo hl)).name_cases with
      ⟨hd, hs, -⟩ | ⟨_, _, ht, -⟩
    · rw [LeadsTo, h.staging_steps]
      exact hroot'.concat (hdown hs hd (.inl rfl))
    · rw [hscene.dir] at ht
      cases ht
  rcases (hlast hins hscene.leads).name_cases with ⟨hd, hs, rfl, rfl⟩ | ⟨t, _, ht, -⟩
  · refine ⟨rfl, hgrown.wellFormed, hstaging, ?_, hapart hne.symm, hapart hne⟩
    rw [LeadsTo, hins]
    exact hroot'.concat (hdown hs hd (.inr rfl))
  · have hold := hgrown.eq_of_not_dir ht (by simp)
    rw [h.outside hst (hapart hne.symm)] at hold
    exact absurd hold (hp.no_link t)

end setting

/-- What becomes of the staged nodes in the end: the program is made executable. -/
def finished (desc : Descriptor) (staging : Path) (e : Disk) : Node → Node :=
  match desc.executable with
  | none => id
  | some name =>
    match e.fileAt (Path.join staging name) with
    | .ok f => .updated f.id fun f => { f with mode := f.mode ||| 0o755 }
    | .error _ => id

/-- Of the entries that are staged on `e` the `moved` are in place and the `rest` is not. All are in
place in the end, or one was stuck when the others before it had been moved, or nothing was moved. -/
structure Replaced (old e after : Disk) (desc : Descriptor) (staging install : Path) (P I : Place)
    (moved rest : List String) (r : Except Error Unit) : Prop where
  entries : ∀ x, x ∈ moved ++ rest ↔ e.get? (P ++ [x]) ≠ none
  nodup : (moved ++ rest).Nodup
  kept : ∀ q, isWithin I q = true → (∀ x ∈ moved, isWithin (I ++ [x]) q = false) →
    after.get? q = old.get? q ∨ r = .ok () ∧ q = I ∧ old.get? I = none
  outcome :
    (r = .ok () ∧ rest = [] ∧ ∀ x ∈ moved, ∀ t,
      after.get? (I ++ x :: t) = (e.get? (P ++ x :: t)).map (finished desc staging e)) ∨
    ∃ err, r = .error err ∧
      (∀ x ∈ moved, ∀ t, after.get? (I ++ x :: t) = e.get? (P ++ x :: t)) ∧
      (moved = [] ∨ ∃ x more t u mid, rest = x :: more ∧ e.get? (P ++ [x]) = some .dir ∧
        old.get? (I ++ [x]) = some (.link t) ∧ Grown e (· = I) u ∧ Moved u P I moved mid ∧
        mid.exists? (Path.join install x) = false)

/-- Without a link in the place of a directory it is all or nothing. -/
theorem Replaced.all_or_nothing {old e after : Disk} {desc : Descriptor} {staging install : Path}
    {P I : Place} {moved rest : List String} {r : Except Error Unit}
    (h : Replaced old e after desc staging install P I moved rest r)
    (hsafe : ∀ x t, e.get? (P ++ [x]) = some .dir → old.get? (I ++ [x]) ≠ some (.link t)) :
    r = .ok () ∧ rest = [] ∨ (∃ err, r = .error err) ∧ moved = [] := by
  rcases h.outcome with ⟨hr, hrest, -⟩ | ⟨err, hr, -, hnone | ⟨x, _, t, _, _, -, hdir, hlink, -⟩⟩
  · exact .inl ⟨hr, hrest⟩
  · exact .inr ⟨⟨err, hr⟩, hnone⟩
  · exact absurd hlink (hsafe x t hdir)

section replaced

variable {d base e u after : Disk} {root staging install : Path} {R : Place} {stg ins : String}
  {desc : Descriptor}

/-- While a release is unpacked, the install path stays as it is. -/
theorem Setting.kept_staged (h : Setting d base root staging install R stg ins) (hne : ins ≠ stg)
    (hst : Archive.Staged base (R ++ [stg]) e) {q : Place} (hq : isWithin (R ++ [ins]) q = true) :
    e.get? q = d.get? q := by
  refine h.outside hst ?_
  obtain ⟨r, rfl⟩ := isWithin_iff.1 hq
  rw [List.append_assoc]
  exact not_isWithin_other hne.symm r

theorem Setting.kept_moved (h : Setting d base root staging install R stg ins) (hne : ins ≠ stg)
    (hst : Archive.Staged base (R ++ [stg]) e) (hgrown : Grown e (· = R ++ [ins]) u)
    {moved : List String} (hmoved : Moved u (R ++ [stg]) (R ++ [ins]) moved after) {q : Place}
    (hq : isWithin (R ++ [ins]) q = true) (hx : ∀ x ∈ moved, isWithin (R ++ [ins] ++ [x]) q = false) :
    after.get? q = d.get? q ∨ q = R ++ [ins] ∧ d.get? (R ++ [ins]) = none := by
  rw [hmoved.kept q (fun hb => ?_) hx, ← h.kept_staged hne hst hq,
    ← h.kept_staged hne hst (isWithin_self _)]
  · exact (hgrown.same q).imp_right fun ⟨he, hnone, _⟩ => ⟨he, he ▸ hnone⟩
  · obtain ⟨r, rfl⟩ := isWithin_iff.1 hq
    rw [List.append_assoc] at hb
    exact Bool.eq_false_iff.1 (not_isWithin_other hne.symm r) hb.1

theorem staged_grown (hgrown : Grown e (· = R ++ [ins]) u) (x : String) (t : Place) :
    u.get? (R ++ [stg] ++ x :: t) = e.get? (R ++ [stg] ++ x :: t) := by
  refine (hgrown.same _).resolve_right fun ⟨he, _⟩ => ?_
  have hlen := congrArg List.length he
  simp at hlen

/-- The moves of a release that was unpacked, when nothing fails any more. -/
theorem Setting.moveIntoPlace_calm (h : Setting d base root staging install R stg ins)
    (hp : Plainly d root R ins) (hne : ins ≠ stg) (hst : Archive.Staged base (R ++ [stg]) e)
    (hcalm : e.faults = []) (hmov : ∀ x, e.get? (R ++ [stg] ++ [x]) ≠ none → Movable staging install x)
    {order : List String → List String} (horder : ∀ l, (order l).Perm l) {r : Except Error Unit}
    (hm : moveIntoPlace order staging install e = (r, after)) :
    (∃ err, r = .error err ∧ after = e) ∨ ∃ u m moved rest, Grown e (· = R ++ [ins]) u ∧
        Direct u staging install (R ++ [stg]) (R ++ [ins]) m ∧
        Moved u (R ++ [stg]) (R ++ [ins]) moved after ∧ after.faults = [] ∧ (moved ++ rest).Nodup ∧
        (∀ x, x ∈ moved ++ rest ↔ e.get? (R ++ [stg] ++ [x]) ≠ none) ∧
        (r = .ok () ∧ rest = [] ∨ ∃ err x more, r = .error err ∧ rest = x :: more ∧
          Stuck after install (R ++ [stg]) (R ++ [ins]) x) := by
  rcases h.moveIntoPlace_cases hst horder hm with
    ⟨err, hr, -, hsame⟩ | ⟨u, I, m, names, hgrown, hscene, -, hnodup, hplain, hall, hquiet, hmoves⟩
  · exact .inl ⟨err, hr, hsame hcalm⟩
  obtain ⟨rfl, hdirect⟩ := h.prepared.direct h.install_steps hp hne hst hgrown hscene
  have hall' : ∀ x, x ∈ names ↔ e.get? (R ++ [stg] ++ [x]) ≠ none := fun x => by
    rw [hall x, staged_grown hgrown x []]
  obtain ⟨moved, rest, mid, rfl, hmoving, hcalm', hend⟩ := hscene.moving.moveEntries_calm hscene hdirect
    (hquiet hcalm) hplain (fun x hx => hmov x ((hall' x).1 hx)) (fun x hx => (hall x).1 hx)
    (by simpa using hnodup)
  rw [hmoves] at hend
  refine .inr ⟨u, m, moved, rest, hgrown, hdirect, ?_, ?_, hnodup, hall', ?_⟩
  · rcases hend with ⟨-, he⟩ | ⟨_, _, -, -, he⟩ <;> cases he <;> exact hmoving.toMoved
  · rcases hend with ⟨-, he⟩ | ⟨_, _, -, -, he⟩ <;> cases he <;> exact hcalm'
  · rcases hend with ⟨hrest, he⟩ | ⟨x, more, hrest, hstuck, he⟩
    · cases he
      exact .inl ⟨rfl, hrest⟩
    · cases he
      exact .inr ⟨_, x, more, rfl, hrest, hstuck⟩

theorem Setting.replaced_moves (h : Setting d base root staging install R stg ins)
    (hp : Plainly d root R ins) (hne : ins ≠ stg) (hst : Archive.Staged base (R ++ [stg]) e)
    (hcalm : e.faults = []) (hmov : ∀ x, e.get? (R ++ [stg] ++ [x]) ≠ none → Movable staging install x)
    {order : List String → List String} (horder : ∀ l, (order l).Perm l) {r : Except Error Unit}
    (hm : moveIntoPlace order staging install e = (r, after))
    (hdesc : r = .ok () → desc.executable = none) :
    ∃ moved rest, Replaced d e after desc staging install (R ++ [stg]) (R ++ [ins]) moved rest r := by
  rcases h.moveIntoPlace_calm hp hne hst hcalm hmov horder hm with
    ⟨err, rfl, rfl⟩ | ⟨u, m, moved, rest, hgrown, -, hmoved, -, hnodup, hall, hend⟩
  · exact ⟨[], after.children (R ++ [stg]), fun _ => mem_children_iff,
      hst.wellFormed.children_nodup _, fun q hq _ => .inl (h.kept_staged hne hst hq),
      .inr ⟨err, rfl, nofun, .inl rfl⟩⟩
  · have hplace : ∀ x ∈ moved, ∀ t,
        after.get? (R ++ [ins] ++ x :: t) = e.get? (R ++ [stg] ++ x :: t) := fun x hx t => by
      rw [hmoved.moved x hx t, staged_grown hgrown]
    have hkept := fun q => h.kept_moved hne hst hgrown hmoved (q := q)
    rcases hend with ⟨hok, hrest⟩ | ⟨err, x, more, hr, hrest, hdir, ⟨t, hlink⟩, hnowhere⟩
    · refine ⟨moved, rest, hall, hnodup, fun q hq hx => (hkept q hq hx).imp_right (⟨hok, ·⟩),
        .inl ⟨hok, hrest, fun x hx t => ?_⟩⟩
      rw [hplace x hx t, finished, hdesc hok]
      exact (congrFun Option.map_id _).symm
    · have hxm : x ∉ moved := fun hx => by
        rw [hrest, List.nodup_append] at hnodup
        exact hnodup.2.2 x hx x List.mem_cons_self rfl
      rw [hmoved.staged x hxm [], staged_grown hgrown] at hdir
      have hold := (hkept (R ++ [ins] ++ [x]) (isWithin_append _ _) fun y hy =>
        not_isWithin_other (fun he : y = x => hxm (he ▸ hy)) []).resolve_right fun hx => by simp at hx
      rw [hlink] at hold
      -- the link is in a directory, so the install path was there before
      have hthere : d.get? (R ++ [ins]) = some .dir :=
        h.wellFormed.above (r := [x]) (by simp) (by rw [← hold]; exact nofun)
      refine ⟨moved, rest, hall, hnodup, fun q hq hx => .inl ?_, .inr ⟨err, hr, hplace,
        .inr ⟨x, more, t, u, after, hrest, hdir, hold.symm, hgrown, hmoved, hnowhere⟩⟩⟩
      refine (hkept q hq hx).resolve_right fun ⟨_, hnone⟩ => ?_
      rw [hthere] at hnone
      cases hnone

theorem fileAt_of_isFile {p : Path} (h : e.isFile p = true) : ∃ f, e.fileAt p = .ok f := by
  unfold isFile node? at h
  unfold fileAt
  split at h
  · next f hf =>
    split at hf
    · next hfind =>
      cases hf
      exact ⟨f, by rw [hfind]⟩
    · cases hf
  · cases h

/-- The program is a new file, under the name of a staged entry. -/
theorem Setting.fileAt_staged (h : Setting d base root staging install R stg ins)
    (hst : Archive.Staged base (R ++ [stg]) e) {name : String} (hname : Path.Plain name) {f : FileData}
    (hf : e.fileAt (Path.join staging name) = .ok f) :
    d.nextId ≤ f.id ∧ e.get? (R ++ [stg] ++ [name]) ≠ none := by
  obtain ⟨hv, hsite, hnext, -⟩ := h.site
  unfold fileAt at hf
  split at hf
  · cases hf
  · cases hf
  · next place _ hfind =>
    cases hf
    have hwithin := hst.within_of_find hsite (List.cons_ne_nil name []) (by simpa using hname)
      (by simpa using hfind)
    rcases walk_through_cases (walk_of_find hfind) with ⟨hn, -⟩ | ⟨f', dir, s, hn, rfl, hf', he⟩
    · cases hn
    · cases hn
      refine ⟨?_, ?_⟩
      · rw [← hnext]
        refine hst.files _ f ⟨hwithin, fun hdir => ?_⟩ hf'
        change dir ++ [s] = R ++ [stg] at hdir
        rw [hdir, hst.outside _ fun hb => hb.2 rfl, hsite.dir] at hf'
        cases hf'
      · rw [Path.steps_join_plain staging hname] at he
        obtain ⟨k, mid, hl, j, hlast⟩ := he.split
        obtain ⟨_, hstaging⟩ := hst.leads hsite
        obtain ⟨-, rfl⟩ := hstaging.unique hl
        rcases hlast.cases_head with hend | ⟨_, hstep, -⟩
        · obtain ⟨-, rfl, hahead⟩ := Stand.mk.inj hend
          cases hahead
          rw [hf']
          exact nofun
        · cases hstep with
          | down _ _ hd =>
            rw [hd]
            exact nofun
          | link _ _ ht =>
            rw [ht]
            exact nofun
  · cases hf

theorem Setting.replaced_executable (h : Setting d base root staging install R stg ins)
    (hp : Plainly d root R ins) (hne : ins ≠ stg) (hst : Archive.Staged base (R ++ [stg]) e)
    (hcalm : e.faults = []) (hmov : ∀ x, e.get? (R ++ [stg] ++ [x]) ≠ none → Movable staging install x)
    {order : List String → List String} (horder : ∀ l, (order l).Perm l) {name : String}
    (hname : Path.Plain name) (hexe : desc.executable = some name)
    (hfile : e.isFile (Path.join staging name) = true)
    (hm : moveIntoPlace order staging install e = (.ok (), u)) {r : Except Error Unit}
    (hx : makeExecutable (Path.join install name) u = (r, after)) :
    ∃ moved rest, Replaced d e after desc staging install (R ++ [stg]) (R ++ [ins]) moved rest r := by
  obtain ⟨f, hf⟩ := fileAt_of_isFile hfile
  obtain ⟨hid, hstaged⟩ := h.fileAt_staged hst hname hf
  rcases h.moveIntoPlace_calm hp hne hst hcalm hmov horder hm with
    ⟨_, hr, -⟩ | ⟨v, m, moved, rest, hgrown, hdirect, hmoved, hquiet, hnodup, hall, hend⟩
  · cases hr
  rcases hend with ⟨-, hrest⟩ | ⟨_, _, _, hr, -⟩
  · subst hrest
    have hcopied := (hmoved.copied hdirect.wellFormed fun x hx => by
      rw [staged_grown hgrown] at hx
      simpa using (hall x).2 hx).part hgrown.part
    obtain ⟨k, hl⟩ := hst.leads h.site.2.1
    obtain ⟨rfl, -⟩ := hdirect.staging_leads.unique (hgrown.part.leadsTo hl)
    rw [hcopied.makeExecutable_calm hst.links hl (hmoved.steady.leadsTo hdirect.install_leads) hquiet
      hname (hmov name hstaged).target hf] at hx
    cases hx
    refine ⟨moved, [], hall, hnodup, fun q hq hx => ?_, .inl ⟨rfl, rfl, fun x hx t => ?_⟩⟩
    · rw [get?_updateFile]
      refine (h.kept_moved hne hst hgrown hmoved hq hx).imp (fun he => ?_) (⟨rfl, ·⟩)
      rw [he, h.wellFormed.map_updated hid]
    · rw [get?_updateFile, hmoved.moved x hx t, staged_grown hgrown, finished, hexe]
      simp only [hf]
  · cases hr

/-- What becomes of a release that was unpacked and holds its program. -/
theorem Setting.replaced (h : Setting d base root staging install R stg ins)
    (hp : Plainly d root R ins) (hne : ins ≠ stg) {goOn : Nat → Except Error Unit} {strip : Nat}
    {items : List Archive.Item} (hu : Archive.unpack goOn staging strip items base = (.ok (), e))
    (hcalm : e.faults = []) (hmov : ∀ x, e.get? (R ++ [stg] ++ [x]) ≠ none → Movable staging install x)
    (hname : ∀ name, desc.executable = some name → Path.Plain name)
    (hfile : ∀ name, desc.executable = some name → e.isFile (Path.join staging name) = true)
    {order : List String → List String} (horder : ∀ l, (order l).Perm l) {r : Except Error Unit}
    (hi : installStaged goOn order desc strip install staging items base = (r, after)) :
    ∃ moved rest, Replaced d e after desc staging install (R ++ [stg]) (R ++ [ins]) moved rest r := by
  have hsite := h.site.2.1
  have hst := (Archive.keeps_unpack hsite goOn strip items base hsite.staged _ _ hu).1
  rcases installStaged_cases hi with ⟨_, -, hu'⟩ | ⟨e', hu', hrest⟩
  · rw [hu] at hu'
    cases hu'
  rw [hu] at hu'
  cases hu'
  rcases hrest with ⟨hexe, hm⟩ | ⟨name, hexe, ⟨hno, -⟩ | ⟨-, ⟨err, rfl, hm⟩ | ⟨u, hm, hx⟩⟩⟩
  · exact h.replaced_moves hp hne hst hcalm hmov horder hm fun _ => hexe
  · rw [hfile name hexe] at hno
    cases hno
  · exact h.replaced_moves hp hne hst hcalm hmov horder hm nofun
  · exact h.replaced_executable hp hne hst hcalm hmov horder (hname name hexe) hexe (hfile name hexe) hm
      hx

end replaced

/-- The release was fetched and unpacked under `staging` without an error, and holds the program. -/
structure Unpacked (p : Provisioner) (env : ProvisionEnv) (desc : Descriptor) (d : Disk)
    (staging : Path) (e : Disk) : Prop where
  missing : p.isInstalled d desc = false
  fetched : ∃ artifact deadline items download q opened base,
    desc.artifact = some artifact ∧ env.now.add? env.timeout = some deadline ∧
    p.openDownload desc d = (.ok download, q, opened) ∧
    (env.fetch artifact.url deadline).result = .ok items ∧
    staging = opened.temporaryPath p.root ".staging-" "" ∧ makeDir staging opened = (.ok (), base) ∧
    Archive.unpack (fun n => (env.looks n).check deadline "extraction") staging artifact.strip items
      base = (.ok (), e)
  complete : ∀ name, desc.executable = some name → e.isFile (Path.join staging name) = true

section provision

variable {p : Provisioner} {env : ProvisionEnv} {desc : Descriptor} {d old old' e after after' : Disk}
  {staging install : Path} {P I : Place} {moved rest : List String} {r : Except Error Unit}

theorem Replaced.congr (h : Replaced old e after desc staging install P I moved rest r)
    (hold : ∀ q, isWithin I q = true → old.get? q = old'.get? q)
    (hafter : ∀ q, isWithin I q = true → after'.get? q = after.get? q) :
    Replaced old' e after' desc staging install P I moved rest r := by
  have hin : ∀ x t, isWithin I (I ++ x :: t) = true := fun x t => isWithin_append I _
  refine ⟨h.entries, h.nodup, fun q hq hx => ?_, ?_⟩
  · rw [hafter q hq, ← hold q hq, ← hold I (isWithin_self I)]
    exact h.kept q hq hx
  · refine h.outcome.imp (fun ⟨hr, hrest, hin'⟩ => ⟨hr, hrest, fun x hx t => ?_⟩)
      fun ⟨err, hr, hin', hend⟩ => ⟨err, hr, fun x hx t => ?_, hend.imp_right ?_⟩
    · rw [hafter _ (hin x t), hin' x hx t]
    · rw [hafter _ (hin x t), hin' x hx t]
    · rintro ⟨x, more, t, u, mid, hrest, hdir, hlink, hmid⟩
      rw [hold _ (isWithin_append I [x])] at hlink
      exact ⟨x, more, t, u, mid, hrest, hdir, hlink, hmid⟩

theorem install_of_makeDir {goOn : Nat → Except Error Unit} {order : List String → List String}
    {strip : Nat} {root : Path} {items : List Archive.Item} {base : Disk}
    (hmk : makeDir (d.temporaryPath root ".staging-" "") d = (.ok (), base))
    (hi : installStaged goOn order desc strip (desc.installPath root)
      (d.temporaryPath root ".staging-" "") items base = (r, after)) :
    Provision.install goOn order desc strip root items d =
      (r, after.without (d.temporaryPath root ".staging-" "")) := by
  simp only [Provision.install, bind_apply, TaskM.ask, doing_calm hmk, TaskM.removing, hi]

/-- The conditions one by one, each about a result that can be computed. -/
theorem unpacked_of_opened {opened base : Disk} {artifact : Artifact} {deadline : Clock}
    {items : List Archive.Item} {download : Path} (hmissing : p.isInstalled d desc = false)
    (hart : desc.artifact = some artifact) (hclock : env.now.add? env.timeout = some deadline)
    (hopen : (p.openDownload desc d).1 = .ok download)
    (hopened : (p.openDownload desc d).2.2 = opened)
    (hfetch : (env.fetch artifact.url deadline).result = .ok items)
    (hstaging : staging = opened.temporaryPath p.root ".staging-" "")
    (hmk : makeDir staging opened = (.ok (), base))
    (hu : Archive.unpack (fun n => (env.looks n).check deadline "extraction") staging artifact.strip
      items base = (.ok (), e))
    (hc : ∀ name, desc.executable = some name → e.isFile (Path.join staging name) = true) :
    Unpacked p env desc d staging e :=
  ⟨hmissing, ⟨artifact, deadline, items, download, _, opened, base, hart, hclock,
    Prod.ext hopen (Prod.ext rfl hopened), hfetch, hstaging, hmk, hu⟩, hc⟩

/-- Provisioning fetches a release, installs it and takes the download away. -/
theorem provision_of_install {artifact : Artifact} {deadline : Clock} {items : List Archive.Item}
    {download : Path} {q : Provisioner} {opened : Disk} (hmissing : p.isInstalled d desc = false)
    (hart : desc.artifact = some artifact) (hclock : env.now.add? env.timeout = some deadline)
    (hopen : p.openDownload desc d = (.ok download, q, opened)) (hroot : q.root = p.root)
    (hfetch : (env.fetch artifact.url deadline).result = .ok items)
    (hinstall : Provision.install (fun n => (env.looks n).check deadline "extraction") env.order desc
      artifact.strip p.root items opened = (r, after)) :
    (p.provision env desc d).1 = (p.conclude desc r).1 ∧
      (p.provision env desc d).2.2 = after.without download := by
  have hrun : ∃ q', p.fetchAndInstall env desc artifact deadline d = (r, q', after.without download) ∧
      q'.root = p.root := by
    refine ⟨{ q with fetches := q.fetches + 1 }.record desc.backend .extracting, ?_, hroot⟩
    simp only [Provisioner.fetchAndInstall, hopen, Provisioner.fetch, hfetch, Provisioner.install,
      Provisioner.record, hroot, hinstall]
  obtain ⟨q', hrun, hroot'⟩ := hrun
  refine ⟨?_, ?_⟩
  · simp only [Provisioner.provision, hart, hmissing, hclock, hrun, Provisioner.conclude,
      Provisioner.installPath, hroot']
    cases r <;> simp
  · simp only [Provisioner.provision, hart, hmissing, hclock, hrun]
    simp

/-- Provisioning ends with the installation of what was unpacked. -/
theorem provision_of_unpacked (hu : Unpacked p env desc d staging e) :
    ∃ artifact deadline items download q opened base r after,
      p.openDownload desc d = (.ok download, q, opened) ∧
      staging = opened.temporaryPath p.root ".staging-" "" ∧ makeDir staging opened = (.ok (), base) ∧
      Archive.unpack (fun n => (env.looks n).check deadline "extraction") staging
        (artifact : Artifact).strip items base = (.ok (), e) ∧
      installStaged (fun n => (env.looks n).check deadline "extraction") env.order desc artifact.strip
        (p.installPath desc) staging items base = (r, after) ∧
      (p.provision env desc d).1 = (p.conclude desc r).1 ∧
      (p.provision env desc d).2.2 = (after.without staging).without download := by
  obtain ⟨artifact, deadline, items, download, q, opened, base, hart, hclock, hopen, hfetch, rfl, hmk,
    hunpack⟩ := hu.fetched
  have hroot : q.root = p.root := by
    rcases openDownload_cases hopen with ⟨_, _, hr, -⟩ | ⟨_, _, _, _, _, -, -, hroot, -⟩
    · cases hr
    · exact hroot
  rcases hi : installStaged (fun n => (env.looks n).check deadline "extraction") env.order desc
    artifact.strip (p.installPath desc) (opened.temporaryPath p.root ".staging-" "") items base with
    ⟨r, after⟩
  obtain ⟨hresult, hfinal⟩ := provision_of_install hu.missing hart hclock hopen hroot hfetch
    (install_of_makeDir hmk hi)
  exact ⟨artifact, deadline, items, download, q, opened, base, r, after, hopen, rfl, hmk, hunpack, hi,
    hresult, hfinal⟩

theorem Plainly.alike {R : Place} {root : Path} {ins : String} (h : Plainly d root R ins)
    (ha : Alike d e) : Plainly e root R ins := by
  obtain ⟨k, hroot⟩ := h.root_leads
  exact ⟨⟨k, ha.leadsTo hroot⟩, fun t ht => h.no_link t ((ha.same _ (.link t) nofun).2 ht)⟩

/-- The entries of a release that was unpacked replace those that are installed, one after the other,
and only a staged directory that meets a link which leads nowhere can end this: then what was moved
before it is new, and the rest is as before. Where no directory meets a link, all are in place or
nothing has changed. -/
theorem provision_replaces {made : Disk} {R : Place} {stg : String} (hd : d.WellFormed)
    (hdesc : PlainNames desc) (hdot : desc.installDir.toList.head? ≠ some '.')
    (horder : ∀ l, (env.order l).Perm l) (hmade : makeDirs p.root d = (.ok (), made))
    (henc : Enclosed made p.root (p.installPath desc) R) (hp : Plainly made p.root R desc.installDir)
    (hu : Unpacked p env desc d staging e)
    (hstg : Path.steps staging = Path.steps p.root ++ [.name stg]) (hcalm : e.faults = [])
    (hmov : ∀ x, e.get? (R ++ [stg] ++ [x]) ≠ none → Movable staging (p.installPath desc) x) :
    ∃ r moved rest, (p.provision env desc d).1 = (p.conclude desc r).1 ∧
      Replaced made e (p.provision env desc d).2.2 desc staging (p.installPath desc) (R ++ [stg])
        (R ++ [desc.installDir]) moved rest r ∧
      ((∀ x t, e.get? (R ++ [stg] ++ [x]) = some .dir →
          made.get? (R ++ [desc.installDir] ++ [x]) ≠ some (.link t)) →
        r = .ok () ∧ rest = [] ∨ (∃ err, r = .error err) ∧ moved = []) := by
  obtain ⟨artifact, deadline, items, download, q, opened, base, r, after, hopen, rfl, hmk, hunpack, hi,
    hresult, hfinal⟩ := provision_of_unpacked hu
  have hwf : made.WellFormed := (grown_of_makeDirs hd hmade).wellFormed
  rcases openDownload_cases hopen with ⟨_, _, hr, -⟩ |
    ⟨made', s, _, fs, place, hmade', hr, hroot, hs, hsteps, hf, hopened⟩
  · cases hr
  cases hr
  rw [hmade] at hmade'
  cases hmade'
  obtain ⟨k, -, hlroot⟩ := henc.root_leads
  obtain ⟨howf, halike, hsame, -⟩ := near_download hwf hlroot hsteps hf fs 0o600
  rw [← hopened] at howf halike hsame
  obtain ⟨stg', hnamed, hstg'⟩ := steps_staging opened p.root
  obtain ⟨-, hname⟩ := List.append_inj' (hstg.symm.trans hstg') rfl
  cases hname
  have hsetting : Setting opened base p.root (opened.temporaryPath p.root ".staging-" "")
      (p.installPath desc) R stg desc.installDir :=
    ⟨howf, henc.alike halike, hnamed, hstg, Path.steps_join_plain p.root hdesc.installDir, hmk⟩
  have hne : desc.installDir ≠ stg := fun he => hdot (he ▸ hnamed.head?)
  obtain ⟨moved, rest, hreplaced⟩ := hsetting.replaced (hp.alike halike) hne hunpack hcalm hmov
    hdesc.executable hu.complete horder hi
  have hout : ∀ {x : String}, x.toList.head? = some '.' → ∀ t,
      isWithin (R ++ [x]) (R ++ [desc.installDir] ++ t) = false := fun {x} hx t => by
    rw [List.append_assoc]
    exact not_isWithin_other (fun he : x = desc.installDir => hdot (he ▸ hx)) t
  suffices hall : Replaced made e (p.provision env desc d).2.2 desc (opened.temporaryPath p.root
      ".staging-" "") (p.installPath desc) (R ++ [stg]) (R ++ [desc.installDir]) moved rest r from
    ⟨r, moved, rest, hresult, hall, hall.all_or_nothing⟩
  refine hreplaced.congr (fun q hq => hsame q ?_) fun q hq => ?_
  · obtain ⟨t, rfl⟩ := isWithin_iff.1 hq
    intro he
    have := hout hs t
    rw [he, isWithin_self] at this
    cases this
  · obtain ⟨t, rfl⟩ := isWithin_iff.1 hq
    have hafter := hsetting.near_installStaged horder hdesc.executable _ _ _ hi
    rw [hfinal, (hafter.without hstg).get?_without hsteps (hout hs t),
      hafter.get?_without hstg (hout hnamed.head? t)]

end provision

/-! A link over a link that leads nowhere -/

theorem eq_ok_of_toBool {ε α : Type} {r : Except ε Unit × α} (h : r.1.toBool = true) :
    r = (.ok (), r.2) := by
  rcases r with ⟨_ | ⟨⟨⟩⟩, a⟩
  · cases h
  · rfl

/-- A link that leads nowhere at the install path. -/
def worn : Disk where
  nodes := [(["r"], .dir), (["r", "xmrig"], .dir), (["r", "xmrig", "lib"], .link "missing")]

/-- Another link in its place, and a program. -/
def renewal : List Archive.Item := [packed "v/lib" .symlink ".", packed "v/xmrig" .file ""]

def opened : Disk := ((provisioner "/r").openDownload Backend.xmrig.descriptor worn).2.2

def emptied : Disk := (makeDir "/r/.staging-0" opened).2

def unpacked : Except Error Unit × Disk :=
  Archive.unpack (fun n => ((delivering renewal).looks n).check ⟨60, 0⟩ "extraction") "/r/.staging-0"
    1 renewal emptied

theorem unpacked_renewal : Unpacked (provisioner "/r") (delivering renewal)
    Backend.xmrig.descriptor worn "/r/.staging-0" unpacked.2 := by
  have hok : unpacked = (.ok (), unpacked.2) := eq_ok_of_toBool (by decide +kernel)
  have hmade : makeDir "/r/.staging-0" opened = (.ok (), emptied) :=
    eq_ok_of_toBool (by decide +kernel)
  obtain ⟨artifact, hart, hstrip⟩ :
      ∃ a, Backend.xmrig.descriptor.artifact = some a ∧ a.strip = 1 := ⟨_, rfl, rfl⟩
  have hopen : ((provisioner "/r").openDownload Backend.xmrig.descriptor worn).1 =
      .ok "/r/.download-0.tar.gz" := by
    decide +kernel
  have hclock : (delivering renewal).now.add? (delivering renewal).timeout = some ⟨60, 0⟩ := by
    decide
  refine unpacked_of_opened (by decide +kernel) hart hclock hopen opened.eq_1.symm rfl
    (by decide +kernel) hmade ?_ ?_
  · rw [hstrip]
    exact hok
  · intro name hname
    cases hname
    decide +kernel

theorem enclosed_worn : Enclosed worn "/r" "/r/xmrig" ["r"] where
  root_near := by decide
  install_near := fun I hI => by
    have hreach : worn.Reaches maxLinks "/r/xmrig" ["r", "xmrig"] := by decide
    rw [hreach.unique hI]
    decide
  confined := confined_of_linksStayIn (by decide)
  unaware := unaware_of_looksUnaware (by decide)
  links_unaware := fun q t ht => by
    have hq : q ≠ [] := by
      rintro rfl
      cases ht
    have hmem := mem_nodes_of_get? hq ht
    obtain ⟨-, rfl⟩ : q = ["r", "xmrig", "lib"] ∧ t = "missing" := by simpa [worn] using hmem
    exact unaware_of_looksUnaware (by decide)

theorem plainly_worn : Plainly worn "/r" ["r"] "xmrig" where
  root_leads := ⟨maxLinks, .head .root (.single (.down (by decide) rfl rfl))⟩
  no_link := nofun

theorem wellFormed_worn : worn.WellFormed :=
  wellFormed_of_nodes (by decide) rfl (by simp [worn]) (by decide)

theorem movable_renewal {x : String} (hx : unpacked.2.get? (["r", ".staging-0"] ++ [x]) ≠ none) :
    Movable "/r/.staging-0" "/r/xmrig" x := by
  have hall : unpacked.2.children ["r", ".staging-0"] = ["lib", "xmrig"] := by decide +kernel
  have hmem : x ∈ ["lib", "xmrig"] := hall ▸ mem_children_iff.2 hx
  have hpaths : ∀ x ∈ ["lib", "xmrig"], (Text.utf8 x).length ≤ maxName ∧
      ∀ p ∈ ["/r/.staging-0", "/r/xmrig"], Path.join p x ≠ "" ∧
        (Path.join p x).toList.contains (Char.ofNat 0) = false ∧
        (Text.utf8 (Path.join p x)).length < maxPath := by
    decide
  have usable : ∀ p ∈ ["/r/.staging-0", "/r/xmrig"], Usable (Path.join p x) := fun p hp =>
    have h := (hpaths x hmem).2 p hp
    ⟨h.1, h.2.1, h.2.2⟩
  exact ⟨usable "/r/.staging-0" (by simp), usable "/r/xmrig" (by simp), (hpaths x hmem).1⟩

def renewed : Except Halt Path × Provisioner × Disk :=
  (provisioner "/r").provision (delivering renewal) Backend.xmrig.descriptor worn

theorem provision_replaces_worn : renewed.1 = .ok "/r/xmrig" ∧ ∃ moved,
    Replaced worn unpacked.2 renewed.2.2 Backend.xmrig.descriptor "/r/.staging-0" "/r/xmrig"
      ["r", ".staging-0"] ["r", "xmrig"] moved [] (.ok ()) := by
  have hok : renewed.1 = .ok "/r/xmrig" := by decide +kernel
  refine ⟨hok, ?_⟩
  have hmade : makeDirs "/r" worn = (.ok (), worn) := eq_ok_of_toBool (by decide +kernel)
  have hstg : Path.steps "/r/.staging-0" = Path.steps (provisioner "/r").root ++
      [.name ".staging-0"] := by decide
  obtain ⟨r, moved, rest, hr, hreplaced, -⟩ := provision_replaces wellFormed_worn
    (plainNames_descriptor .xmrig) (by decide) (fun _ => .refl _) hmade enclosed_worn
    plainly_worn unpacked_renewal (R := ["r"]) hstg (by decide +kernel) fun x => movable_renewal
  rw [← renewed] at hr hreplaced
  rw [hok] at hr
  cases r with
  | error e => cases hr
  | ok _ =>
    rcases hreplaced.outcome with ⟨-, rfl, -⟩ | ⟨_, herr, -⟩
    · exact ⟨moved, hreplaced⟩
    · cases herr

/-! A directory over a link that leads nowhere -/

/-- A program and a link that leads nowhere. -/
def earlier : List Archive.Item := [packed "v/old" .file "", packed "v/lib" .symlink "missing"]

/-- Another program, and a directory in the place of the link. -/
def later : List Archive.Item := [packed "v/xmrig" .file "", packed "v/lib" .dir ""]

def installed : Except Halt Path × Provisioner × Disk :=
  (provisioner "/r").provision (delivering earlier)
    { Backend.xmrig.descriptor with executable := some "old" } {}

def replaced : Except Halt Path × Provisioner × Disk :=
  installed.2.1.provision (delivering later) Backend.xmrig.descriptor installed.2.2

def ensured : Except Halt ProvisionState × Provisioner × Disk :=
  replaced.2.1.ensure (delivering later) Backend.xmrig.descriptor replaced.2.2

/-- The new program stands beside the old link after a failure, and is taken for a whole release. -/
theorem not_always_all_or_nothing :
    installed.1 = .ok "/r/xmrig" ∧
      replaced.1 = .error (.error (.io "installing /r/xmrig/lib" .notDirectory)) ∧
      installed.2.2.get? ["r", "xmrig", "xmrig"] = none ∧
      replaced.2.2.get? ["r", "xmrig", "xmrig"] ≠ none ∧
      replaced.2.2.get? ["r", "xmrig", "lib"] = some (.link "missing") ∧
      ensured.1 = .ok .ready ∧ ensured.2.1.fetches = replaced.2.1.fetches := by
  decide +kernel

end RigWarden.Provision
