import RigWarden.Proofs.Archive.Staging
import RigWarden.Proofs.Disk.Growth
import RigWarden.Provision.Install

/-!
# Moving entries into place

An entry is moved in two steps: what its target leads to is taken away, and the entry is renamed.
After some entries were moved each of them stands in place as it was staged, and everything that
lies apart from them is as it was.
-/

namespace RigWarden.Provision

open Disk

/-- Takes away what stands at a target, if that leads anywhere. -/
def clear (target : Path) : TaskM Unit := do
  if ← TaskM.ask (Disk.isDir · target) then
    TaskM.doing ("removing " ++ target) (Disk.removeDirs target)
  else if ← TaskM.ask (Disk.exists? · target) then
    TaskM.doing ("removing " ++ target) (Disk.removeFile target)

theorem moveEntry_eq (staging install : Path) (name : String) :
    moveEntry staging install name = (do
      clear (Path.join install name)
      TaskM.doing ("installing " ++ Path.join install name)
        (Disk.rename (Path.join staging name) (Path.join install name))) := by
  funext d
  simp only [moveEntry, clear, bind_apply, TaskM.ask]
  by_cases hdir : d.isDir (Path.join install name) = true
  · simp only [hdir, if_true, bind_apply]
  · by_cases hex : d.exists? (Path.join install name) = true
    · simp only [hdir, hex, if_true, if_false, Bool.false_eq_true, bind_apply, TaskM.ask]
    · simp only [hdir, hex, if_false, Bool.false_eq_true, bind_apply, TaskM.ask]
      rfl

section cases

variable {d after : Disk} {p target source : Path}

theorem removeDirs_ok (h : removeDirs p d = (.ok (), after)) :
    ∃ fs place n, d.find .entry p = .ok (.node place n) ∧
      after = { d.erase place with faults := fs } := by
  have hop := attempt_ok h
  rw [find_withFaults] at hop
  rcases hf : d.find .entry p with _ | ⟨place, n⟩ | place <;>
    simp only [hf, Bind.bind, Except.bind] at hop
  · cases hop
  · cases n <;> cases hop <;> exact ⟨d.faults.drop 1, place, _, rfl, rfl⟩
  · cases hop

theorem removeFile_ok (h : removeFile p d = (.ok (), after)) :
    ∃ fs place n, d.find .entry p = .ok (.node place n) ∧
      after = { d.erase place with faults := fs } := by
  have hop := attempt_ok h
  rw [find_withFaults] at hop
  rcases hf : d.find .entry p with _ | ⟨place, n⟩ | place <;>
    simp only [hf, Bind.bind, Except.bind] at hop
  · cases hop
  · cases n <;> cases hop <;> exact ⟨d.faults.drop 1, place, _, rfl, rfl⟩
  · cases hop

/-- Clearing a target fails without effect, leaves alone what leads nowhere, or takes away what
stands there. -/
theorem clear_cases {r : Except Error Unit} (h : clear target d = (r, after)) :
    (∃ e fs, r = .error e ∧ after = { d with faults := fs }) ∨
    (r = .ok () ∧ after = d ∧ d.isDir target = false ∧ d.exists? target = false) ∨
    ∃ fs place n, r = .ok () ∧ d.find .entry target = .ok (.node place n) ∧
      after = { d.erase place with faults := fs } := by
  simp only [clear, bind_apply, TaskM.ask] at h
  split at h
  · rcases r with e | ⟨⟩
    · obtain ⟨_, hop⟩ := doing_error h
      obtain ⟨fs, rfl⟩ := attempt_error hop
      exact .inl ⟨e, fs, rfl, rfl⟩
    · obtain ⟨fs, place, n, hf, rfl⟩ := removeDirs_ok (doing_ok h)
      exact .inr (.inr ⟨fs, place, n, rfl, hf, rfl⟩)
  · next hdir =>
    rw [bind_apply] at h
    simp only [TaskM.ask] at h
    split at h
    · rcases r with e | ⟨⟩
      · obtain ⟨_, hop⟩ := doing_error h
        obtain ⟨fs, rfl⟩ := attempt_error hop
        exact .inl ⟨e, fs, rfl, rfl⟩
      · obtain ⟨fs, place, n, hf, rfl⟩ := removeFile_ok (doing_ok h)
        exact .inr (.inr ⟨fs, place, n, rfl, hf, rfl⟩)
    · next hex =>
      cases h
      exact .inr (.inl ⟨rfl, rfl, by simpa using hdir, by simpa using hex⟩)

/-- What a rename that succeeds has found, and what it leaves. -/
theorem rename_ok (h : rename source target d = (.ok (), after)) :
    ∃ fs from_ n, d.find .entry source = .ok (.node from_ n) ∧
      ((∃ to_, d.find .entry target = .ok (.vacant to_) ∧
          after = { d.move from_ to_ with faults := fs }) ∨
        ∃ to_ old, d.find .entry target = .ok (.node to_ old) ∧
          (from_ = to_ ∨ after = { (d.erase to_).move from_ to_ with faults := fs })) := by
  have hop := attempt_ok h
  rw [find_withFaults] at hop
  rcases hs : d.find .entry source with _ | ⟨from_, n⟩ | place <;>
    simp only [hs, Bind.bind, Except.bind] at hop
  · cases hop
  · rcases ht : d.find .entry target with _ | ⟨to_, old⟩ | to_ <;>
      simp only [find_withFaults, ht] at hop
    · cases hop
    · refine ⟨d.faults.drop 1, from_, n, rfl, .inr ⟨to_, old, rfl, ?_⟩⟩
      split at hop
      · exact .inl ‹_›
      · split at hop
        · cases hop
        · split at hop
          · cases hop
          · split at hop
            · cases hop
            · split at hop
              · cases hop
              · cases hop
                exact .inr rfl
    · split at hop
      · cases hop
      · cases hop
        exact ⟨d.faults.drop 1, from_, n, rfl, .inl ⟨to_, rfl, rfl⟩⟩
  · cases hop

end cases

/-- Neither staged nor in the place of an entry that was moved. -/
def Spared (P I : Place) (ms : List String) (p : Place) : Prop :=
  isWithin P p = false ∧ ∀ x ∈ ms, isWithin (I ++ [x]) p = false

/-- The disk `e` is what `u` becomes when the entries `ms` have been moved from `P` to `I`. -/
structure Moved (u : Disk) (P I : Place) (ms : List String) (e : Disk) : Prop where
  start : e.workingDir = u.workingDir
  moved : ∀ x ∈ ms, ∀ r, e.get? (I ++ x :: r) = u.get? (P ++ x :: r)
  staged : ∀ x, x ∉ ms → ∀ r, e.get? (P ++ x :: r) = u.get? (P ++ x :: r)
  kept : ∀ q, ¬ Below P q → (∀ x ∈ ms, isWithin (I ++ [x]) q = false) → e.get? q = u.get? q
  apart : ∀ x ∈ ms, ∀ q, isWithin (I ++ [x]) q = true → isWithin P q = false

/-- Where staging and installing happen: the root leads to `R`, and the install path to `I` with `m`
links left, without a look at the staging directory. -/
structure Scene (u : Disk) (root staging install : Path) (R I : Place) (stg : String) (m : Nat) :
    Prop where
  wellFormed : u.WellFormed
  away : isWithin (R ++ [stg]) u.workingDir = false
  dir : u.get? (R ++ [stg]) = some .dir
  staging_steps : Path.steps staging = Path.steps root ++ [.name stg]
  install_steps : ∃ ins, Path.steps install = Path.steps root ++ [.name ins]
  root_leads : ∃ k, u.LeadsTo (fun p => isWithin (R ++ [stg]) p = false) root k R
  leads : u.LeadsTo (fun p => isWithin (R ++ [stg]) p = false) install m I
  /-- A link that stands at the install path can be followed, or the way to that path looks at nothing
  that stands there. -/
  spare : 20 ≤ m ∨ u.LeadsTo (fun p => isWithin (R ++ [stg]) p = false ∧ ¬ Below I p) install m I

/-- Some entries were moved, and the install path still leads where it led. -/
structure Moving (u : Disk) (install : Path) (P I : Place) (m : Nat) (ms : List String)
    (e : Disk) : Prop extends Moved u P I ms e where
  leads : u.LeadsTo (Spared P I ms) install m I

section moving

variable {u e : Disk} {root staging install : Path} {R P I : Place} {stg : String} {m : Nat}
  {ms : List String} {x : String}

theorem Moved.get?_of_spared (h : Moved u P I ms e) {p : Place} (hp : Spared P I ms p) :
    e.get? p = u.get? p :=
  h.kept p (fun hb => Bool.eq_false_iff.1 hp.1 hb.1) hp.2

theorem Moved.spared_leads (h : Moved u P I ms e) {n k : Nat} {here there : Place}
    {cs : List Path.Component} (hl : u.Leads (Spared P I ms) n here cs k there) :
    e.Leads (Spared P I ms) n here cs k there :=
  hl.mono fun _ _ hp hn _ => ⟨hp, (h.get?_of_spared hp).trans hn⟩

theorem Scene.not_within (h : Scene u root staging install R I stg m) :
    isWithin (R ++ [stg]) I = false :=
  h.leads.stays_out (by simp) (fun _ hp => hp) h.away

theorem Scene.moving (h : Scene u root staging install R I stg m) :
    Moving u install (R ++ [stg]) I m [] u :=
  ⟨⟨rfl, nofun, fun _ _ _ => rfl, fun _ _ _ => rfl, nofun⟩,
    h.leads.mono fun _ _ hp hn _ => ⟨⟨hp, nofun⟩, hn⟩⟩

/-- The way to the install path goes over the root. -/
theorem Moving.root_leads (h : Moving u install (R ++ [stg]) I m ms e)
    (hs : Scene u root staging install R I stg m) :
    ∃ k, u.LeadsTo (Spared (R ++ [stg]) I ms) root k R := by
  obtain ⟨ins, hins⟩ := hs.install_steps
  have hl := h.leads
  rw [LeadsTo, hins] at hl
  obtain ⟨k, mid, hroot, -⟩ := hl.split
  obtain ⟨k', hroot'⟩ := hs.root_leads
  obtain ⟨-, rfl⟩ := hroot'.unique hroot
  exact ⟨k, hroot⟩

/-- Where the target of an entry is found, on the disk or on a part of it. -/
theorem Moving.find_target (h : Moving u install P I m ms e) {e₁ : Disk} (hpart : Part e₁ e)
    (hx : Path.Plain x) {found : Found}
    (hf : e₁.find .entry (Path.join install x) = .ok found) :
    e₁.LeadsTo Anywhere install m I ∧ (Text.utf8 x).length ≤ maxName ∧
      found = match e₁.get? (I ++ [x]) with
        | none => .vacant (I ++ [x])
        | some nd => .node (I ++ [x]) nd := by
  obtain ⟨k, J, hl, hlen, he⟩ := find_entry_cases (Path.steps_join_plain install hx) hf
  have hwide := hpart.leads hl
  rw [hpart.start, h.start] at hwide
  obtain ⟨rfl, rfl⟩ := (h.toMoved.spared_leads h.leads).unique hwide
  exact ⟨hl, hlen, he⟩

theorem Moving.find_source (h : Moving u install (R ++ [stg]) I m ms e)
    (hs : Scene u root staging install R I stg m) {e₁ : Disk} (hpart : Part e₁ e)
    (hdir : e.get? (R ++ [stg]) = some .dir) (hx : Path.Plain x) {from_ : Place} {n : Node}
    (hf : e₁.find .entry (Path.join staging x) = .ok (.node from_ n)) :
    from_ = R ++ [stg] ++ [x] ∧ e₁.get? from_ = some n := by
  obtain ⟨k, D, hl, -, he⟩ := find_entry_cases (Path.steps_join_plain staging hx) hf
  have hD : D = R ++ [stg] := by
    have hwide := hpart.leads hl
    rw [hpart.start, h.start, hs.staging_steps] at hwide
    obtain ⟨_, _, hroot, hlast⟩ := hwide.split
    obtain ⟨_, hroot'⟩ := h.root_leads hs
    obtain ⟨rfl, rfl⟩ := (h.toMoved.spared_leads hroot').unique hroot
    rcases hlast.name_cases with ⟨-, -, -, rfl⟩ | ⟨_, _, ht, -⟩
    · rfl
    · rw [hdir] at ht
      cases ht
  subst hD
  split at he
  · cases he
  · next nd hn =>
    cases he
    exact ⟨rfl, hn⟩

theorem not_isWithin_other {y : String} (h : y ≠ x) (r : Place) :
    isWithin (I ++ [y]) (I ++ x :: r) = false := by
  rw [Bool.eq_false_iff, ne_eq, isWithin_iff]
  rintro ⟨r', he⟩
  rw [List.append_assoc, List.append_right_inj, List.singleton_append, List.cons.injEq] at he
  exact h he.1.symm

/-- A place in the install directory that is not around the staging directory is apart from it. -/
theorem apart_of (hI : isWithin P I = false) (hP : isWithin (I ++ [x]) P = false) :
    ∀ q, isWithin (I ++ [x]) q = true → isWithin P q = false := by
  intro q hq
  refine Bool.eq_false_iff.2 fun hPq => ?_
  rcases isWithin_total hPq hq with h | h
  · rcases isWithin_snoc.1 h with h | h
    · rw [hI] at h
      cases h
    · rw [h, isWithin_self] at hP
      cases hP
  · rw [hP] at h
    cases h

theorem Moved.dir (h : Moved u P I ms e) (hdir : u.get? P = some .dir) : e.get? P = some .dir := by
  rw [h.kept P (fun hb => hb.2 rfl) fun y hy => ?_, hdir]
  refine Bool.eq_false_iff.2 fun hw => ?_
  have := h.apart y hy P hw
  rw [isWithin_self] at this
  cases this

/-- What happens when an entry takes a place where nothing stands any more. -/
theorem Moved.move (h : Moved u P I ms e) (hx : x ∉ ms)
    (hapart : ∀ q, isWithin (I ++ [x]) q = true → isWithin P q = false) {f : Disk}
    (hstart : f.workingDir = e.workingDir) (hfree : ∀ r, f.get? (I ++ [x] ++ r) = none)
    (hsame : ∀ q, isWithin (I ++ [x]) q = false → f.get? q = e.get? q)
    (fs : List (Option SystemError)) :
    Moved u P I (ms ++ [x]) { f.move (P ++ [x]) (I ++ [x]) with faults := fs } := by
  have hget : ∀ q, ({ f.move (P ++ [x]) (I ++ [x]) with faults := fs } : Disk).get? q =
      if isWithin (I ++ [x]) q = true then f.get? (P ++ [x] ++ q.drop (I ++ [x]).length)
      else if isWithin (P ++ [x]) q = true then none
      else f.get? q := get?_move (by simp) (by simp) hfree
  have hstaging : ∀ r, isWithin (I ++ [x]) (P ++ r) = false := fun r =>
    Bool.eq_false_iff.2 fun hw => by
      have := hapart _ hw
      rw [isWithin_append] at this
      cases this
  refine ⟨hstart.trans h.start, fun y hy r => ?_, fun y hy r => ?_, fun q hb hq => ?_,
    fun y hy => ?_⟩
  · rw [List.mem_append, List.mem_singleton] at hy
    by_cases hyx : y = x
    · subst hyx
      rw [hget, if_pos (isWithin_iff.2 ⟨r, by simp⟩), show I ++ y :: r = I ++ [y] ++ r by simp,
        List.drop_left, hsame _ (by rw [List.append_assoc]; exact hstaging _), List.append_assoc,
        List.singleton_append]
      exact h.staged y hx r
    · have hmem := hy.resolve_right hyx
      have hnot : isWithin (P ++ [x]) (I ++ y :: r) = false := Bool.eq_false_iff.2 fun hw => by
        have hap := h.apart y hmem (I ++ y :: r) (isWithin_iff.2 ⟨r, by simp⟩)
        rw [isWithin_trans (isWithin_append P [x]) hw] at hap
        cases hap
      rw [hget, if_neg (Bool.eq_false_iff.1 (not_isWithin_other (Ne.symm hyx) r)),
        if_neg (Bool.eq_false_iff.1 hnot), hsame _ (not_isWithin_other (Ne.symm hyx) r)]
      exact h.moved y hmem r
  · rw [List.mem_append, List.mem_singleton, not_or] at hy
    have hnot : isWithin (P ++ [x]) (P ++ y :: r) = false := not_isWithin_other (Ne.symm hy.2) r
    rw [hget, if_neg (Bool.eq_false_iff.1 (hstaging _)), if_neg (Bool.eq_false_iff.1 hnot),
      hsame _ (hstaging _)]
    exact h.staged y hy.1 r
  · have hqx := hq x (by simp)
    have hnot : ¬ isWithin (P ++ [x]) q = true := fun hw =>
      hb ((Below.snoc (isWithin_self P) x).trans hw)
    rw [hget, if_neg (Bool.eq_false_iff.1 hqx), if_neg hnot, hsame q hqx]
    exact h.kept q hb fun y hy => hq y (List.mem_append_left _ hy)
  · rw [List.mem_append, List.mem_singleton] at hy
    rcases hy with hy | rfl
    · exact h.apart y hy
    · exact hapart

/-- What stands at a target was not touched before. -/
theorem Moved.target_eq (h : Moved u P I ms e) (hI : isWithin P I = false) (hx : x ∉ ms) :
    e.get? (I ++ [x]) = u.get? (I ++ [x]) := by
  refine h.kept _ (fun hb => ?_) fun y hy =>
    not_isWithin_other (fun he : y = x => hx (he ▸ hy)) []
  rcases isWithin_snoc.1 hb.1 with hw | he
  · rw [hI] at hw
    cases hw
  · exact hb.2 he.symm

theorem Moving.isDir_of_leads (h : Moving u install P I m ms e) (hx : Path.Plain x)
    (hu : Usable (Path.join install x)) {k : Nat} {there : Place}
    (hl : e.Leads Anywhere m I [.name x] k there) : e.isDir (Path.join install x) = true := by
  refine isDir_iff.2 ⟨hu, k, there, ?_⟩
  rw [LeadsTo, Path.steps_join_plain install hx, h.start]
  exact (h.toMoved.spared_leads h.leads).anywhere.trans hl

/-- If a target leads to no directory, the way to the install path does not lead over it: a link
there would lead to a directory, and has links enough left for that. -/
theorem Moving.avoids (h : Moving u install (R ++ [stg]) I m ms e)
    (hs : Scene u root staging install R I stg m) (hx : Path.Plain x) (hxm : x ∉ ms)
    (hu : Usable (Path.join install x)) (hlen : (Text.utf8 x).length ≤ maxName)
    (hdir : e.isDir (Path.join install x) = false) :
    u.get? (I ++ [x]) ≠ some .dir ∧
      u.LeadsTo (fun p => Spared (R ++ [stg]) I ms p ∧ isWithin (I ++ [x]) p = false) install m I := by
  have hI := hs.not_within
  have heq := h.toMoved.target_eq hI hxm
  have hne : u.get? (I ++ [x]) ≠ some .dir := fun hd => by
    rw [h.isDir_of_leads hx hu (.single (.down hlen trivial (heq.trans hd)))] at hdir
    cases hdir
  refine ⟨hne, ?_⟩
  rcases hs.spare with hfew | hdirect
  swap
  · refine (h.leads.inter hdirect).mono fun p n hp hn _ => ⟨⟨hp.1, ?_⟩, hn⟩
    exact Bool.eq_false_iff.2 fun hw => hp.2.2 ((Below.snoc (isWithin_self I) x).trans hw)
  refine (h.leads.avoids_or (q := I ++ [x]) (fun p _ hp => ?_) hne).resolve_right ?_
  · by_cases hw : isWithin (I ++ [x]) p = true
    · obtain ⟨r, rfl⟩ := isWithin_iff.1 hw
      by_cases hr : r = []
      · exact .inr (by rw [hr, List.append_nil])
      · exact absurd (hs.wellFormed.above hr hp) hne
    · exact .inl (Bool.eq_false_iff.2 hw)
  · rintro ⟨t, j, k, mid, ht, hl, hj, hk⟩
    rw [List.dropLast_concat] at hl
    have hj' : j < 40 := hj
    have hlink : e.Leads Anywhere m I [.name x] (m - 1 - (j - k)) mid := by
      have hrest := (h.toMoved.spared_leads (hl.shift (j := m - 1) (by omega))).anywhere
      have hstep := @Stand.Step.link _ Anywhere (m - 1) _ _ [] _ hlen trivial (heq.trans ht)
      rw [List.append_nil, Nat.sub_add_cancel (by omega : 1 ≤ m)] at hstep
      exact .head hstep hrest
    rw [h.isDir_of_leads hx hu hlink] at hdir
    cases hdir

/-- How a disk `e` is left for an entry to take its place. -/
structure Cleared (u e e₁ : Disk) (install : Path) (P I : Place) (m : Nat) (ms : List String)
    (x : String) : Prop where
  part : Part e₁ e
  same : ∀ q, isWithin (I ++ [x]) q = false → e₁.get? q = e.get? q
  apart : e₁.get? (P ++ [x]) ≠ none → isWithin (I ++ [x]) P = false
  free : e₁.get? (P ++ [x]) ≠ none → e₁.get? (I ++ [x]) = none → ∀ r, e₁.get? (I ++ [x] ++ r) = none
  leads : e₁.LeadsTo Anywhere install m I → u.LeadsTo (Spared P I (ms ++ [x])) install m I

theorem Spared.snoc {p : Place} (h : Spared P I ms p) (hx : isWithin (I ++ [x]) p = false) :
    Spared P I (ms ++ [x]) p := by
  refine ⟨h.1, fun y hy => ?_⟩
  rw [List.mem_append, List.mem_singleton] at hy
  rcases hy with hy | rfl
  · exact h.2 y hy
  · exact hx

theorem Moving.cleared_of_erase (h : Moving u install P I m ms e) (fs : List (Option SystemError)) :
    Cleared u e { e.erase (I ++ [x]) with faults := fs } install P I m ms x := by
  have hget : ∀ q, ({ e.erase (I ++ [x]) with faults := fs } : Disk).get? q =
      if q ≠ [] ∧ isWithin (I ++ [x]) q = true then none else e.get? q := get?_erase e (I ++ [x])
  have hnone : ∀ r, ({ e.erase (I ++ [x]) with faults := fs } : Disk).get? (I ++ [x] ++ r) = none :=
    fun r => by rw [hget, if_pos ⟨by simp, isWithin_append _ r⟩]
  refine ⟨part_erase e _ fs, fun q hq => ?_, fun hsrc => ?_, fun _ _ => hnone, fun hl => ?_⟩
  · rw [hget, if_neg fun hw => Bool.eq_false_iff.1 hq hw.2]
  · refine Bool.eq_false_iff.2 fun hw => hsrc ?_
    obtain ⟨r, hr⟩ := isWithin_iff.1 hw
    rw [hr, List.append_assoc]
    exact hnone (r ++ [x])
  · have hcut : u.Leads (fun p => Spared P I ms p ∧ isWithin (I ++ [x]) p = false) maxLinks
        u.workingDir (Path.steps install) m I := by
      have hwide := (part_erase e (I ++ [x]) fs).leads hl
      have hin : e.Leads (fun p => isWithin (I ++ [x]) p = false) maxLinks e.workingDir
          (Path.steps install) m I := hl.mono fun p n _ hn _ => by
        rw [hget] at hn
        split at hn
        · cases hn
        · next hw =>
          refine ⟨Bool.eq_false_iff.2 fun hp => hw ⟨fun he => ?_, hp⟩, hn⟩
          rw [he] at hp
          exact absurd (eq_of_isWithin hp (Nat.zero_le _)).symm (by simp)
      rw [h.start] at hin
      exact ((h.toMoved.spared_leads h.leads).inter hin).mono fun p n hp hn _ =>
        ⟨hp, (h.toMoved.get?_of_spared hp.1).symm.trans hn⟩
    exact hcut.mono fun _ _ hp hn _ => ⟨hp.1.snoc hp.2, hn⟩

theorem Moving.cleared_of_not_dir (h : Moving u install (R ++ [stg]) I m ms e)
    (hs : Scene u root staging install R I stg m) (hx : Path.Plain x) (hxm : x ∉ ms)
    (hu : Usable (Path.join install x)) (hlen : (Text.utf8 x).length ≤ maxName)
    (hdir : e.isDir (Path.join install x) = false) :
    Cleared u e e install (R ++ [stg]) I m ms x := by
  have hI := hs.not_within
  obtain ⟨hne, hl⟩ := h.avoids hs hx hxm hu hlen hdir
  have hP : isWithin (I ++ [x]) (R ++ [stg]) = false := Bool.eq_false_iff.2 fun hw => by
    obtain ⟨r, hr⟩ := isWithin_iff.1 hw
    have hd := hs.dir
    rw [hr] at hd
    by_cases hnil : r = []
    · rw [hnil, List.append_nil] at hd
      exact hne hd
    · exact hne (hs.wellFormed.above hnil (by rw [hd]; exact nofun))
  refine ⟨⟨rfl, fun _ _ hn => hn⟩, fun _ _ => rfl, fun _ => hP, fun _ hv r => ?_, fun _ => ?_⟩
  · rw [h.toMoved.target_eq hI hxm] at hv
    rw [h.kept _ (fun hb => ?_) fun y hy => ?_]
    · exact hs.wellFormed.of_vacant hv r
    · exact Bool.eq_false_iff.1 (apart_of hI hP _ (isWithin_append _ r)) hb.1
    · rw [List.append_assoc]
      exact not_isWithin_other (fun he : y = x => hxm (he ▸ hy)) r
  · exact hl.mono fun _ _ hp hn _ => ⟨hp.1.snoc hp.2, hn⟩

/-- An entry that is moved takes a place that was cleared for it. -/
theorem Moving.moveEntry_ok (h : Moving u install (R ++ [stg]) I m ms e)
    (hs : Scene u root staging install R I stg m) (hx : Path.Plain x) (hxm : x ∉ ms)
    {after : Disk} (hmove : moveEntry staging install x e = (.ok (), after)) :
    ∃ (f : Disk) (fs : List (Option SystemError)), f.workingDir = e.workingDir ∧
      (∀ r, f.get? (I ++ [x] ++ r) = none) ∧
      (∀ q, isWithin (I ++ [x]) q = false → f.get? q = e.get? q) ∧
      (∀ q, isWithin (I ++ [x]) q = true → isWithin (R ++ [stg]) q = false) ∧
      u.LeadsTo (Spared (R ++ [stg]) I (ms ++ [x])) install m I ∧
      (e.WellFormed → isWithin (I ++ [x]) e.workingDir = false → f.WellFormed) ∧
      after = { f.move (R ++ [stg] ++ [x]) (I ++ [x]) with faults := fs } := by
  have hI := hs.not_within
  have hdir := h.toMoved.dir hs.dir
  have hrefl : Part e e := ⟨rfl, fun _ _ hn => hn⟩
  rw [moveEntry_eq, bind_apply] at hmove
  rcases hc : clear (Path.join install x) e with ⟨_ | ⟨⟩, e₁⟩ <;> rw [hc] at hmove
  · cases hmove
  obtain ⟨fs, from_, n, hsrc, htgt⟩ := rename_ok (doing_ok hmove)
  obtain ⟨found, hfound⟩ : ∃ found, e₁.find .entry (Path.join install x) = .ok found :=
    htgt.elim (fun ⟨_, hf, _⟩ => ⟨_, hf⟩) fun ⟨_, _, hf, _⟩ => ⟨_, hf⟩
  obtain ⟨hcleared, hwf⟩ : Cleared u e e₁ install (R ++ [stg]) I m ms x ∧
      (e.WellFormed → isWithin (I ++ [x]) e.workingDir = false → e₁.WellFormed) := by
    rcases clear_cases hc with ⟨_, _, he, -⟩ | ⟨-, rfl, hnot, -⟩ | ⟨fs, place, _, -, hf, rfl⟩
    · cases he
    · exact ⟨h.cleared_of_not_dir hs hx hxm (usable_of_find hfound)
        (h.find_target hrefl hx hfound).2.1 hnot, fun he _ => he⟩
    · obtain ⟨-, -, he⟩ := h.find_target hrefl hx hf
      split at he
      · cases he
      · cases he
        exact ⟨h.cleared_of_erase fs, fun he haway => (he.erase haway).withFaults fs⟩
  obtain ⟨rfl, hn⟩ := h.find_source hs hcleared.part hdir hx hsrc
  have hsome : e₁.get? (R ++ [stg] ++ [x]) ≠ none := by rw [hn]; exact nofun
  have hapart := apart_of hI (hcleared.apart hsome)
  have hleads := hcleared.leads (h.find_target hcleared.part hx hfound).1
  rcases htgt with ⟨to_, hf, rfl⟩ | ⟨to_, old, hf, hto⟩
  · obtain ⟨-, -, he⟩ := h.find_target hcleared.part hx hf
    split at he
    · next hv =>
      cases he
      exact ⟨e₁, fs, hcleared.part.start, hcleared.free hsome hv, hcleared.same, hapart, hleads, hwf, rfl⟩
    · cases he
  · obtain ⟨-, -, he⟩ := h.find_target hcleared.part hx hf
    split at he
    · cases he
    · cases he
      rcases hto with heq | rfl
      · have := hapart (I ++ [x]) (isWithin_self _)
        rw [← heq, isWithin_append] at this
        cases this
      · refine ⟨e₁.erase (I ++ [x]), fs, hcleared.part.start, fun r => ?_, fun q hq => ?_, hapart,
          hleads, fun he haway => (hwf he haway).erase ?_, rfl⟩
        · rw [get?_erase, if_pos ⟨by simp, isWithin_append _ r⟩]
        · rw [get?_erase, if_neg fun hw => Bool.eq_false_iff.1 hq hw.2, hcleared.same q hq]
        · rw [hcleared.part.start]
          exact haway

/-- An entry that is moved stands in place, and the install path still leads where it led. -/
theorem Moving.step (h : Moving u install (R ++ [stg]) I m ms e)
    (hs : Scene u root staging install R I stg m) (hx : Path.Plain x) (hxm : x ∉ ms)
    {after : Disk} (hmove : moveEntry staging install x e = (.ok (), after)) :
    Moving u install (R ++ [stg]) I m (ms ++ [x]) after := by
  obtain ⟨f, fs, hstart, hfree, hsame, hapart, hleads, -, rfl⟩ := h.moveEntry_ok hs hx hxm hmove
  exact ⟨h.toMoved.move hxm hapart hstart hfree hsame fs, hleads⟩

theorem Moving.wellFormed_step (h : Moving u install (R ++ [stg]) I m ms e)
    (hs : Scene u root staging install R I stg m) (he : e.WellFormed)
    (haway : isWithin (I ++ [x]) u.workingDir = false) (hx : Path.Plain x) (hxm : x ∉ ms)
    {after : Disk} (hmove : moveEntry staging install x e = (.ok (), after)) : after.WellFormed := by
  obtain ⟨f, fs, hstart, hfree, hsame, hapart, -, hwf, rfl⟩ := h.moveEntry_ok hs hx hxm hmove
  have hf := hwf he (by rw [h.start, haway])
  have hI : f.get? I = some .dir := by
    rw [hsame I (Bool.eq_false_iff.2 fun hw => ?_)]
    · refine (h.toMoved.spared_leads h.leads).dir he ?_
      rw [← h.start]
      exact he.start
    · have hlen := isWithin_length hw
      rw [List.length_append, List.length_singleton] at hlen
      omega
  refine (hf.move (by simp) ?_ (by rwa [List.dropLast_concat]) ?_ ?_).withFaults fs
  · simpa using hfree []
  · exact not_isWithin_of_isWithin (isWithin_append _ [x]) (hapart _ (isWithin_self _))
  · rw [hstart, h.start]
    exact not_isWithin_of_isWithin (isWithin_append _ [x]) hs.away

/-- A move that fails has at most taken away what stood at its target. -/
theorem Moving.step_error (h : Moving u install P I m ms e) (hx : Path.Plain x) {after : Disk}
    {err : Error} (hmove : moveEntry staging install x e = (.error err, after)) :
    ∃ fs, after = { e with faults := fs } ∨ after = { e.erase (I ++ [x]) with faults := fs } := by
  rw [moveEntry_eq, bind_apply] at hmove
  rcases hc : clear (Path.join install x) e with ⟨_ | ⟨⟩, e₁⟩ <;> rw [hc] at hmove
  · rcases clear_cases hc with ⟨_, fs, -, rfl⟩ | ⟨hr, -⟩ | ⟨_, _, _, hr, -⟩
    · cases hmove
      exact ⟨fs, .inl rfl⟩
    · cases hr
    · cases hr
  · obtain ⟨_, hop⟩ := doing_error hmove
    obtain ⟨fs, rfl⟩ := attempt_error hop
    rcases clear_cases hc with ⟨_, _, hr, -⟩ | ⟨-, rfl, -⟩ | ⟨_, place, _, -, hf, rfl⟩
    · cases hr
    · exact ⟨fs, .inl rfl⟩
    · obtain ⟨-, -, he⟩ := h.find_target ⟨rfl, fun _ _ hn => hn⟩ hx hf
      split at he
      · cases he
      · cases he
        exact ⟨fs, .inr rfl⟩

/-- Entries are moved one after the other, up to the first failure. -/
theorem Moving.run (h : Moving u install (R ++ [stg]) I m ms e)
    (hs : Scene u root staging install R I stg m) {names : List String}
    (hplain : ∀ x ∈ names, Path.Plain x) (hnodup : (ms ++ names).Nodup) {r : Except Error Unit}
    {after : Disk} (hmoves : moveEntries staging install names e = (r, after)) :
    (r = .ok () ∧ Moving u install (R ++ [stg]) I m (ms ++ names) after) ∨
      ∃ err before x rest mid fs, r = .error err ∧ names = before ++ x :: rest ∧
        Moving u install (R ++ [stg]) I m (ms ++ before) mid ∧
        moveEntry staging install x mid = (.error err, after) ∧
        (after = { mid with faults := fs } ∨ after = { mid.erase (I ++ [x]) with faults := fs }) := by
  induction names generalizing ms e with
  | nil =>
    cases hmoves
    exact .inl ⟨rfl, by rwa [List.append_nil]⟩
  | cons x names ih =>
    rw [moveEntries, bind_apply] at hmoves
    have hx := hplain x List.mem_cons_self
    have hxm : x ∉ ms := fun hmem => by
      rw [List.nodup_append] at hnodup
      exact hnodup.2.2 x hmem x List.mem_cons_self rfl
    rcases hstep : moveEntry staging install x e with ⟨err | ⟨⟩, mid⟩ <;> rw [hstep] at hmoves
    · cases hmoves
      obtain ⟨fs, hafter⟩ := h.step_error hx hstep
      exact .inr ⟨err, [], x, names, e, fs, rfl, rfl, by rwa [List.append_nil], hstep, hafter⟩
    · have hassoc : ms ++ x :: names = ms ++ [x] ++ names := by simp
      rw [hassoc] at hnodup ⊢
      rcases ih (h.step hs hx hxm hstep) (fun y hy => hplain y (List.mem_cons_of_mem _ hy)) hnodup
        hmoves with hok | ⟨err, before, y, rest, last, fs, hr, rfl, hlast, hmove, hafter⟩
      · exact .inl hok
      · refine .inr ⟨err, x :: before, y, rest, last, fs, hr, rfl, ?_, hmove, hafter⟩
        rwa [show ms ++ x :: before = ms ++ [x] ++ before by simp]

/-- The tree stays well-formed unless the working directory is in the way. -/
theorem Moving.wellFormed_run (h : Moving u install (R ++ [stg]) I m ms e)
    (hs : Scene u root staging install R I stg m) (he : e.WellFormed)
    (haway : ∀ x, isWithin (I ++ [x]) u.workingDir = false) {names : List String}
    (hplain : ∀ x ∈ names, Path.Plain x) (hnodup : (ms ++ names).Nodup) {r : Except Error Unit}
    {after : Disk} (hmoves : moveEntries staging install names e = (r, after)) : after.WellFormed := by
  induction names generalizing ms e with
  | nil =>
    cases hmoves
    exact he
  | cons x names ih =>
    rw [moveEntries, bind_apply] at hmoves
    have hx := hplain x List.mem_cons_self
    have hxm : x ∉ ms := fun hmem => by
      rw [List.nodup_append] at hnodup
      exact hnodup.2.2 x hmem x List.mem_cons_self rfl
    rcases hstep : moveEntry staging install x e with ⟨err | ⟨⟩, mid⟩ <;> rw [hstep] at hmoves
    · cases hmoves
      obtain ⟨fs, rfl | rfl⟩ := h.step_error hx hstep
      · exact he.withFaults fs
      · refine (he.erase ?_).withFaults fs
        rw [h.start, haway]
    · refine ih (h.step hs hx hxm hstep) (h.wellFormed_step hs he (haway x) hx hxm hstep)
        (fun y hy => hplain y (List.mem_cons_of_mem _ hy)) ?_ hmoves
      rwa [List.append_assoc]

end moving

end RigWarden.Provision
