import RigWarden.Proofs.Provision.Executable

/-!
# Opening files

A file that is opened is made if it is missing, and found from then on. Where all links lead further
down, a look-up stays below the place where it begins, and nothing outside makes a difference to it.
-/

namespace RigWarden.Disk

open Provision

section lookups

variable {d e : Disk} {l : Lookup} {n : Nat} {slash : Bool} {here place : Place}
  {cs : List Path.Component} {found : Found} {P : Place} {f : FileData}

/-- What is there to be opened can be read. -/
theorem walk_through_of_make (h : walk d .make n slash here cs = .ok found) :
    walk d .through n slash here cs = .ok found := by
  induction n using Nat.strongRecOn generalizing slash here cs with
  | ind n ih =>
    rcases List.eq_nil_or_concat cs with rfl | ⟨cs, c, rfl⟩
    · rw [walk_nil] at h ⊢
      exact h
    · rw [List.concat_eq_append] at h ⊢
      obtain ⟨m, dir, hl, hw⟩ := walk_append (by simp) h
      rw [hl.walk_append (by simp)]
      cases c with
      | root | here | up =>
        simp only [walk_root, walk_here, walk_up, walk_nil] at hw ⊢
        exact hw
      | name s =>
        rw [walk_last, finish] at hw ⊢
        cases slash with
        | true => simp at hw
        | false =>
          simp only [Bool.and_false, Bool.false_eq_true, if_false] at hw ⊢
          split at hw
          · cases hw
          · next hs =>
            rw [if_neg hs]
            split at hw
            · exact hw
            · exact hw
            · simpa using hw
            · rw [if_neg (by simp)] at hw ⊢
              cases m with
              | zero => cases hw
              | succ m => exact ih m (Nat.lt_of_succ_le hl.links_le) hw

/-- A file that is made is found by the same path. -/
theorem walk_make_set (h : walk d .make n slash here cs = .ok (.vacant place)) :
    walk (d.set place (.file f)) .make n slash here cs = .ok (.node place (.file f)) := by
  have hv := walk_vacant h
  induction n using Nat.strongRecOn generalizing slash here cs with
  | ind n ih =>
    rcases List.eq_nil_or_concat cs with rfl | ⟨cs, c, rfl⟩
    · rw [walk_nil] at h
      cases h
    · rw [List.concat_eq_append] at h ⊢
      obtain ⟨m, dir, hl, hw⟩ := walk_append (by simp) h
      have hne : place ≠ [] := fun he => by
        rw [he] at hv
        cases hv
      have hget : ∀ q, (d.set place (.file f)).get? q =
          if q = place then some (.file f) else d.get? q := get?_set hne _
      have hl' : (d.set place (.file f)).Leads Anywhere n here cs m dir :=
        hl.mono fun q k _ hk _ => ⟨trivial, by
          rw [hget, if_neg fun he => ?_, hk]
          rw [he, hv] at hk
          cases hk⟩
      rw [hl'.walk_append (by simp)]
      cases c with
      | root | here | up =>
        simp only [walk_root, walk_here, walk_up, walk_nil] at hw
        cases hw
      | name s =>
        rw [walk_last, finish] at hw ⊢
        cases slash with
        | true => simp at hw
        | false =>
          simp only [Bool.and_false, Bool.false_eq_true, if_false] at hw ⊢
          split at hw
          · cases hw
          · next hs =>
            rw [if_neg hs, hget]
            split at hw
            · cases hw
              rw [if_pos rfl]
            · cases hw
            · simp at hw
            · next t ht =>
              have hother : dir ++ [s] ≠ place := fun he => by
                rw [he, hv] at ht
                cases ht
              rw [if_neg hother, ht]
              simp only [if_neg (show ¬ Lookup.make = Lookup.entry by simp)] at hw ⊢
              cases m with
              | zero => cases hw
              | succ m => exact ih m (Nat.lt_of_succ_le hl.links_le) hw

/-- A free name is in a directory. -/
theorem dir_of_walk_vacant (hd : d.WellFormed) (hhere : d.get? here = some .dir)
    (h : walk d l n slash here cs = .ok (.vacant place)) : d.get? place.dropLast = some .dir := by
  induction n using Nat.strongRecOn generalizing slash here cs with
  | ind n ih =>
    rcases List.eq_nil_or_concat cs with rfl | ⟨cs, c, rfl⟩
    · rw [walk_nil] at h
      cases h
    · rw [List.concat_eq_append] at h
      obtain ⟨m, dir, hl, hw⟩ := walk_append (by simp) h
      have hdir := hl.dir hd hhere
      cases c with
      | root | here | up =>
        simp only [walk_root, walk_here, walk_up, walk_nil] at hw
        cases hw
      | name s =>
        rw [walk_last, finish] at hw
        split at hw
        · cases hw
        · split at hw
          · cases hw
          · split at hw
            · cases hw
              rwa [List.dropLast_concat]
            · cases hw
            · split at hw <;> cases hw
            · split at hw
              · cases hw
              · cases m with
                | zero => cases hw
                | succ m => exact ih m (Nat.lt_of_succ_le hl.links_le) hdir hw

/-- A look-up on the way down depends on what stands below its start, and on nothing else. -/
theorem walk_congr_below (hlinks : Downward d P)
    (hsame : ∀ q, isWithin P q = true → e.get? q = d.get? q) (hhere : isWithin P here = true)
    (hdown : ∀ c ∈ cs, c.isDownward = true) :
    walk e l n slash here cs = walk d l n slash here cs := by
  induction n using Nat.strongRecOn generalizing slash here cs with
  | ind n ih =>
    have hjump : ∀ {slash : Bool} {here : Place} {s : String} {t : Path} {rest : List Path.Component},
        isWithin P here = true → (∀ c ∈ rest, c.isDownward = true) →
        d.get? (here ++ [s]) = some (.link t) →
        jumpAt e l n slash here (Path.steps t ++ rest) =
          jumpAt d l n slash here (Path.steps t ++ rest) := by
      intro slash here s t rest hhere hrest ht
      cases n with
      | zero => rfl
      | succ n =>
        refine ih n (Nat.lt_succ_self n) hhere fun c hc => (List.mem_append.1 hc).elim ?_ (hrest c)
        exact Archive.isDownward_of_isContained (hlinks _ t (Below.snoc hhere s) ht) c
    induction cs generalizing here with
    | nil => rw [walk_nil, walk_nil]
    | cons c cs ihc =>
      have hcs : ∀ c ∈ cs, c.isDownward = true := fun c hc => hdown c (List.mem_cons_of_mem _ hc)
      have hc := hdown c List.mem_cons_self
      cases c with
      | root => cases hc
      | up => cases hc
      | here =>
        rw [walk_here, walk_here]
        exact ihc hhere hcs
      | name s =>
        have hs := (Below.snoc hhere s).1
        by_cases hnil : cs = []
        · subst hnil
          rw [walk_last, walk_last, finish, finish, hsame _ hs]
          split
          · rfl
          · split
            · rfl
            · split
              · rfl
              · rfl
              · rfl
              · next t ht =>
                split
                · rfl
                · have hj := @hjump (slash || Path.endsInSlash t) _ _ _ [] hhere (by simp) ht
                  rwa [List.append_nil] at hj
        · rw [walk_name _ _ _ _ _ _ hnil, walk_name _ _ _ _ _ _ hnil, hsame _ hs]
          split
          · rfl
          · split
            · rfl
            · exact ihc hs hcs
            · rfl
            · next t ht => exact hjump hhere hcs ht

/-- What is there to be opened can be read by the same path. -/
theorem find_through_of_make {p : Path} (h : d.find .make p = .ok found) :
    d.find .through p = .ok found := by
  rw [find_of_usable (usable_of_find h)]
  exact walk_through_of_make (walk_of_find h)

theorem get?_of_find {p : Path} (h : d.find .through p = .ok (.node place (.file f))) :
    d.get? place = some (.file f) := by
  rcases walk_through_cases (walk_of_find h) with ⟨hn, -⟩ | ⟨_, _, _, hn, -, hf, -⟩
  · cases hn
  · cases hn
    exact hf

/-- The disk after an empty file was made at a free place. -/
def created (d : Disk) (place : Place) (mode : Nat) : Disk :=
  { d.set place (.file ⟨d.nextId, [], mode⟩) with nextId := d.nextId + 1 }

theorem get?_created (hne : place ≠ []) (mode : Nat) (q : Place) :
    (d.created place mode).get? q = if q = place then some (.file ⟨d.nextId, [], mode⟩) else d.get? q :=
  get?_set hne _ q

/-- A file that was made is found where it was missing. -/
theorem find_created {p : Path} (h : d.find .make p = .ok (.vacant place)) (mode : Nat) :
    (d.created place mode).find .make p = .ok (.node place (.file ⟨d.nextId, [], mode⟩)) := by
  rw [find_of_usable (usable_of_find h)]
  have hstart : (d.created place mode).workingDir = d.workingDir := workingDir_set _ _ _
  rw [hstart, walk_congr (e := d.created place mode)
    (d := d.set place (.file ⟨d.nextId, [], mode⟩)) fun _ => rfl]
  exact walk_make_set (walk_of_find h)

/-- Opening fails without effect, finds a file or makes one. -/
theorem openFile_cases {p : Path} {r : Except SystemError Nat} (h : openFile p d = (r, e)) :
    ∃ fs, (∃ cause, r = .error cause ∧ e = { d with faults := fs }) ∨
      (∃ place f, d.find .make p = .ok (.node place (.file f)) ∧ r = .ok f.id ∧
        e = { d with faults := fs }) ∨
      ∃ place, d.find .make p = .ok (.vacant place) ∧ r = .ok d.nextId ∧
        e = { d with faults := fs }.created place defaultMode := by
  rcases r with cause | id
  · obtain ⟨fs, rfl⟩ := attempt_error h
    exact ⟨fs, .inl ⟨cause, rfl, rfl⟩⟩
  · have hop := attempt_ok h
    rw [find_withFaults] at hop
    refine ⟨d.faults.drop 1, .inr ?_⟩
    rcases hf : d.find .make p with _ | ⟨place, n⟩ | place <;>
      simp only [hf, Bind.bind, Except.bind] at hop
    · cases hop
    · cases n <;> cases hop
      exact .inl ⟨place, _, rfl, rfl, rfl⟩
    · cases hop
      exact .inr ⟨place, rfl, rfl, rfl⟩

/-- What was opened is found then. It is what was found before, or a new and empty file. -/
theorem find_openFile {p : Path} {r : Except SystemError Nat} (h : openFile p d = (r, e)) :
    (∃ cause, r = .error cause) ∧ e.find .through p = d.find .through p ∨
      ∃ place f, r = .ok f.id ∧ e.find .through p = .ok (.node place (.file f)) ∧
        (d.find .through p = .ok (.node place (.file f)) ∨
          d.find .through p = .ok (.vacant place) ∧ f.data = []) := by
  obtain ⟨fs, ⟨cause, rfl, rfl⟩ | ⟨place, f, hf, rfl, rfl⟩ | ⟨place, hf, rfl, rfl⟩⟩ :=
    openFile_cases h
  · exact .inl ⟨⟨cause, rfl⟩, find_withFaults ..⟩
  · have hfound := find_through_of_make hf
    exact .inr ⟨place, f, rfl, (find_withFaults ..).trans hfound, .inl hfound⟩
  · have hmade := find_created (d := { d with faults := fs }) ((find_withFaults ..).trans hf) defaultMode
    exact .inr ⟨place, _, rfl, find_through_of_make hmade, .inr ⟨find_through_of_make hf, rfl⟩⟩

/-- The file that a path is emptied at is one that is there, or a new one. -/
theorem emptyFile_cases {p : Path} {r : Except SystemError Nat} (h : emptyFile p d = (r, e)) :
    ∃ fs, (∃ cause, r = .error cause ∧ e = { d with faults := fs }) ∨
      (∃ place f, d.find .make p = .ok (.node place (.file f)) ∧ r = .ok f.id ∧
        e = { d with faults := fs }.updateFile f.id fun f => { f with data := [] }) ∨
      ∃ place, d.find .make p = .ok (.vacant place) ∧ r = .ok d.nextId ∧
        e = { d with faults := fs }.created place defaultMode := by
  rcases r with cause | id
  · obtain ⟨fs, rfl⟩ := attempt_error h
    exact ⟨fs, .inl ⟨cause, rfl, rfl⟩⟩
  · have hop := attempt_ok h
    rw [find_withFaults] at hop
    refine ⟨d.faults.drop 1, .inr ?_⟩
    rcases hf : d.find .make p with _ | ⟨place, n⟩ | place <;>
      simp only [hf, Bind.bind, Except.bind] at hop
    · cases hop
    · cases n <;> cases hop
      exact .inl ⟨place, _, rfl, rfl, rfl⟩
    · cases hop
      exact .inr ⟨place, rfl, rfl, rfl⟩

/-- Files were made or written to, and nothing else was done. -/
structure Written (d e : Disk) : Prop where
  wellFormed : e.WellFormed
  alike : Alike d e
  kept : ∀ q f, d.get? q = some (.file f) → ∃ f', f'.id = f.id ∧ e.get? q = some (.file f')

theorem Written.trans {c : Disk} (h : Written c d) (h' : Written d e) : Written c e :=
  ⟨h'.wellFormed, h.alike.trans h'.alike, fun q f hf => by
    obtain ⟨g, hg, hkept⟩ := h.kept q f hf
    obtain ⟨g', hg', hkept'⟩ := h'.kept q g hkept
    exact ⟨g', hg'.trans hg, hkept'⟩⟩

theorem written_withFaults (hd : d.WellFormed) (fs : List (Option SystemError)) :
    Written d { d with faults := fs } :=
  ⟨hd.withFaults fs, alike_withFaults d fs, fun _ f hf => ⟨f, rfl, hf⟩⟩

theorem written_created (hd : d.WellFormed) (hv : d.get? place = none)
    (hparent : d.get? place.dropLast = some .dir) (mode : Nat) : Written d (d.created place mode) := by
  have hne : place ≠ [] := fun he => by
    rw [he] at hv
    cases hv
  refine ⟨hd.create hv hparent, alike_create hne hv, fun q f hf => ⟨f, rfl, ?_⟩⟩
  rw [get?_created hne, if_neg, hf]
  rintro rfl
  rw [hv] at hf
  cases hf

theorem written_updateFile (hd : d.WellFormed) (id : Nat) {u : FileData → FileData}
    (hu : ∀ data, (u data).id = data.id) : Written d (d.updateFile id u) := by
  refine ⟨hd.updateFile id hu, alike_updateFile d id u, fun q f hf => ?_⟩
  rw [get?_updateFile, hf]
  refine ⟨if f.id = id then u f else f, ?_, rfl⟩
  split
  · exact hu f
  · rfl

theorem written_missing (hd : d.WellFormed) {p : Path} (hf : d.find .make p = .ok (.vacant place))
    (fs : List (Option SystemError)) :
    Written d ({ d with faults := fs }.created place defaultMode) := by
  have hv : d.get? place = none := walk_vacant (walk_of_find hf)
  have hparent := dir_of_walk_vacant hd hd.start (walk_of_find hf)
  exact (written_withFaults hd fs).trans (written_created (hd.withFaults fs) hv hparent _)

theorem written_openFile (hd : d.WellFormed) {p : Path} {r : Except SystemError Nat}
    (h : openFile p d = (r, e)) : Written d e := by
  obtain ⟨fs, ⟨_, -, rfl⟩ | ⟨_, _, -, -, rfl⟩ | ⟨place, hf, -, rfl⟩⟩ := openFile_cases h
  · exact written_withFaults hd fs
  · exact written_withFaults hd fs
  · exact written_missing hd hf fs

theorem written_emptyFile (hd : d.WellFormed) {p : Path} {r : Except SystemError Nat}
    (h : emptyFile p d = (r, e)) : Written d e := by
  obtain ⟨fs, ⟨_, -, rfl⟩ | ⟨_, f, -, -, rfl⟩ | ⟨place, hf, -, rfl⟩⟩ := emptyFile_cases h
  · exact written_withFaults hd fs
  · exact (written_withFaults hd fs).trans (written_updateFile (hd.withFaults fs) f.id fun _ => rfl)
  · exact written_missing hd hf fs

end lookups
end RigWarden.Disk
