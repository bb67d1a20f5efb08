import RigWarden.Proofs.Disk.Identities
import RigWarden.Proofs.Disk.Opening

/-!
# Drafts

A draft is a new file at a free place that is written before it is moved to where it goes, or that is
removed again. As long as it is there the disk is else as it was, and it is as it was when the draft
has been removed. A draft that is moved takes the place of one entry.
-/

namespace RigWarden.Disk

open Text

section renames

variable {d e after : Disk} {source target : Path} {from_ to_ : Place} {f : FileData}

/-- A file that moves takes one place and leaves another, and all else stays. -/
theorem get?_move_file (hd : d.WellFormed) (hfrom : d.get? from_ = some (.file f))
    (hto : d.get? to_ ≠ some .dir) (hne : from_ ≠ to_)
    (he : ∀ q, e.get? q = if isWithin to_ q = true then none else d.get? q) (q : Place) :
    (e.move from_ to_).get? q =
      if q = to_ then some (.file f) else if q = from_ then none else d.get? q := by
  have hroot : to_ ≠ [] := fun hnil => hto (by rw [hnil, get?_nil])
  have hunder : ∀ r, r ≠ [] → d.get? (from_ ++ r) = none := fun r =>
    hd.none_below (by simp [hfrom])
  have hover : isWithin to_ from_ = false := Bool.eq_false_iff.2 fun hw => by
    obtain ⟨r, rfl⟩ := isWithin_iff.1 hw
    have hr : r ≠ [] := fun hnil => hne (by rw [hnil, List.append_nil])
    rw [hd.none_below hto hr] at hfrom
    cases hfrom
  have hmove := get?_move (ne_nil_of_file hfrom) hroot (d := e) fun r => by
    rw [he, if_pos (isWithin_append _ _)]
  have hnone : ∀ r, r ≠ [] → e.get? (from_ ++ r) = none := fun r hr => by
    rw [he, hunder r hr, ite_self]
  rw [hmove]
  by_cases hq : isWithin to_ q = true
  · obtain ⟨r, rfl⟩ := isWithin_iff.1 hq
    rw [if_pos hq, List.drop_left]
    by_cases hr : r = []
    · rw [hr, List.append_nil, List.append_nil, if_pos rfl, he, hover, if_neg Bool.false_ne_true,
        hfrom]
    · rw [hnone r hr, if_neg (by simpa using hr), hd.none_below hto hr, ite_self]
  · have hother : q ≠ to_ := fun heq => hq (by rw [heq, isWithin_self])
    rw [if_neg hq, if_neg hother]
    by_cases hq' : isWithin from_ q = true
    · obtain ⟨r, rfl⟩ := isWithin_iff.1 hq'
      rw [if_pos hq']
      by_cases hr : r = []
      · rw [if_pos (by rw [hr, List.append_nil])]
      · rw [hunder r hr, ite_self]
    · rw [if_neg hq', if_neg fun heq => hq' (by rw [heq, isWithin_self]), he, if_neg hq]

/-- A file is renamed to a name that is free, or that stands for no directory. -/
theorem rename_file {cs : List Path.Component} {s : String} (hd : d.WellFormed)
    (hsource : d.find .entry source = .ok (.node from_ (.file f)))
    (hfrom : d.get? from_ = some (.file f)) (hsteps : Path.steps target = cs ++ [.name s])
    (h : rename source target d = (.ok (), after)) :
    ∃ m dir, d.Leads Anywhere maxLinks d.workingDir cs m dir ∧ (utf8 s).length ≤ maxName ∧
      Usable target ∧ d.get? (dir ++ [s]) ≠ some .dir ∧ after.workingDir = d.workingDir ∧
      ∀ q, after.get? q = if q = dir ++ [s] then some (.file f)
        else if q = from_ then none else d.get? q := by
  have hop := attempt_ok h
  simp only [find_withFaults, hsource, Bind.bind, Except.bind] at hop
  rcases htarget : d.find .entry target with _ | found <;> simp only [htarget] at hop
  · cases hop
  obtain ⟨m, dir, hl, hs, hfound⟩ := find_entry_cases hsteps htarget
  refine ⟨m, dir, hl, hs, usable_of_find htarget, ?_⟩
  cases hto : d.get? (dir ++ [s]) with
  | none =>
    rw [hto] at hfound
    subst hfound
    simp only [reduceCtorEq, false_and, if_false] at hop
    cases hop
    refine ⟨nofun, rfl, get?_move_file hd hfrom (by simp [hto]) ?_ fun q => ?_⟩
    · rintro rfl
      rw [hfrom] at hto
      cases hto
    · split
      · next hw =>
        obtain ⟨r, rfl⟩ := isWithin_iff.1 hw
        exact hd.of_vacant hto r
      · rfl
  | some old =>
    rw [hto] at hfound
    subst hfound
    simp only at hop
    split at hop
    · next heq =>
      subst heq
      cases hop
      rw [hfrom] at hto
      cases hto
      refine ⟨nofun, rfl, fun q => ?_⟩
      split
      · next heq => rw [heq]; exact hfrom
      · rfl
    · next hne =>
      by_cases hold : old = .dir
      · simp [hold] at hop
      · simp only [reduceCtorEq, false_and, if_false, ne_eq, not_false_eq_true, true_and, hold] at hop
        split at hop
        · cases hop
        · cases hop
          refine ⟨fun heq => hold (Option.some.inj heq), rfl,
            get?_move_file hd hfrom (by simpa [hto] using hold) hne fun q => ?_⟩
          refine (get?_erase _ _ q).trans ?_
          by_cases hw : isWithin (dir ++ [s]) q = true
          · have hq : q ≠ [] := fun hnil => by
              have hlen := isWithin_length hw
              simp [hnil] at hlen
            rw [if_pos ⟨hq, hw⟩, if_pos hw]
          · rw [if_neg fun hb => hw hb.2, if_neg hw]
            rfl

/-- Renaming makes no file. -/
theorem contents_rename (hsource : d.find .entry source = .ok (.node from_ (.file f)))
    (h : rename source target d = (.ok (), after)) : after.contents ⊆ d.contents := by
  have hroot : from_ ≠ [] := fun hnil => by
    rw [hnil] at hsource
    cases dir_of_find_entry hsource
  have hop := attempt_ok h
  simp only [find_withFaults, hsource, Bind.bind, Except.bind] at hop
  rcases htarget : d.find .entry target with _ | ⟨to_, old⟩ | to_ <;> simp only [htarget] at hop
  · cases hop
  · split at hop
    · cases hop
      exact List.Subset.refl _
    · simp only [reduceCtorEq, false_and, if_false] at hop
      split at hop
      · cases hop
      · split at hop <;> cases hop
        exact fun x hx => contents_erase_subset _ to_ (contents_move_subset hroot to_ hx)
  · simp only [reduceCtorEq, false_and, if_false] at hop
    cases hop
    exact contents_move_subset hroot to_

end renames

theorem Bounded.map_updated {d : Disk} (h : d.Bounded) (f : FileData → FileData) (q : Place) :
    (d.get? q).map (Node.updated d.nextId f) = d.get? q := by
  cases hn : d.get? q with
  | none => rfl
  | some n =>
    cases n with
    | file data => simp [Node.updated, Nat.ne_of_lt (h _ (mem_contents hn))]
    | _ => rfl

/-- The disk is `made` with one more file of these bytes, where nothing stood. -/
structure Drafted (made : Disk) (place : Place) (bs : Bytes) (e : Disk) : Prop where
  wellFormed : made.WellFormed → e.WellFormed
  start : e.workingDir = made.workingDir
  free : made.get? place = none
  get? : ∀ q, e.get? q = if q = place then some (.file ⟨made.nextId, bs, 0o600⟩) else made.get? q
  files : ∀ entry ∈ e.nodes, ∀ x, content? entry = some x →
    x ∈ made.contents ∨ entry.1 = place ∧ x = (made.nextId, bs)

section drafts

variable {made e after : Disk} {place : Place} {p : Path} {bs more : Bytes}

theorem drafted_created (fs : List (Option SystemError))
    (hf : made.find .entry p = .ok (.vacant place)) :
    Drafted made place [] ({ made with faults := fs }.created place 0o600) := by
  have hv := vacant_of_find hf
  have hne := ne_nil_of_vacant hv
  refine ⟨fun hd => ?_, workingDir_set _ _ _, hv, get?_created hne _, fun entry he x hx => ?_⟩
  · have hdir := dir_of_walk_vacant hd hd.start (walk_of_find hf)
    exact (hd.withFaults fs).create hv hdir
  · have he : entry ∈ ({ made with faults := fs }.set place (.file ⟨made.nextId, [], 0o600⟩)).nodes := he
    rw [nodes_set (d := { made with faults := fs }) hne hv] at he
    rcases List.mem_append.1 he with he | he
    · exact .inl (List.mem_filterMap.2 ⟨entry, he, hx⟩)
    · rw [List.mem_singleton.1 he] at hx ⊢
      obtain ⟨-, f, hfile, rfl⟩ := content?_eq_some.1 hx
      cases hfile
      exact .inr ⟨rfl, rfl⟩

theorem drafted_of_createNew {id : Nat} (h : createNew p 0o600 made = (.ok id, e)) :
    ∃ place, made.find .entry p = .ok (.vacant place) ∧ id = made.nextId ∧
      Drafted made place [] e := by
  obtain ⟨fs, place, hf, rfl, rfl⟩ := createNew_ok h
  exact ⟨place, hf, rfl, drafted_created fs hf⟩

namespace Drafted

variable (h : Drafted made place bs e)
include h

theorem withFaults (fs : List (Option SystemError)) :
    Drafted made place bs { e with faults := fs } :=
  ⟨fun hd => (h.wellFormed hd).withFaults fs, h.start, h.free, h.get?, h.files⟩

theorem file : e.get? place = some (.file ⟨made.nextId, bs, 0o600⟩) := by rw [h.get?, if_pos rfl]

theorem get?_of_ne {q : Place} (hq : q ≠ place) : e.get? q = made.get? q := by
  rw [h.get?, if_neg hq]

theorem alike : Alike made e := by
  refine ⟨h.start.symm, fun q n hn => ?_⟩
  by_cases hq : q = place
  · subst hq
    rw [h.free, h.file]
    exact ⟨nofun, fun he => absurd (Option.some.inj he).symm (hn _)⟩
  · rw [h.get?_of_ne hq]

theorem mem_contents {x : Nat × Bytes} (hx : x ∈ e.contents) :
    x ∈ made.contents ∨ x = (made.nextId, bs) := by
  obtain ⟨entry, he, hx⟩ := List.mem_filterMap.1 hx
  exact (h.files entry he x hx).imp_right And.right

/-- No other file has the identity of the draft. -/
theorem updateFile (hmade : made.Bounded) (u : Bytes → Bytes) :
    Drafted made place (u bs) (e.updateFile made.nextId fun f => { f with data := u f.data }) := by
  refine ⟨fun hd => (h.wellFormed hd).updateFile _ fun _ => rfl, h.start, h.free, fun q => ?_,
    fun entry he x hx => ?_⟩
  · rw [get?_updateFile, h.get?]
    split
    · simp [Node.updated]
    · exact hmade.map_updated _ q
  · rw [updateFile_eq] at he
    obtain ⟨⟨q, n⟩, hold, rfl⟩ := List.mem_map.1 he
    obtain ⟨hne, f, hf, rfl⟩ := content?_eq_some.1 hx
    cases n with
    | file g =>
      have hg := h.files _ hold _ (content?_eq_some.2 ⟨hne, g, rfl, rfl⟩)
      simp only [Node.updated, Node.file.injEq] at hf
      split at hf
      · next hid =>
        subst hf
        rcases hg with hg | ⟨hq, hg⟩
        · exact absurd hid (Nat.ne_of_lt (hmade _ hg))
        · exact .inr ⟨hq, by rw [(Prod.mk.inj hg).1, (Prod.mk.inj hg).2]⟩
      · next hid =>
        subst hf
        rcases hg with hg | ⟨-, hg⟩
        · exact .inl hg
        · exact absurd (Prod.mk.inj hg).1 hid
    | _ => cases hf

theorem append (hmade : made.Bounded) {r : Except SystemError Unit}
    (ha : Disk.append made.nextId more e = (r, after)) :
    ∃ bs', Drafted made place bs' after ∧ (r = .ok () → bs' = bs ++ more) := by
  rcases r with cause | ⟨⟩
  · obtain ⟨fs, rfl⟩ := attempt_error ha
    exact ⟨bs, h.withFaults fs, nofun⟩
  · have hop := attempt_ok ha
    cases hop
    exact ⟨bs ++ more, (h.withFaults _).updateFile hmade (· ++ more), fun _ => rfl⟩

theorem sync {r : Except SystemError Unit} (hs : Disk.sync e = (r, after)) :
    Drafted made place bs after := by
  rcases r with cause | ⟨⟩
  · obtain ⟨fs, rfl⟩ := attempt_error hs
    exact h.withFaults fs
  · have hop := attempt_ok hs
    cases hop
    exact h.withFaults _

variable (hf : made.find .entry p = .ok (.vacant place))
include hf

/-- The draft is found by the path it was made at. -/
theorem find_entry : e.find .entry p = .ok (.node place (.file ⟨made.nextId, bs, 0o600⟩)) := by
  obtain ⟨cs, s, m, dir, hcs, hl, rfl, -, hs⟩ := walk_entry_vacant (walk_of_find hf)
  have hl' := h.alike.leads hl
  rw [← h.start] at hl'
  rw [find_entry_eq (usable_of_find hf) hcs hl' hs, h.file]

theorem without_eq : e.without p = e.erase place := by rw [Disk.without, h.find_entry hf]

theorem same_without (hmade : made.WellFormed) : Same made (e.without p) := by
  rw [h.without_eq hf]
  refine ⟨h.start, fun q => ?_⟩
  rw [get?_erase]
  split
  · next hw =>
    obtain ⟨r, rfl⟩ := isWithin_iff.1 hw.2
    exact (hmade.of_vacant h.free r).symm
  · next hw =>
    refine h.get?_of_ne ?_
    rintro rfl
    exact hw ⟨ne_nil_of_vacant h.free, isWithin_self _⟩

theorem contents_without : (e.without p).contents ⊆ made.contents := by
  rw [h.without_eq hf]
  intro x hx
  obtain ⟨entry, he, hx⟩ := List.mem_filterMap.1 hx
  obtain ⟨hmem, hout⟩ := List.mem_filter.1 he
  refine (h.files entry hmem x hx).resolve_right fun hdraft => ?_
  rw [hdraft.1, isWithin_self] at hout
  cases hout

end Drafted
end drafts

end RigWarden.Disk
