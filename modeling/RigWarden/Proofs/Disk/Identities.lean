import Mathlib.Data.List.Nodup
import Mathlib.Data.List.Pairwise
import RigWarden.Proofs.Disk.Durable

/-!
# Identities of files

A file keeps its identity wherever it goes, and a new file gets one that was never given before. So no
two places hold the same file, and a file that was seen earlier is not mistaken for a later one.
Provisioning writes to files that it made itself, so the data of every older file that it leaves are
those from before.
-/

namespace RigWarden

namespace Disk

/-- The identity of the file that an entry of the tree is. Nothing but a directory is seen at the root. -/
def entryId? (e : Place × Node) : Option Nat := if e.1 = [] then none else e.2.id?

/-- The identities of all files. -/
def ids (d : Disk) : List Nat := d.nodes.filterMap entryId?

/-- Every file has an identity of its own, and the next one is still to be given. -/
structure Numbered (d : Disk) : Prop where
  nodup : d.ids.Nodup
  below : ∀ id ∈ d.ids, id < d.nextId

/-- Since `base`, only new identities were given. -/
structure Issues (base d : Disk) : Prop extends Numbered d where
  next : base.nextId ≤ d.nextId
  old : ∀ id ∈ d.ids, id < base.nextId → id ∈ base.ids

section identities

variable {base d e : Disk} {p q : Place} {f g : FileData}

theorem ne_nil_of_file (h : d.get? q = some (.file f)) : q ≠ [] := fun hq => by
  rw [hq] at h
  cases h

theorem entryId?_file (hq : q ≠ []) : entryId? (q, .file f) = some f.id := if_neg hq

theorem mem_ids (h : d.get? q = some (.file f)) : f.id ∈ d.ids :=
  List.mem_filterMap.2 ⟨(q, .file f), mem_nodes_of_get? (ne_nil_of_file h) h,
    entryId?_file (ne_nil_of_file h)⟩

theorem Numbered.lt (hd : d.Numbered) (h : d.get? q = some (.file f)) : f.id < d.nextId :=
  hd.below _ (mem_ids h)

/-- A file is in one place only. -/
theorem Numbered.place_eq (hd : d.Numbered) (hp : d.get? p = some (.file f))
    (hq : d.get? q = some (.file g)) (hid : f.id = g.id) : p = q := by
  by_contra hpq
  have hapart := List.pairwise_filterMap.1 hd.nodup
  have : Std.Symm fun a b : Place × Node =>
      ∀ x, entryId? a = some x → ∀ y, entryId? b = some y → x ≠ y :=
    ⟨fun a b h x hx y hy he => h y hy x hx he.symm⟩
  have hp' := ne_nil_of_file hp
  have hq' := ne_nil_of_file hq
  exact hapart.forall (mem_nodes_of_get? hp' hp) (mem_nodes_of_get? hq' hq)
    (fun he => hpq (congrArg Prod.fst he)) f.id (entryId?_file hp') g.id (entryId?_file hq') hid

theorem get?_of_mem (hd : d.WellFormed) (hq : q ≠ []) {n : Node} (h : (q, n) ∈ d.nodes) :
    d.get? q = some n := by
  rw [get?_of_ne_nil d hq, Option.map_eq_some_iff]
  cases hf : d.nodes.find? (·.1 == q) with
  | none => exact absurd (List.find?_eq_none.1 hf _ h) (by simp)
  | some e =>
    have hkey : e.1 = q := by simpa using List.find?_some hf
    rw [List.inj_on_of_nodup_map hd.nodup (List.mem_of_find?_eq_some hf) h hkey]
    exact ⟨_, rfl, rfl⟩

theorem exists_of_mem_ids (hd : d.WellFormed) {id : Nat} (h : id ∈ d.ids) :
    ∃ q f, d.get? q = some (.file f) ∧ f.id = id := by
  obtain ⟨⟨q, n⟩, hmem, hn⟩ := List.mem_filterMap.1 h
  have hq : q ≠ [] := fun he => by simp [entryId?, he] at hn
  cases n with
  | file f =>
    rw [entryId?_file hq] at hn
    exact ⟨q, f, get?_of_mem hd hq hmem, Option.some.inj hn⟩
  | _ => simp [entryId?, hq, Node.id?] at hn

theorem Numbered.issues (h : d.Numbered) : Issues d d := ⟨h, Nat.le_refl _, fun _ hid _ => hid⟩

theorem Issues.trans (h : Issues base d) (h' : Issues d e) : Issues base e :=
  ⟨h'.toNumbered, h.next.trans h'.next, fun id hid hlt =>
    h.old id (h'.old id hid (Nat.lt_of_lt_of_le hlt h.next)) hlt⟩

theorem issues_blind (base : Disk) : Blind (Issues base) := fun _ _ h =>
  ⟨⟨h.nodup, h.below⟩, h.next, h.old⟩

theorem Issues.of_sublist (h : Issues base d) (hids : e.ids.Sublist d.ids)
    (hnext : e.nextId = d.nextId) : Issues base e :=
  ⟨⟨h.nodup.sublist hids, fun id hid => hnext ▸ h.below id (hids.subset hid)⟩, hnext ▸ h.next,
    fun id hid => h.old id (hids.subset hid)⟩

theorem ids_set (hv : d.get? p = none) (n : Node) : (d.set p n).ids = d.ids ++ n.id?.toList := by
  have hp : p ≠ [] := fun he => by
    rw [he] at hv
    cases hv
  unfold ids
  rw [nodes_set hp hv, List.filterMap_append]
  congr 1
  cases n <;> simp [entryId?, Node.id?, hp]

theorem Issues.set (h : Issues base d) (hv : d.get? p = none) {n : Node} (hn : n.id? = none) :
    Issues base (d.set p n) := by
  refine h.of_sublist ?_ (nextId_set d p n)
  rw [ids_set hv, hn, Option.toList_none, List.append_nil]

theorem Issues.create (h : Issues base d) (hv : d.get? p = none) (bs : Text.Bytes) (mode : Nat) :
    Issues base { d.set p (.file ⟨d.nextId, bs, mode⟩) with nextId := d.nextId + 1 } := by
  have hids : ({ d.set p (.file ⟨d.nextId, bs, mode⟩) with nextId := d.nextId + 1 } : Disk).ids =
      d.ids ++ [d.nextId] := ids_set hv _
  refine ⟨⟨?_, fun id hid => ?_⟩, Nat.le_succ_of_le h.next, fun id hid hlt => ?_⟩
  · rw [hids]
    exact List.nodup_append.2 ⟨h.nodup, List.nodup_singleton _, fun id hid _ hnew he =>
      Nat.lt_irrefl _ (List.mem_singleton.1 hnew ▸ he ▸ h.below id hid)⟩
  · rw [hids] at hid
    rcases List.mem_append.1 hid with hid | hid
    · exact Nat.lt_succ_of_lt (h.below id hid)
    · exact List.mem_singleton.1 hid ▸ Nat.lt_succ_self _
  · rw [hids] at hid
    rcases List.mem_append.1 hid with hid | hid
    · exact h.old id hid hlt
    · exact absurd (List.mem_singleton.1 hid ▸ hlt) (Nat.not_lt.2 h.next)

theorem Issues.erase (h : Issues base d) (p : Place) : Issues base (d.erase p) :=
  h.of_sublist (List.filter_sublist.filterMap _) rfl

theorem ids_map_sublist {u : Place × Node → Place × Node}
    (hu : ∀ e, entryId? (u e) = none ∨ entryId? (u e) = entryId? e) (es : List (Place × Node)) :
    ((es.map u).filterMap entryId?).Sublist (es.filterMap entryId?) := by
  induction es with
  | nil => exact .slnil
  | cons e es ih =>
    rw [List.map_cons, List.filterMap_cons, List.filterMap_cons]
    rcases hu e with hu | hu <;> rw [hu]
    · cases entryId? e with
      | none => exact ih
      | some id => exact ih.cons id
    · cases entryId? e with
      | none => exact ih
      | some id => exact ih.cons_cons id

theorem Issues.move (h : Issues base d) {source : Place} (hs : source ≠ []) (target : Place) :
    Issues base (d.move source target) := by
  refine h.of_sublist (ids_map_sublist (fun e => ?_) d.nodes) rfl
  split
  · next hw =>
    have he : e.1 ≠ [] := fun he => hs (by
      rw [he] at hw
      exact List.eq_nil_of_length_eq_zero (Nat.le_zero.1 (isWithin_length hw)))
    unfold entryId?
    rw [if_neg he]
    split
    · exact .inl rfl
    · exact .inr rfl
  · exact .inr rfl

theorem Issues.updateFile (h : Issues base d) (id : Nat) {u : FileData → FileData}
    (hu : ∀ data, (u data).id = data.id) : Issues base (d.updateFile id u) := by
  refine h.of_sublist ?_ rfl
  unfold ids
  rw [updateFile_eq]
  refine ids_map_sublist (fun e => .inr ?_) d.nodes
  obtain ⟨place, n⟩ := e
  unfold entryId?
  split
  · rfl
  · cases n with
    | file data =>
      simp only [Node.updated, Node.id?]
      split
      · rw [hu]
      · rfl
    | _ => rfl

end identities

end Disk

open Disk

theorem durable_issues (base : Disk) : Durable (Issues base) fun _ => True where
  blind := issues_blind base
  place hd hv hn := hd.set hv hn
  create {_ _ mode} hd hv := ⟨hd.create hv [] mode, trivial⟩
  erase p hd := hd.erase p
  move target hd hs := hd.move hs target
  write _ hd _ := hd.updateFile _ fun _ => rfl
  permit id _ hd := hd.updateFile id fun _ => rfl

/-- The procedure gives new identities only, and each to one file. -/
def KeepsIds {ε α : Type} (x : ExceptT ε (StateM Disk) α) : Prop :=
  ∀ base, Keeps (Issues base) x Keeps.Always

theorem KeepsIds.issues {ε α : Type} {x : ExceptT ε (StateM Disk) α} (h : KeepsIds x)
    {d after : Disk} {r : Except ε α} (hd : d.Numbered) (hx : x d = (r, after)) : Issues d after :=
  (h d d hd.issues r after hx).1

theorem KeepsIds.openFile (p : Path) : KeepsIds (Disk.openFile p) := fun base =>
  (durable_issues base).openFile p

theorem KeepsIds.emptyFile (p : Path) : KeepsIds (Disk.emptyFile p) := fun base => by
  refine Keeps.attempt (issues_blind base).fading fun d a after hd hop => ⟨?_, trivial⟩
  rcases hf : d.find .make p with _ | ⟨place, n⟩ | place <;>
    simp only [hf, Bind.bind, Except.bind] at hop
  · cases hop
  · cases n <;> cases hop
    exact hd.updateFile _ fun _ => rfl
  · cases hop
    exact hd.create (vacant_of_find hf) [] defaultMode

theorem KeepsIds.writeConfig (b : Backend) (processors : Nat) (profile : Profile) (install : Path) :
    KeepsIds (b.writeConfig processors profile install) := fun base =>
  (durable_issues base).writeConfig b processors profile install

theorem issues_provision {p p' : Provisioner} {env : ProvisionEnv} {desc : Descriptor}
    {d after : Disk} {r : Except Halt Path} (hd : d.Numbered)
    (h : p.provision env desc d = (r, p', after)) : Issues d after :=
  (durable_issues d).provision hd.issues h

/-! Data of files -/

namespace Disk

/-- The identity and the data of the file that an entry of the tree is. -/
def content? (e : Place × Node) : Option (Nat × Text.Bytes) :=
  match e.2 with
  | .file f => if e.1 = [] then none else some (f.id, f.data)
  | _ => none

/-- What is in the files, with their identities. -/
def contents (d : Disk) : List (Nat × Text.Bytes) := d.nodes.filterMap content?

/-- No file has an identity that is still to be given. -/
def Bounded (d : Disk) : Prop := ∀ x ∈ d.contents, x.1 < d.nextId

/-- The files of `d` that were not made since `base` have the data they had. -/
structure Unwritten (base d : Disk) : Prop where
  next : base.nextId ≤ d.nextId
  bounded : d.Bounded
  had : ∀ x ∈ d.contents, x.1 < base.nextId → x ∈ base.contents

section contents

variable {base d e : Disk} {p q : Place} {f : FileData} {x : Nat × Text.Bytes}

theorem content?_eq_some {entry : Place × Node} : content? entry = some x ↔
    entry.1 ≠ [] ∧ ∃ f, entry.2 = .file f ∧ (f.id, f.data) = x := by
  obtain ⟨place, n⟩ := entry
  cases n <;> simp [content?]

theorem mem_contents (h : d.get? q = some (.file f)) : (f.id, f.data) ∈ d.contents :=
  List.mem_filterMap.2 ⟨(q, .file f), mem_nodes_of_get? (ne_nil_of_file h) h,
    content?_eq_some.2 ⟨ne_nil_of_file h, f, rfl, rfl⟩⟩

theorem exists_of_mem_contents (hd : d.WellFormed) (h : x ∈ d.contents) :
    ∃ q f, d.get? q = some (.file f) ∧ (f.id, f.data) = x := by
  obtain ⟨⟨q, n⟩, hmem, hx⟩ := List.mem_filterMap.1 h
  obtain ⟨hne, f, rfl, hf⟩ := content?_eq_some.1 hx
  exact ⟨q, f, get?_of_mem hd hne hmem, hf⟩

theorem WellFormed.bounded (h : d.WellFormed) : d.Bounded := fun x hx => by
  obtain ⟨q, f, hq, rfl⟩ := exists_of_mem_contents h hx
  exact h.fresh q f hq

theorem Bounded.unwritten (h : d.Bounded) : Unwritten d d := ⟨Nat.le_refl _, h, fun _ hx _ => hx⟩

theorem ne_nil_of_vacant (hv : d.get? p = none) : p ≠ [] := fun hnil => by
  rw [hnil] at hv
  cases hv

theorem contents_set (hv : d.get? p = none) {n : Node} (hn : n.id? = none) :
    (d.set p n).contents = d.contents := by
  have hnone : content? (p, n) = none := by
    cases n with
    | file f => cases hn
    | _ => rfl
  rw [contents, nodes_set (ne_nil_of_vacant hv), List.filterMap_append]
  · simp [contents, hnone]
  · exact hv

theorem contents_create (hv : d.get? p = none) (mode : Nat) :
    ({ d.set p (.file ⟨d.nextId, [], mode⟩) with nextId := d.nextId + 1 } : Disk).contents =
      d.contents ++ [(d.nextId, [])] := by
  have hne := ne_nil_of_vacant hv
  change (d.set p _).nodes.filterMap content? = _
  rw [nodes_set hne hv, List.filterMap_append]
  simp [contents, content?, hne]

theorem contents_erase_subset (d : Disk) (p : Place) : (d.erase p).contents ⊆ d.contents :=
  (List.filter_sublist.filterMap _).subset

/-- Whatever is moved, no file is made on the way. -/
theorem contents_move_subset {source : Place} (hs : source ≠ []) (target : Place) :
    (d.move source target).contents ⊆ d.contents := by
  intro x hx
  obtain ⟨moved, hmem, hx⟩ := List.mem_filterMap.1 hx
  obtain ⟨e, he, rfl⟩ := List.mem_map.1 hmem
  obtain ⟨hne, f, hf, rfl⟩ := content?_eq_some.1 hx
  refine List.mem_filterMap.2 ⟨e, he, content?_eq_some.2 ?_⟩
  split at hne
  · next hw =>
    simp only [hw, if_true] at hf
    refine ⟨fun hnil => hs ?_, f, hf, rfl⟩
    exact List.eq_nil_of_length_eq_zero (Nat.le_zero.1 (by simpa [hnil] using isWithin_length hw))
  · next hw =>
    simp only [hw, if_false, Bool.false_eq_true] at hf
    exact ⟨hne, f, hf, rfl⟩

theorem mem_contents_updateFile {id : Nat} {u : FileData → FileData}
    (hx : x ∈ (d.updateFile id u).contents) :
    x ∈ d.contents ∨ ∃ f, f.id = id ∧ (f.id, f.data) ∈ d.contents ∧ x = ((u f).id, (u f).data) := by
  obtain ⟨changed, hmem, hx⟩ := List.mem_filterMap.1 hx
  rw [updateFile_eq] at hmem
  obtain ⟨⟨place, n⟩, he, rfl⟩ := List.mem_map.1 hmem
  obtain ⟨hne, f, hf, rfl⟩ := content?_eq_some.1 hx
  cases n with
  | file g =>
    have hg : (g.id, g.data) ∈ d.contents :=
      List.mem_filterMap.2 ⟨_, he, content?_eq_some.2 ⟨hne, g, rfl, rfl⟩⟩
    simp only [Node.updated, Node.file.injEq] at hf
    split at hf
    · next hid => exact .inr ⟨g, hid, hg, by rw [hf]⟩
    · exact .inl (hf ▸ hg)
  | _ => cases hf

theorem Unwritten.of_subset (h : Unwritten base d) (hsub : e.contents ⊆ d.contents)
    (hnext : e.nextId = d.nextId) : Unwritten base e :=
  ⟨hnext ▸ h.next, fun x hx => hnext ▸ h.bounded x (hsub hx), fun x hx => h.had x (hsub hx)⟩

theorem Unwritten.updateFile (h : Unwritten base d) {id : Nat} {u : FileData → FileData}
    (hu : ∀ f, (u f).id = f.id ∧ ((u f).data = f.data ∨ base.nextId ≤ id)) :
    Unwritten base (d.updateFile id u) := by
  refine ⟨h.next, fun x hx => ?_, fun x hx hold => ?_⟩ <;>
    rcases mem_contents_updateFile hx with hx | ⟨f, hid, hf, rfl⟩
  · exact h.bounded x hx
  · simp only [(hu f).1]
    exact h.bounded _ hf
  · exact h.had x hx hold
  · simp only [(hu f).1] at hold ⊢
    have hdata := (hu f).2.resolve_right (by omega)
    rw [hdata]
    exact h.had _ hf hold

theorem durable_unwritten (base : Disk) : Durable (Unwritten base) (base.nextId ≤ ·) where
  blind _ _ hd := ⟨hd.next, hd.bounded, hd.had⟩
  place hd hv hn := hd.of_subset (fun _ hx => contents_set hv hn ▸ hx) (nextId_set _ _ _)
  create {d p mode} hd hv := by
    refine ⟨⟨hd.next.trans (Nat.le_succ _), fun x hx => ?_, fun x hx hold => ?_⟩, hd.next⟩ <;>
      rw [contents_create hv] at hx <;> rcases List.mem_append.1 hx with hx | hx
    · exact Nat.lt_succ_of_lt (hd.bounded x hx)
    · rw [List.mem_singleton.1 hx]
      exact Nat.lt_succ_self _
    · exact hd.had x hx hold
    · rw [List.mem_singleton.1 hx] at hold
      exact absurd hold (Nat.not_lt.2 hd.next)
  erase p hd := hd.of_subset (contents_erase_subset _ p) rfl
  move target hd hs := hd.of_subset (contents_move_subset hs target) rfl
  write _ hd hid := hd.updateFile fun _ => ⟨rfl, .inr hid⟩
  permit _ _ hd := hd.updateFile fun _ => ⟨rfl, .inl rfl⟩

end contents

end Disk

end RigWarden
