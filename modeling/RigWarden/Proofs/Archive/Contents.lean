import RigWarden.Proofs.Archive.Staging
import RigWarden.Proofs.Disk.Making

/-!
# What an archive is unpacked to

The entries of an archive make a tree: at each place stands the last file of that name, or a
directory if an entry lies there or below. When no file is in the way of another entry and nothing
fails, the archive is unpacked to just this tree.
-/

namespace RigWarden

open Disk

/-- What stands in a place, whichever file it is. -/
def Node.anonymous : Node → Node
  | file f => file { f with id := 0 }
  | n => n

/-- Nothing stands below a file. -/
theorem Disk.WellFormed.none_of_file {d : Disk} (hd : d.WellFormed) {q r : Place} {f : FileData}
    (hq : d.get? q = some (.file f)) (hr : r ≠ q) (hw : isWithin q r = true) : d.get? r = none := by
  obtain ⟨t, rfl⟩ := isWithin_iff.1 hw
  refine hd.none_below (by rw [hq]; exact nofun) fun ht => hr ?_
  rw [ht, List.append_nil]

namespace Archive

/-- The names that are left of an entry. -/
def Entry.names (e : Entry) (strip : Nat) : Place := (stripped strip e.name).filterMap plainName?

/-- What is made of an entry. -/
def Entry.node (e : Entry) (id : Nat) : Node :=
  if e.isDir then .dir else .file ⟨id, e.data, permissions e.mode⟩

/-- What stands at a place in the tree that the entries make. -/
def contents (strip : Nat) (es : List Entry) (q : Place) : Option Node :=
  match es.reverse.find? fun e => !e.isDir && e.names strip == q with
  | some e => some (.file ⟨0, e.data, permissions e.mode⟩)
  | none => if es.any fun e => isWithin q (e.names strip) then some .dir else none

/-- An archive of files and directories with plain names in which no file is in the way of another
entry, unless both are files of the same name. -/
structure Sound (strip : Nat) (es : List Entry) : Prop where
  kind : ∀ e ∈ es, e.kind = .file ∨ e.kind = .dir
  plain : ∀ e ∈ es, ∀ c ∈ stripped strip e.name, ∃ s, c = .name s
  apart : ∀ e ∈ es, ∀ f ∈ es, e.isDir = false → e.names strip ≠ [] →
    isWithin (e.names strip) (f.names strip) = true →
      f.isDir = false ∧ f.names strip = e.names strip

section contents

variable {strip : Nat} {es : List Entry} {e : Entry} {q : Place}

@[simp] theorem Node.anonymous_eq_dir {n : Node} : n.anonymous = .dir ↔ n = .dir := by
  cases n <;> simp [Node.anonymous]

theorem Entry.anonymous_node (e : Entry) (id : Nat) : (e.node id).anonymous = e.node 0 := by
  unfold Entry.node
  split <;> rfl

theorem Sound.left {fs : List Entry} (h : Sound strip (es ++ fs)) : Sound strip es :=
  ⟨fun e he => h.kind e (List.mem_append_left _ he), fun e he => h.plain e (List.mem_append_left _ he),
    fun e he f hf => h.apart e (List.mem_append_left _ he) f (List.mem_append_left _ hf)⟩

/-- A file stands in the tree only where one was packed. -/
theorem contents_cases {n : Node} (h : contents strip es q = some n) :
    (∃ e ∈ es, e.isDir = false ∧ e.names strip = q ∧ n = e.node 0) ∨
      n = .dir ∧ (∃ e ∈ es, isWithin q (e.names strip) = true) ∧
        ∀ e ∈ es, e.isDir = false → e.names strip ≠ q := by
  unfold contents at h
  split at h
  · next e he =>
    have hpred := List.find?_some he
    simp only [Bool.and_eq_true, Bool.not_eq_true', beq_iff_eq] at hpred
    refine .inl ⟨e, List.mem_reverse.1 (List.mem_of_find?_eq_some he), hpred.1, hpred.2, ?_⟩
    rw [Entry.node, hpred.1]
    exact (Option.some.inj h).symm
  · next hnone =>
    split at h
    · next hany =>
      refine .inr ⟨(Option.some.inj h).symm, List.any_eq_true.1 hany, fun e he hdir hq => ?_⟩
      refine List.find?_eq_none.1 hnone e (List.mem_reverse.2 he) ?_
      simp [hdir, hq]
    · cases h

theorem contents_of_file (he : e ∈ es) (hfile : e.isDir = false) (hq : e.names strip = q) :
    ∃ f, contents strip es q = some (.file f) := by
  unfold contents
  split
  · exact ⟨_, rfl⟩
  · next hnone =>
    refine absurd (List.find?_eq_none.1 hnone e (List.mem_reverse.2 he)) ?_
    simp [hfile, hq]

/-- Something stands in the tree only on the way to an entry. -/
theorem exists_within (h : contents strip es q ≠ none) :
    ∃ e ∈ es, isWithin q (e.names strip) = true := by
  obtain ⟨n, hn⟩ := Option.ne_none_iff_exists'.1 h
  rcases contents_cases hn with ⟨e, he, -, rfl, -⟩ | ⟨-, hsome, -⟩
  · exact ⟨e, he, isWithin_self _⟩
  · exact hsome

/-- An entry replaces what was at its place, and is in directories. -/
theorem contents_concat (h : Sound strip (es ++ [e])) (hq : q ≠ []) :
    contents strip (es ++ [e]) q =
      if q = e.names strip then some (e.node 0)
      else if isWithin q (e.names strip) then some .dir
      else contents strip es q := by
  have hnone : isWithin q (e.names strip) = true → (q = e.names strip → e.isDir = true) →
      es.reverse.find? (fun f => !f.isDir && f.names strip == q) = none := by
    intro hw hdir
    refine List.find?_eq_none.2 fun f hf hpred => ?_
    simp only [Bool.and_eq_true, Bool.not_eq_true', beq_iff_eq] at hpred
    obtain ⟨hfile, rfl⟩ := hpred
    obtain ⟨hno, hsame⟩ := h.apart f (List.mem_append_left _ (List.mem_reverse.1 hf)) e (by simp)
      hfile hq hw
    rw [hdir hsame.symm] at hno
    cases hno
  unfold contents
  rw [List.reverse_append, List.reverse_singleton, List.singleton_append, List.find?_cons,
    List.any_append]
  by_cases hname : q = e.names strip
  · subst hname
    cases hdir : e.isDir with
    | false => simp [Entry.node, hdir]
    | true =>
      rw [hnone (isWithin_self _) fun _ => hdir]
      simp [Entry.node, hdir]
  · have hname' : (e.names strip == q) = false := beq_eq_false_iff_ne.2 (Ne.symm hname)
    rw [hname', Bool.and_false, if_neg hname]
    by_cases hw : isWithin q (e.names strip) = true
    · simp [hw, hnone hw fun he => absurd he hname]
    · simp [hw]

end contents

section placing

variable {d mid : Disk} {base p : Path} {P place : Place} {m mode : Nat} {ns : List String}
  {s : String} {A : Place → Prop} {e : Entry}

theorem replacing_created {α : Type} {make : DiskM α} {a : α} (h : make d = (.ok a, mid)) :
    replacing p make d = (.ok a, mid) := by
  rw [replacing, h]

theorem replacing_taken {α : Type} {make : DiskM α} (h : make d = (.error .alreadyExists, d)) :
    replacing p make d = (do Disk.removeFile p; make : DiskM α) d := by
  rw [replacing, h]

/-- A new file takes a free name, or the name of a file. -/
theorem createNew_replacing (hd : d.WellFormed) (hcalm : d.faults = []) (hl : d.LeadsTo A base m P)
    (hns : Accepted base (ns ++ [s])) (hdir : d.get? (P ++ ns) = some .dir)
    (hfree : ∀ n, d.get? (P ++ ns ++ [s]) = some n → ∃ f, n = .file f) :
    ∃ after, replacing (Path.below base (ns ++ [s])) (createNew (Path.below base (ns ++ [s])) mode) d =
        (.ok d.nextId, after) ∧ after.faults = [] ∧
      ∀ q, after.get? q = if q = P ++ ns ++ [s] then some (.file ⟨d.nextId, [], mode⟩)
        else d.get? q := by
  have hfind := find_below hd hl hns hdir
  cases hn : d.get? (P ++ ns ++ [s]) with
  | none =>
    rw [hn] at hfind
    exact ⟨_, replacing_created (createNew_vacant hcalm hfind mode), by simpa using hcalm,
      get?_set (by simp) _⟩
  | some n =>
    obtain ⟨f, rfl⟩ := hfree n hn
    rw [hn] at hfind
    have hout : ∀ q, q ≠ P ++ ns ++ [s] → (d.erase (P ++ ns ++ [s])).get? q = d.get? q := by
      intro q hq
      rw [get?_erase]
      split
      · next hw => rw [hd.none_of_file hn hq hw.2]
      · rfl
    have haway : isWithin (P ++ ns ++ [s]) d.workingDir = false := Bool.eq_false_iff.2 fun hw => by
      have hstart := hd.start
      by_cases he : d.workingDir = P ++ ns ++ [s]
      · rw [he, hn] at hstart
        cases hstart
      · rw [hd.none_of_file hn he hw] at hstart
        cases hstart
    have hl' : (d.erase (P ++ ns ++ [s])).LeadsTo Anywhere base m P :=
      hl.mono fun q n _ hq hfile => ⟨trivial, by
        rw [hout q fun he => ?_, hq]
        rw [he, hn] at hq
        exact hfile f (Option.some.inj hq).symm⟩
    have hdir' : (d.erase (P ++ ns ++ [s])).get? (P ++ ns) = some .dir := by
      rw [hout _ (by simp), hdir]
    have hfind' := find_below (hd.erase haway) hl' hns hdir'
    rw [get?_erase, if_pos ⟨by simp, isWithin_self _⟩] at hfind'
    have hcreated := createNew_vacant (d := d.erase (P ++ ns ++ [s])) hcalm hfind' mode
    have hrun : replacing (Path.below base (ns ++ [s]))
        (createNew (Path.below base (ns ++ [s])) mode) d =
        createNew (Path.below base (ns ++ [s])) mode (d.erase (P ++ ns ++ [s])) := by
      rw [replacing_taken (createNew_taken hcalm hfind mode), bind_apply,
        removeFile_calm hcalm hfind nofun]
    refine ⟨_, hrun.trans hcreated, (faults_set _ _ _).trans hcalm, fun q => ?_⟩
    refine (get?_set (by simp) _ q).trans ?_
    split
    · rfl
    · next hq => exact hout q hq

theorem fill_calm (hcalm : d.faults = []) (id : Nat) (bs : Text.Bytes) (mode : Nat) :
    (do append id bs; setMode id mode : DiskM Unit) d =
      (.ok (), (d.updateFile id fun f => { f with data := f.data ++ bs }).updateFile id
        fun f => { f with mode := mode }) := by
  rw [bind_apply, append_calm hcalm]
  exact setMode_calm (d := d.updateFile id fun f => { f with data := f.data ++ bs }) hcalm id mode

/-- An entry is put in a directory, in the place of a like one if there is one. -/
theorem Entry.place_calm (hd : d.WellFormed) (hcalm : d.faults = []) (hl : d.LeadsTo A base m P)
    (hns : Accepted base (ns ++ [s])) (hdir : d.get? (P ++ ns) = some .dir)
    (hpass : Passable d P ns) (hkind : e.kind ≠ .symlink)
    (hlike : ∀ n, d.get? (P ++ ns ++ [s]) = some n → if e.isDir then n = .dir else ∃ f, n = .file f) :
    ∃ after, e.place (Path.below base (ns ++ [s])) d = (.ok (), after) ∧ after.faults = [] ∧
      ∀ q, after.get? q = if q = P ++ ns ++ [s] then some (e.node d.nextId) else d.get? q := by
  unfold Entry.place Entry.node
  by_cases hisDir : e.isDir = true
  · simp only [hisDir, if_true] at hlike ⊢
    have hpass' : Passable d P (ns ++ [s]) := fun as n has hn => by
      rcases List.prefix_concat_iff.1 has with rfl | has
      · exact hlike n (by rwa [List.append_assoc])
      · exact hpass as n has hn
    obtain ⟨after, hfurn, hmk⟩ := ensureDir_below hd hcalm hl hns hpass' hdir
    refine ⟨after, hmk, hfurn.calm, fun q => ?_⟩
    split
    · next hq => exact hfurn.made q hq
    · next hq => exact hfurn.kept q hq
  · simp only [hisDir, if_false, hkind, Bool.false_eq_true] at hlike ⊢
    obtain ⟨mid, hmk, hcalm', hget⟩ := createNew_replacing hd hcalm hl hns hdir
      hlike
    have hfill := fill_calm hcalm' d.nextId e.data (permissions e.mode)
    refine ⟨(mid.updateFile d.nextId fun f => { f with data := f.data ++ e.data }).updateFile d.nextId
      fun f => { f with mode := permissions e.mode }, ?_, hcalm', fun q => ?_⟩
    · rw [bind_apply, hmk]
      exact hfill
    · rw [get?_updateFile, get?_updateFile, hget]
      split
      · simp [Node.updated]
      · rw [hd.map_updated (Nat.le_refl _), hd.map_updated (Nat.le_refl _)]

end placing

/-- What was unpacked stands below `P` as the entries say, each file with an identity of its own. -/
structure Layout (base : Disk) (P : Place) (strip : Nat) (es : List Entry) (d : Disk) : Prop
    extends Staged base P d where
  calm : d.faults = []
  shows : ∀ q, q ≠ [] → (d.get? (P ++ q)).map Node.anonymous = contents strip es q
  own : ∀ q r f g, d.get? (P ++ q) = some (.file f) → d.get? (P ++ r) = some (.file g) →
    f.id = g.id → q = r

section layout

variable {base d : Disk} {P : Place} {strip : Nat} {es fs : List Entry} {e : Entry} {root : Path}
  {a : String} {goOn : Nat → Except Error Unit}

theorem Sound.fault? (h : Sound strip es) (he : e ∈ es) : e.fault? (stripped strip e.name) = none := by
  have hplain : ((stripped strip e.name).any (plainName? · |>.isNone)) = false := by
    refine List.any_eq_false.2 fun c hc => ?_
    obtain ⟨s, rfl⟩ := h.plain e he c hc
    simp [plainName?]
  unfold Entry.fault?
  rw [hplain, if_neg Bool.false_ne_true]
  rcases h.kind e he with hk | hk <;> rw [hk]

theorem Layout.of_site (h : Site base (Path.join root a) P) (hcalm : base.faults = []) :
    Layout base P strip [] base := by
  have hempty : ∀ q, q ≠ [] → base.get? (P ++ q) = none := fun q hq =>
    h.empty _ ⟨isWithin_append P q, fun he => hq (by simpa using he)⟩
  refine ⟨h.staged, hcalm, fun q hq => by rw [hempty q hq]; rfl, fun q _ f _ hf _ _ => ?_⟩
  by_cases hq : q = []
  · rw [hq, List.append_nil, h.dir] at hf
    cases hf
  · rw [hempty q hq] at hf
    cases hf

/-- What stands on the way down to an entry is a directory, and what stands in its place is like it. -/
theorem Layout.node_cases (h : Layout base P strip es d) (hs : Sound strip (es ++ [e])) {q : Place}
    (hq : q ≠ []) (hw : isWithin q (e.names strip) = true) {n : Node}
    (hn : d.get? (P ++ q) = some n) :
    n = .dir ∧ (q = e.names strip → e.isDir = true) ∨
      q = e.names strip ∧ e.isDir = false ∧ ∃ f, n = .file f := by
  have hshow := h.shows q hq
  rw [hn] at hshow
  rcases contents_cases hshow.symm with ⟨f, hf, hfile, rfl, hnode⟩ | ⟨hdir, ⟨g, hg, hwg⟩, hnone⟩
  · obtain ⟨hno, hsame⟩ := hs.apart f (List.mem_append_left _ hf) e (by simp) hfile hq hw
    refine .inr ⟨hsame.symm, hno, ?_⟩
    cases n with
    | file f => exact ⟨f, rfl⟩
    | _ => simp [Node.anonymous, Entry.node, hfile] at hnode
  · refine .inl ⟨Node.anonymous_eq_dir.1 hdir, fun he => ?_⟩
    by_contra hfile
    rw [Bool.not_eq_true] at hfile
    obtain ⟨hno, hsame⟩ := hs.apart e (by simp) g (List.mem_append_left _ hg) hfile (he ▸ hq)
      (he ▸ hwg)
    exact hnone g hg hno (hsame.trans he.symm)

theorem isWithin_eq_true_iff {p q : Place} : isWithin p q = true ↔ p <+: q := by
  rw [isWithin, List.isPrefixOf_iff_prefix]

/-- A first part of the way down to an entry. -/
theorem within_names {ns as : List String} {s : String} (hns : e.names strip = ns ++ [s])
    (has : as <+: ns) : isWithin as (e.names strip) = true ∧ as ≠ e.names strip := by
  rw [isWithin_eq_true_iff, hns]
  refine ⟨has.trans (List.prefix_append _ _), fun heq => ?_⟩
  have hlen := has.length_le
  rw [heq, List.length_append, List.length_singleton] at hlen
  omega

theorem names_notOnWay {ns : List String} {s : String} (hns : e.names strip = ns ++ [s]) :
    ¬ OnWay P ns (P ++ e.names strip) := by
  rintro ⟨as, has, heq⟩
  exact (within_names hns has).2 (List.append_cancel_left heq).symm

theorem Layout.passable (h : Layout base P strip es d) (hs : Sound strip (es ++ [e]))
    (hP : d.get? P = some .dir) {ns : List String} {s : String} (hns : e.names strip = ns ++ [s]) :
    Passable d P ns := fun as n has hn => by
  by_cases hnil : as = []
  · rw [hnil, List.append_nil, hP] at hn
    exact (Option.some.inj hn).symm
  · obtain ⟨hw, hne⟩ := within_names hns has
    rcases h.node_cases hs hnil hw hn with ⟨hdir, -⟩ | ⟨heq, -⟩
    · exact hdir
    · exact absurd heq hne

/-- What the disk holds when one more entry was unpacked. -/
theorem Layout.unpack_calm (h : Layout base P strip es d) (hsite : Site base (Path.join root a) P)
    (ha : Path.Plain a) (hs : Sound strip (es ++ [e])) {ns : List String} {s : String}
    (hns : e.names strip = ns ++ [s]) (hacc : Accepted (Path.join root a) (ns ++ [s])) :
    ∃ after, e.unpack (Path.join root a) strip d = (.ok true, after) ∧ after.faults = [] ∧
      (∀ q, OnWay P ns q → after.get? q = some .dir) ∧
      ∀ q, ¬ OnWay P ns q → after.get? q = if q = P ++ e.names strip then some (e.node d.nextId)
        else d.get? q := by
  have he : e ∈ es ++ [e] := by simp
  obtain ⟨m, hl⟩ := h.toStagedAs.leads hsite
  have hP : d.get? P = some .dir := by rw [h.outside P fun hb => hb.2 rfl, hsite.dir]
  have hpass := h.passable hs hP hns
  have hinit := hacc.of_concat (below_ne_empty (join_ne_empty root ha)
    fun x hx => hacc.plain x (List.mem_append_left _ hx))
  obtain ⟨mid, hmid, hmk⟩ := makeDirs_below ha h.wellFormed h.calm hl hP hinit hpass
  have hpart : Part d mid := hmid.part fun q n ⟨as, has, hq⟩ hn => hpass as n has (hq ▸ hn)
  have hpass' : Passable mid P ns := fun as n has hn => by
    rw [hmid.made _ ⟨as, has, rfl⟩] at hn
    exact (Option.some.inj hn).symm
  have hkind : e.kind ≠ .symlink := by
    rcases hs.kind e he with hk | hk <;> rw [hk] <;> exact nofun
  have hlike : ∀ n, mid.get? (P ++ ns ++ [s]) = some n →
      if e.isDir then n = .dir else ∃ f, n = .file f := by
    intro n hn
    rw [List.append_assoc, ← hns, hmid.kept _ (names_notOnWay hns)] at hn
    rcases h.node_cases hs (by simp [hns]) (isWithin_self _) hn with ⟨rfl, hdir⟩ | ⟨-, hfile, hf⟩
    · rw [hdir rfl]
      exact rfl
    · rw [hfile]
      exact hf
  obtain ⟨after, hplace, hcalm, hget⟩ := Entry.place_calm hmid.wellFormed hmid.calm
    (hpart.leadsTo hl) hacc (hmid.made _ (onWay_self P ns)) hpass' hkind hlike
  rw [List.append_assoc, ← hns, hmid.next] at hget
  refine ⟨after, ?_, hcalm, fun q hq => ?_, fun q hq => ?_⟩
  · have hparts : stripped strip e.name ≠ [] := fun hnil => by
      rw [Entry.names, hnil] at hns
      simp at hns
    have hpath := Path.join_intercalate (Path.join root a) (by simp) hacc.plain
    have hparent := Path.parent?_below root ha hinit.plain (hacc.plain s (by simp))
    rw [List.cons_append, Path.below_cons, Path.below_cons] at hparent
    simp only [Entry.unpack, if_neg hparts, hs.fault? he]
    rw [show (stripped strip e.name).filterMap plainName? = ns ++ [s] from hns, hpath, hparent,
      bind_apply, unpacking, bind_apply, Option.getD_some, hmk]
    simp only [hplace]
    rfl
  · rw [hget, if_neg fun heq => names_notOnWay hns (heq ▸ hq), hmid.made q hq]
  · rw [hget, hmid.kept q hq]

/-- One more entry is unpacked in its place. -/
theorem Layout.unpack_entry (h : Layout base P strip es d) (hsite : Site base (Path.join root a) P)
    (ha : Path.Plain a) (hs : Sound strip (es ++ [e]))
    (hacc : Accepted (Path.join root a) (e.names strip)) :
    ∃ after, e.unpack (Path.join root a) strip d = (.ok (decide (e.names strip ≠ [])), after) ∧
      Layout base P strip (es ++ [e]) after := by
  rcases List.eq_nil_or_concat (e.names strip) with hnil | ⟨ns, s, hns⟩
  · have hparts : stripped strip e.name = [] := by
      refine List.eq_nil_iff_forall_not_mem.2 fun c hc => ?_
      obtain ⟨s, rfl⟩ := hs.plain e (by simp) c hc
      have hmem : s ∈ e.names strip := List.mem_filterMap.2 ⟨_, hc, rfl⟩
      rw [hnil] at hmem
      cases hmem
    refine ⟨d, ?_, h.toStagedAs, h.calm, fun q hq => ?_, h.own⟩
    · simp only [Entry.unpack, hparts, hnil]
      rfl
    · have hw : ¬ isWithin q [] = true := fun hw => hq (List.prefix_nil.1 (isWithin_eq_true_iff.1 hw))
      rw [contents_concat hs hq, hnil, if_neg hq, if_neg hw, h.shows q hq]
  rw [List.concat_eq_append] at hns
  obtain ⟨after, hrun, hcalm, hway, hget⟩ := h.unpack_calm hsite ha hs hns (hns ▸ hacc)
  have hfiles : ∀ q f, after.get? (P ++ q) = some (.file f) →
      q = e.names strip ∧ f.id = d.nextId ∨ d.get? (P ++ q) = some (.file f) := by
    intro q f hf
    by_cases hq : OnWay P ns (P ++ q)
    · rw [hway _ hq] at hf
      cases hf
    · rw [hget _ hq] at hf
      split at hf
      · next heq =>
        refine .inl ⟨List.append_cancel_left heq, ?_⟩
        unfold Entry.node at hf
        split at hf
        · cases hf
        · cases hf
          rfl
      · exact .inr hf
  have hstaged := (keeps_entry hsite (e.namedAs_plain strip) d h.toStagedAs _ _ hrun).1
  refine ⟨after, by simpa [hns] using hrun, hstaged, hcalm, fun q hq => ?_, fun q r f g hf hg hid => ?_⟩
  · rw [contents_concat hs hq]
    by_cases hon : OnWay P ns (P ++ q)
    · rw [hway _ hon]
      obtain ⟨as, has, heq⟩ := hon
      obtain rfl := List.append_cancel_left heq
      obtain ⟨hw, hne⟩ := within_names hns has
      rw [if_neg hne, if_pos hw]
      rfl
    · rw [hget _ hon]
      by_cases hname : q = e.names strip
      · rw [if_pos (by rw [hname]), if_pos hname, Option.map_some, Entry.anonymous_node]
      · have hnot : ¬ isWithin q (e.names strip) = true := fun hw => by
          rw [isWithin_eq_true_iff, hns, List.prefix_concat_iff, ← hns] at hw
          rcases hw with heq | has
          · exact hname heq
          · exact hon ⟨q, has, rfl⟩
        rw [if_neg fun heq => hname (List.append_cancel_left heq), if_neg hname, if_neg hnot,
          h.shows q hq]
  · rcases hfiles q f hf with ⟨rfl, hf'⟩ | hf' <;> rcases hfiles r g hg with ⟨rfl, hg'⟩ | hg'
    · rfl
    · exact absurd (hid.symm.trans hf') (Nat.ne_of_lt (h.wellFormed.fresh _ g hg'))
    · exact absurd (hid.trans hg') (Nat.ne_of_lt (h.wellFormed.fresh _ f hf'))
    · exact h.own q r f g hf' hg' hid

/-- The entries are unpacked one after the other. -/
theorem Layout.unpackFrom_calm (h : Layout base P strip es d) (hsite : Site base (Path.join root a) P)
    (ha : Path.Plain a) (hs : Sound strip (es ++ fs)) (hgo : ∀ n, goOn n = .ok ())
    (hacc : ∀ e ∈ fs, Accepted (Path.join root a) (e.names strip)) (index : Nat) :
    ∃ after, unpackFrom goOn (Path.join root a) strip index (fs.map .entry) d =
        (.ok (fs.countP fun e => e.names strip ≠ []), after) ∧
      Layout base P strip (es ++ fs) after := by
  induction fs generalizing es d index with
  | nil => exact ⟨d, rfl, by rwa [List.append_nil]⟩
  | cons e fs ih =>
    rw [List.append_cons] at hs ⊢
    obtain ⟨mid, hrun, hmid⟩ := h.unpack_entry hsite ha hs.left (hacc e List.mem_cons_self)
    obtain ⟨after, hrest, hafter⟩ := ih hmid hs (fun f hf => hacc f (List.mem_cons_of_mem _ hf))
      (index + 1)
    refine ⟨after, ?_, hafter⟩
    rw [List.map_cons, unpackFrom, bind_apply, hgo]
    simp only [TaskM.ofExcept, bind_apply, hrun, hrest, List.countP_cons]
    split <;> simp_all <;> rfl

/-- An archive that holds something is unpacked to the tree of its entries. -/
theorem unpack_calm (hsite : Site base (Path.join root a) P) (hcalm : base.faults = [])
    (ha : Path.Plain a) (hs : Sound strip es) (hgo : ∀ n, goOn n = .ok ())
    (hacc : ∀ e ∈ es, Accepted (Path.join root a) (e.names strip))
    (hsome : ∃ e ∈ es, e.names strip ≠ []) :
    ∃ after, unpack goOn (Path.join root a) strip (es.map .entry) base = (.ok (), after) ∧
      Layout base P strip es after := by
  have hnothing : Layout base P strip [] base := .of_site hsite hcalm
  obtain ⟨after, hrun, hlay⟩ := hnothing.unpackFrom_calm hsite ha hs hgo hacc 0
  refine ⟨after, ?_, hlay⟩
  have hcount : (es.countP fun e => e.names strip ≠ []) ≠ 0 := by
    obtain ⟨e, he, hne⟩ := hsome
    exact Nat.ne_of_gt (List.countP_pos_iff.2 ⟨e, he, by simpa using hne⟩)
  rw [unpack, bind_apply, hrun]
  simp only [if_neg hcount]
  rfl

end layout

end Archive
end RigWarden
