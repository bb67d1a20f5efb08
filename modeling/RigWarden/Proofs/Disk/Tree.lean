import Mathlib.Data.List.Find
import Mathlib.Data.List.Induction
import Mathlib.Data.List.Nodup
import RigWarden.Disk.Operations

/-!
# What stands where

A disk is read through `Disk.get?`. Each way to change the tree has an equation that says what is
found at every place afterwards. In a well-formed tree everything stands in a directory, and no file
has an identity that is still to be given out.
-/

namespace RigWarden

/-- A file with its data changed, if it has that identity. -/
def Node.updated (id : Nat) (f : FileData → FileData) : Node → Node
  | file data => file (if data.id = id then f data else data)
  | n => n

namespace Disk

section places

variable {p q r : Place} {s t : String}

theorem isWithin_iff : isWithin p q = true ↔ ∃ r, q = p ++ r := by
  rw [isWithin, List.isPrefixOf_iff_prefix]
  exact ⟨fun ⟨r, h⟩ => ⟨r, h.symm⟩, fun ⟨r, h⟩ => ⟨r, h.symm⟩⟩

@[simp] theorem isWithin_append (p r : Place) : isWithin p (p ++ r) = true := isWithin_iff.2 ⟨r, rfl⟩

@[simp] theorem isWithin_self (p : Place) : isWithin p p = true := isWithin_iff.2 ⟨[], by simp⟩

theorem isWithin_trans (hpq : isWithin p q = true) (hqr : isWithin q r = true) :
    isWithin p r = true := by
  obtain ⟨a, rfl⟩ := isWithin_iff.1 hpq
  obtain ⟨b, rfl⟩ := isWithin_iff.1 hqr
  rw [List.append_assoc]
  exact isWithin_append p _

theorem isWithin_length (h : isWithin p q = true) : p.length ≤ q.length := by
  obtain ⟨r, rfl⟩ := isWithin_iff.1 h
  simp

theorem eq_of_isWithin (h : isWithin p q = true) (hlen : q.length ≤ p.length) : q = p := by
  obtain ⟨r, rfl⟩ := isWithin_iff.1 h
  rw [List.length_append] at hlen
  have hr : r = [] := List.eq_nil_of_length_eq_zero (by omega)
  rw [hr, List.append_nil]

theorem not_isWithin_of_isWithin (hp : isWithin p q = true) (hr : isWithin p r = false) :
    isWithin q r = false :=
  Bool.eq_false_iff.2 fun hw => Bool.eq_false_iff.1 hr (isWithin_trans hp hw)

/-- Of two places around a third one, one is around the other. -/
theorem isWithin_total (hp : isWithin p r = true) (hq : isWithin q r = true) :
    isWithin p q = true ∨ isWithin q p = true := by
  simp only [isWithin, List.isPrefixOf_iff_prefix] at hp hq ⊢
  exact List.prefix_or_prefix_of_prefix hp hq

/-- Of two places neither of which is around the other, none is around what lies in the other. -/
theorem isWithin_append_false (hp : isWithin p q = false) (hq : isWithin q p = false) (r : Place) :
    isWithin p (q ++ r) = false :=
  Bool.eq_false_iff.2 fun hw => (isWithin_total hw (isWithin_append q r)).elim
    (Bool.eq_false_iff.1 hp) (Bool.eq_false_iff.1 hq)

theorem isWithin_snoc : isWithin p (q ++ [s]) = true ↔ isWithin p q = true ∨ p = q ++ [s] := by
  simp only [isWithin, List.isPrefixOf_iff_prefix, List.prefix_concat_iff]
  exact or_comm

theorem isWithin_of_dropLast (h : isWithin p q.dropLast = true) : isWithin p q = true :=
  isWithin_trans h (isWithin_iff.2 ⟨q.drop (q.length - 1), by
    rw [List.dropLast_eq_take, List.take_append_drop]⟩)

end places

section reading

variable {d : Disk} {p q r : Place} {n : Node}

@[simp] theorem get?_nil (d : Disk) : d.get? [] = some .dir := rfl

theorem get?_of_ne_nil (d : Disk) (h : q ≠ []) :
    d.get? q = (d.nodes.find? (·.1 == q)).map Prod.snd := if_neg h

theorem get?_eq_none_iff (h : q ≠ []) : d.get? q = none ↔ ∀ e ∈ d.nodes, e.1 ≠ q := by
  simp [get?_of_ne_nil d h]

theorem get?_set (hp : p ≠ []) (n : Node) (q : Place) :
    (d.set p n).get? q = if q = p then some n else d.get? q := by
  by_cases hq : q = []
  · subst hq
    rw [if_neg hp.symm]
    rfl
  · rw [get?_of_ne_nil _ hq, get?_of_ne_nil d hq, set]
    split
    · next hany =>
      have hkey : (fun e : Place × Node => e.1 == q) ∘ (fun e => if e.1 == p then (p, n) else e) =
          fun e => e.1 == q := by
        funext e
        by_cases he : e.1 = p <;> simp [he]
      simp only [List.find?_map, hkey]
      cases hf : d.nodes.find? (·.1 == q) with
      | none =>
        have hne : q ≠ p := fun h => by
          obtain ⟨e, hmem, he⟩ := List.any_eq_true.1 hany
          have := List.find?_eq_none.1 hf e hmem
          simp_all
        simp [hne]
      | some e =>
        have he : e.1 = q := by simpa using List.find?_some hf
        by_cases hqp : q = p
        · simp [he, hqp]
        · simp [he, hqp]
    · next hany =>
      simp only [List.find?_append]
      cases hf : d.nodes.find? (·.1 == q) with
      | none => by_cases hqp : q = p <;> simp [hqp, eq_comm (a := p)]
      | some e =>
        have he : e.1 = q := by simpa using List.find?_some hf
        have hne : q ≠ p := fun h => hany (List.any_eq_true.2
          ⟨e, List.mem_of_find?_eq_some hf, by simp [he, h]⟩)
        simp [hne]

theorem get?_erase (d : Disk) (p q : Place) :
    (d.erase p).get? q = if q ≠ [] ∧ isWithin p q = true then none else d.get? q := by
  by_cases hq : q = []
  · simp [hq]
  · rw [get?_of_ne_nil _ hq, get?_of_ne_nil d hq, erase, List.find?_filter]
    by_cases hw : isWithin p q = true
    · rw [if_pos ⟨hq, hw⟩, Option.map_eq_none_iff, List.find?_eq_none]
      intro e _ he
      simp only [Bool.not_eq_true', beq_iff_eq, decide_eq_true_eq] at he
      rw [he.2, hw] at he
      cases he.1
    · rw [if_neg (fun h => hw h.2)]
      congr 2
      funext e
      by_cases he : e.1 = q
      · simp [he, hw]
      · simp [he]

theorem updateFile_eq (d : Disk) (id : Nat) (f : FileData → FileData) :
    d.updateFile id f = { d with nodes := d.nodes.map fun e => (e.1, e.2.updated id f) } := by
  unfold updateFile
  congr 1
  refine List.map_congr_left fun e _ => ?_
  obtain ⟨place, node⟩ := e
  cases node with
  | file data => simp only [Node.updated]; split <;> rfl
  | _ => rfl

theorem get?_updateFile (d : Disk) (id : Nat) (f : FileData → FileData) (q : Place) :
    (d.updateFile id f).get? q = (d.get? q).map (Node.updated id f) := by
  by_cases hq : q = []
  · subst hq
    rfl
  · rw [get?_of_ne_nil _ hq, get?_of_ne_nil d hq, updateFile_eq, List.find?_map, Option.map_map,
      Option.map_map]
    rfl

/-- A subtree moves to where nothing stands. -/
theorem get?_move {source target : Place} (hs : source ≠ []) (ht : target ≠ [])
    (hfree : ∀ r, d.get? (target ++ r) = none) (q : Place) :
    (d.move source target).get? q =
      if isWithin target q = true then d.get? (source ++ q.drop target.length)
      else if isWithin source q = true then none
      else d.get? q := by
  by_cases hq : q = []
  · subst hq
    rw [if_neg, if_neg]
    · rfl
    · exact fun h => hs (eq_of_isWithin h (Nat.zero_le _)).symm
    · exact fun h => ht (eq_of_isWithin h (Nat.zero_le _)).symm
  · have hout : ∀ e ∈ d.nodes, ¬ isWithin target e.1 = true := fun e he hw => by
      obtain ⟨r, hr⟩ := isWithin_iff.1 hw
      exact (get?_eq_none_iff (by simp [ht])).1 (hfree r) e he hr
    have hsnd : (Prod.snd ∘ fun e : Place × Node =>
        if isWithin source e.1 then (target ++ e.1.drop source.length, e.2) else e) = Prod.snd := by
      funext e
      simp only [Function.comp_apply]
      split <;> rfl
    rw [get?_of_ne_nil _ hq, move, List.find?_map, Option.map_map, hsnd]
    split
    · next hw =>
      obtain ⟨r, rfl⟩ := isWithin_iff.1 hw
      rw [List.drop_left, get?_of_ne_nil _ (by simp [hs])]
      congr 1
      refine List.find?_congr fun e he => ?_
      simp only [Function.comp_apply]
      split
      · next hw =>
        obtain ⟨a, ha⟩ := isWithin_iff.1 hw
        simp [ha]
      · next hw =>
        have hsource : e.1 ≠ source ++ r := fun h => hw (h ▸ isWithin_append _ _)
        have htarget : e.1 ≠ target ++ r := fun h => hout e he (h ▸ isWithin_append _ _)
        simp [hsource, htarget]
    · next hw =>
      split
      · next hsource =>
        rw [Option.map_eq_none_iff, List.find?_eq_none]
        intro e he heq
        simp only [Function.comp_apply, beq_iff_eq] at heq
        split at heq
        · exact hw (heq ▸ isWithin_append _ _)
        · next hne => exact hne (heq ▸ hsource)
      · next hsource =>
        rw [get?_of_ne_nil d hq]
        congr 1
        refine List.find?_congr fun e he => ?_
        simp only [Function.comp_apply]
        split
        · next hwe =>
          have htarget : target ++ e.1.drop source.length ≠ q := fun h =>
            hw (h ▸ isWithin_append _ _)
          have hne : e.1 ≠ q := fun h => hsource (h ▸ hwe)
          simp [htarget, hne]
        · rfl

/-- The last name of a place that lies directly in a directory. -/
def nameIn? (p q : Place) : Option String :=
  if q.length = p.length + 1 ∧ isWithin p q then q.getLast? else none

theorem nameIn?_eq_some {s : String} : nameIn? p q = some s ↔ q = p ++ [s] := by
  unfold nameIn?
  constructor
  · intro h
    split at h
    · next hc =>
      obtain ⟨r, rfl⟩ := isWithin_iff.1 hc.2
      obtain ⟨x, rfl⟩ := List.length_eq_one_iff.1 (by simpa using hc.1 : r.length = 1)
      simpa using h
    · cases h
  · rintro rfl
    simp

theorem children_eq (d : Disk) (p : Place) :
    d.children p = (d.nodes.map Prod.fst).filterMap (nameIn? p) := by
  rw [List.filterMap_map]
  rfl

theorem mem_children_iff {s : String} : s ∈ d.children p ↔ d.get? (p ++ [s]) ≠ none := by
  rw [ne_eq, get?_eq_none_iff (by simp), children_eq]
  simp [nameIn?_eq_some]

/-- The tree is one that operations can make. -/
structure WellFormed (d : Disk) : Prop where
  parent : ∀ q n, d.get? q = some n → d.get? q.dropLast = some .dir
  start : d.get? d.workingDir = some .dir
  fresh : ∀ q f, d.get? q = some (.file f) → f.id < d.nextId
  nodup : (d.nodes.map Prod.fst).Nodup

theorem mem_nodes_of_get? (hq : q ≠ []) (h : d.get? q = some n) : (q, n) ∈ d.nodes := by
  rw [get?_of_ne_nil d hq, Option.map_eq_some_iff] at h
  obtain ⟨e, he, rfl⟩ := h
  have hkey : e.1 = q := by simpa using List.find?_some he
  rw [← hkey]
  exact List.mem_of_find?_eq_some he

theorem wellFormed_of_nodes (hparent : ∀ e ∈ d.nodes, d.get? e.1.dropLast = some .dir)
    (hstart : d.get? d.workingDir = some .dir)
    (hfresh : ∀ e ∈ d.nodes, ∀ f, e.2 = .file f → f.id < d.nextId)
    (hnodup : (d.nodes.map Prod.fst).Nodup) : d.WellFormed := by
  refine ⟨fun q n hn => ?_, hstart, fun q f hf => ?_, hnodup⟩
  · by_cases hq : q = []
    · rw [hq]
      rfl
    · exact hparent _ (mem_nodes_of_get? hq hn)
  · by_cases hq : q = []
    · rw [hq] at hf
      cases hf
    · exact hfresh _ (mem_nodes_of_get? hq hf) f rfl

theorem wellFormed_empty : ({} : Disk).WellFormed :=
  wellFormed_of_nodes (by simp) rfl (by simp) (by simp)

/-- Whatever has something below it is a directory. -/
theorem WellFormed.above (h : d.WellFormed) (hr : r ≠ []) (hq : d.get? (p ++ r) ≠ none) :
    d.get? p = some .dir := by
  induction r using List.reverseRecOn with
  | nil => exact absurd rfl hr
  | append_singleton r s ih =>
    obtain ⟨n, hn⟩ := Option.ne_none_iff_exists'.1 hq
    have hd := h.parent _ n hn
    rw [← List.append_assoc, List.dropLast_concat] at hd
    by_cases hnil : r = []
    · rwa [hnil, List.append_nil] at hd
    · exact ih hnil (by rw [hd]; exact nofun)

theorem WellFormed.none_below (h : d.WellFormed) (hp : d.get? p ≠ some .dir) (hr : r ≠ []) :
    d.get? (p ++ r) = none := by
  by_contra hq
  exact hp (h.above hr hq)

theorem WellFormed.of_vacant (h : d.WellFormed) (hp : d.get? p = none) (r : Place) :
    d.get? (p ++ r) = none := by
  by_cases hr : r = []
  · rw [hr, List.append_nil, hp]
  · exact h.none_below (by rw [hp]; exact nofun) hr

@[simp] theorem workingDir_set (d : Disk) (p : Place) (n : Node) :
    (d.set p n).workingDir = d.workingDir := by
  unfold set
  split <;> rfl

@[simp] theorem nextId_set (d : Disk) (p : Place) (n : Node) : (d.set p n).nextId = d.nextId := by
  unfold set
  split <;> rfl

@[simp] theorem faults_set (d : Disk) (p : Place) (n : Node) : (d.set p n).faults = d.faults := by
  unfold set
  split <;> rfl

theorem nodes_set (hp : p ≠ []) (hv : d.get? p = none) (n : Node) :
    (d.set p n).nodes = d.nodes ++ [(p, n)] := by
  unfold set
  rw [if_neg]
  intro h
  obtain ⟨e, he, hep⟩ := List.any_eq_true.1 h
  exact (get?_eq_none_iff hp).1 hv e he (by simpa using hep)

theorem WellFormed.set (h : d.WellFormed) (hv : d.get? p = none)
    (hd : d.get? p.dropLast = some .dir) (hn : ∀ f, n = .file f → f.id < d.nextId) :
    (d.set p n).WellFormed := by
  have hp : p ≠ [] := fun he => by
    rw [he] at hv
    cases hv
  have hkeep : ∀ q, d.get? q = some .dir → (d.set p n).get? q = some .dir := fun q hq => by
    rw [get?_set hp, if_neg, hq]
    rintro rfl
    rw [hv] at hq
    cases hq
  refine ⟨fun q m hq => ?_, ?_, fun q f hq => ?_, ?_⟩
  · rw [get?_set hp] at hq
    split at hq
    · next he => exact hkeep _ (he ▸ hd)
    · exact hkeep _ (h.parent q m hq)
  · rw [workingDir_set]
    exact hkeep _ h.start
  · rw [get?_set hp] at hq
    rw [nextId_set]
    split at hq
    · exact hn f (Option.some.inj hq)
    · exact h.fresh q f hq
  · rw [nodes_set hp hv, List.map_append, List.nodup_append]
    refine ⟨h.nodup, by simp, fun x hx y hy => ?_⟩
    rintro rfl
    obtain ⟨e, he, rfl⟩ := List.mem_map.1 hx
    exact (get?_eq_none_iff hp).1 hv e he (by simpa using hy)

theorem WellFormed.withNextId (h : d.WellFormed) {k : Nat} (hk : d.nextId ≤ k) :
    { d with nextId := k }.WellFormed :=
  ⟨h.parent, h.start, fun q f hq => Nat.lt_of_lt_of_le (h.fresh q f hq) hk, h.nodup⟩

theorem set_withNextId (d : Disk) (p : Place) (n : Node) (k : Nat) :
    ({ d with nextId := k } : Disk).set p n = { d.set p n with nextId := k } := by
  unfold set
  split <;> rfl

/-- A new file gets an identity that no other has. -/
theorem WellFormed.create {mode : Nat} (h : d.WellFormed) (hv : d.get? p = none)
    (hd : d.get? p.dropLast = some .dir) :
    { d.set p (.file ⟨d.nextId, [], mode⟩) with nextId := d.nextId + 1 }.WellFormed := by
  rw [← set_withNextId]
  refine (h.withNextId (Nat.le_succ _)).set hv hd fun f hf => ?_
  cases hf
  exact Nat.lt_succ_self _

theorem WellFormed.withFaults (h : d.WellFormed) (fs : List (Option SystemError)) :
    { d with faults := fs }.WellFormed :=
  ⟨h.parent, h.start, h.fresh, h.nodup⟩

theorem WellFormed.erase (h : d.WellFormed) (hw : isWithin p d.workingDir = false) :
    (d.erase p).WellFormed := by
  refine ⟨fun q m hq => ?_, ?_, fun q f hq => ?_, ?_⟩
  · rw [get?_erase] at hq ⊢
    split at hq
    · cases hq
    · next hout =>
      rw [if_neg, h.parent q m hq]
      rintro ⟨hne, hin⟩
      exact hout ⟨fun he => hne (by rw [he]; rfl), isWithin_of_dropLast hin⟩
  · change (d.erase p).get? d.workingDir = some .dir
    rw [get?_erase, if_neg, h.start]
    rintro ⟨-, hin⟩
    rw [hw] at hin
    cases hin
  · rw [get?_erase] at hq
    split at hq
    · cases hq
    · exact h.fresh q f hq
  · exact (List.filter_sublist.map _).nodup h.nodup

/-- No two entries come to one place when a subtree moves to where nothing stands. -/
theorem nodup_move {source target : Place} (h : (d.nodes.map Prod.fst).Nodup) (ht : target ≠ [])
    (hfree : ∀ r, d.get? (target ++ r) = none) :
    ((d.move source target).nodes.map Prod.fst).Nodup := by
  have hkeys : (d.move source target).nodes.map Prod.fst = (d.nodes.map Prod.fst).map fun q =>
      if isWithin source q then target ++ q.drop source.length else q := by
    rw [Disk.move, List.map_map, List.map_map]
    refine List.map_congr_left fun e _ => ?_
    simp only [Function.comp_apply]
    split <;> rfl
  have hold : ∀ q ∈ d.nodes.map Prod.fst, isWithin target q = false := fun q hq =>
    Bool.eq_false_iff.2 fun hin => by
      obtain ⟨e, he, rfl⟩ := List.mem_map.1 hq
      obtain ⟨r, hr⟩ := isWithin_iff.1 hin
      exact (get?_eq_none_iff (by simp [ht])).1 (hfree r) e he hr
  rw [hkeys, List.Nodup, List.pairwise_map]
  refine h.imp_of_mem fun {a b} ha hb hne he => ?_
  by_cases hwa : isWithin source a = true <;> by_cases hwb : isWithin source b = true
  · obtain ⟨ra, rfl⟩ := isWithin_iff.1 hwa
    obtain ⟨rb, rfl⟩ := isWithin_iff.1 hwb
    simp only [isWithin_append, if_true, List.drop_left, List.append_cancel_left_eq] at he
    exact hne (by rw [he])
  · rw [if_pos hwa, if_neg hwb] at he
    exact Bool.eq_false_iff.1 (hold b hb) (he ▸ isWithin_append _ _)
  · rw [if_neg hwa, if_pos hwb] at he
    exact Bool.eq_false_iff.1 (hold a ha) (he ▸ isWithin_append _ _)
  · rw [if_neg hwa, if_neg hwb] at he
    exact hne he

/-- What is moved comes to a free place in a directory that does not move itself. -/
theorem WellFormed.move (h : d.WellFormed) {source target : Place} (hs : source ≠ [])
    (hv : d.get? target = none) (hdir : d.get? target.dropLast = some .dir)
    (hself : isWithin source target = false) (hw : isWithin source d.workingDir = false) :
    (d.move source target).WellFormed := by
  have ht : target ≠ [] := fun he => by
    rw [he] at hv
    cases hv
  have hfree := h.of_vacant hv
  have hget := get?_move hs ht hfree
  have hout : ∀ q, isWithin target q = false → isWithin source q = false →
      (d.move source target).get? q = d.get? q := fun q hq hq' => by
    rw [hget, if_neg (Bool.eq_false_iff.1 hq), if_neg (Bool.eq_false_iff.1 hq')]
  have hup : ∀ {p q : Place}, isWithin p q = false → isWithin p q.dropLast = false := fun hq =>
    Bool.eq_false_iff.2 fun hw => Bool.eq_false_iff.1 hq (isWithin_of_dropLast hw)
  have habove : isWithin target target.dropLast = false := Bool.eq_false_iff.2 fun hw => by
    have hlen := isWithin_length hw
    have hpos := List.length_pos_of_ne_nil ht
    rw [List.length_dropLast] at hlen
    omega
  refine ⟨fun q m hq => ?_, ?_, fun q f hq => ?_, nodup_move h.nodup ht hfree⟩
  · rw [hget] at hq
    split at hq
    · next hin =>
      obtain ⟨r, rfl⟩ := isWithin_iff.1 hin
      rw [List.drop_left] at hq
      by_cases hr : r = []
      · rw [hr, List.append_nil, hout _ habove (hup hself), hdir]
      · rw [List.dropLast_append_of_ne_nil hr, hget, if_pos (isWithin_append _ _), List.drop_left,
          ← List.dropLast_append_of_ne_nil hr]
        exact h.parent _ m hq
    · next hin =>
      split at hq
      · cases hq
      · next hin' =>
        rw [hout _ (hup (Bool.eq_false_iff.2 hin)) (hup (Bool.eq_false_iff.2 hin'))]
        exact h.parent q m hq
  · change (d.move source target).get? d.workingDir = some .dir
    rw [hout _ (Bool.eq_false_iff.2 fun hin => ?_) hw, h.start]
    obtain ⟨r, hr⟩ := isWithin_iff.1 hin
    have hstart := h.start
    rw [hr, hfree] at hstart
    cases hstart
  · rw [hget] at hq
    split at hq
    · exact h.fresh _ f hq
    · split at hq
      · cases hq
      · exact h.fresh q f hq

theorem WellFormed.updateFile (h : d.WellFormed) (id : Nat) {f : FileData → FileData}
    (hf : ∀ data, (f data).id = data.id) : (d.updateFile id f).WellFormed := by
  have hdir : ∀ q, (d.updateFile id f).get? q = some .dir ↔ d.get? q = some .dir := fun q => by
    rw [get?_updateFile]
    cases d.get? q with
    | none => simp
    | some n => cases n <;> simp [Node.updated]
  refine ⟨fun q m hq => ?_, ?_, fun q data hq => ?_, ?_⟩
  · rw [get?_updateFile] at hq
    obtain ⟨m', hm', -⟩ := Option.map_eq_some_iff.1 hq
    exact (hdir _).2 (h.parent q m' hm')
  · exact (hdir _).2 h.start
  · rw [get?_updateFile] at hq
    obtain ⟨m', hm', heq⟩ := Option.map_eq_some_iff.1 hq
    cases m' with
    | file old =>
      cases heq
      have hold := h.fresh q old hm'
      split
      · exact (hf old).symm ▸ hold
      · exact hold
    | _ => cases heq
  · rw [updateFile_eq]
    simpa [List.map_map, Function.comp_def] using h.nodup

/-- A change to a newer file changes nothing here. -/
theorem WellFormed.map_updated (h : d.WellFormed) {id : Nat} (hid : d.nextId ≤ id)
    (f : FileData → FileData) (q : Place) : (d.get? q).map (Node.updated id f) = d.get? q := by
  cases hn : d.get? q with
  | none => rfl
  | some n =>
    cases n with
    | file data =>
      have hne : data.id ≠ id := Nat.ne_of_lt (Nat.lt_of_lt_of_le (h.fresh q data hn) hid)
      simp [Node.updated, hne]
    | _ => rfl

theorem WellFormed.children_nodup (h : d.WellFormed) (p : Place) : (d.children p).Nodup := by
  rw [children_eq]
  refine h.nodup.filterMap fun a b s ha hb => ?_
  rw [nameIn?_eq_some.1 ha, nameIn?_eq_some.1 hb]

end reading

end Disk
end RigWarden
