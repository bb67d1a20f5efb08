import RigWarden.Archive.Unpack
import RigWarden.Proofs.Disk.PathSteps
import RigWarden.Proofs.Disk.Ways

/-!
# What operations do to a disk

A property of the disk is kept by a procedure if it holds afterwards whatever happens on the way.
Since every operation can be made to fail, a procedure can be cut short after any of its operations;
what it keeps holds at each of these points. For each operation there is one lemma that says which
changes have to be looked at.
-/

namespace RigWarden

open Disk

/-- A procedure goes on with its first result, or ends with its first error. -/
theorem bind_apply {ε α β : Type} (x : ExceptT ε (StateM Disk) α)
    (f : α → ExceptT ε (StateM Disk) β) (d : Disk) :
    (x >>= f) d = match x d with
      | (.ok a, mid) => f a mid
      | (.error e, mid) => (.error e, mid) := by
  simp only [Bind.bind, ExceptT.bind, ExceptT.mk, StateT.bind]
  rcases x d with ⟨_ | a, mid⟩ <;> rfl

theorem bind_cases {ε α β : Type} {x : ExceptT ε (StateM Disk) α}
    {f : α → ExceptT ε (StateM Disk) β} {d after : Disk} {r : Except ε β}
    (h : (x >>= f) d = (r, after)) :
    (∃ e, r = .error e ∧ x d = (.error e, after)) ∨
      ∃ a mid, x d = (.ok a, mid) ∧ f a mid = (r, after) := by
  rw [bind_apply] at h
  rcases hx : x d with ⟨e | a, mid⟩ <;> rw [hx] at h
  · cases h
    exact .inl ⟨e, rfl, rfl⟩
  · exact .inr ⟨a, mid, rfl, h⟩

section outcomes

variable {d after : Disk}

theorem doing_ok {α : Type} {what : String} {op : DiskM α} {a : α}
    (h : TaskM.doing what op d = (.ok a, after)) : op d = (.ok a, after) := by
  unfold TaskM.doing at h
  rcases hop : op d with ⟨_ | b, mid⟩ <;> rw [hop] at h <;> cases h
  rfl

theorem doing_error {α : Type} {what : String} {op : DiskM α} {e : Error}
    (h : TaskM.doing what op d = (.error e, after)) : ∃ cause, op d = (.error cause, after) := by
  unfold TaskM.doing at h
  rcases hop : op d with ⟨cause | b, mid⟩ <;> rw [hop] at h <;> cases h
  exact ⟨cause, rfl⟩

theorem of_doing {α : Type} {what : String} {op : DiskM α} {r : Except Error α}
    (h : TaskM.doing what op d = (r, after)) : ∃ r, op d = (r, after) := by
  rcases r with _ | a
  · obtain ⟨cause, hop⟩ := doing_error h
    exact ⟨.error cause, hop⟩
  · exact ⟨.ok a, doing_ok h⟩

/-- An operation that fails does nothing. -/
theorem attempt_error {α : Type} {op : Disk → Except SystemError (α × Disk)} {e : SystemError}
    (h : attempt op d = (.error e, after)) : ∃ fs, after = { d with faults := fs } := by
  unfold attempt at h
  split at h
  · cases h
    exact ⟨_, rfl⟩
  · simp only at h
    split at h <;> cases h
    exact ⟨_, rfl⟩

theorem attempt_ok {α : Type} {op : Disk → Except SystemError (α × Disk)} {a : α}
    (h : attempt op d = (.ok a, after)) :
    op { d with faults := d.faults.drop 1 } = .ok (a, after) := by
  unfold attempt at h
  split at h
  · cases h
  · simp only at h
    split at h
    · next hop =>
      cases h
      exact hop
    · cases h

/-- When no failure is to come, an operation does what it does. -/
theorem attempt_calm {α : Type} {op : Disk → Except SystemError (α × Disk)} (h : d.faults = []) :
    attempt op d = match op d with
      | .ok (a, after) => (.ok a, after)
      | .error e => (.error e, d) := by
  obtain ⟨nodes, workingDir, nextId, faults⟩ := d
  subst h
  rfl

end outcomes

/-- From a disk with `I` comes one with `I`, and a result with `Q` if there is one. -/
def Keeps {ε α : Type} (I : Disk → Prop) (x : ExceptT ε (StateM Disk) α) (Q : α → Prop) : Prop :=
  ∀ d, I d → ∀ r after, x d = (r, after) → I after ∧ ∀ a, r = .ok a → Q a

/-- The property does not depend on the failures that are to come. -/
def Blind (I : Disk → Prop) : Prop := ∀ d fs, I d → I { d with faults := fs }

/-- The property stays when the next failure is over. -/
def Fading (I : Disk → Prop) : Prop := ∀ d, I d → I { d with faults := d.faults.drop 1 }

theorem Blind.fading {I : Disk → Prop} (h : Blind I) : Fading I := fun d hd => h d _ hd

namespace Keeps

variable {ε α β : Type} {I : Disk → Prop} {Q : α → Prop} {R : β → Prop}

theorem pure {a : α} (ha : Q a) : Keeps I (Pure.pure a : ExceptT ε (StateM Disk) α) Q := by
  intro d hd r after he
  cases he
  exact ⟨hd, fun _ h => by cases h; exact ha⟩

theorem throw (e : ε) : Keeps I (throw e : ExceptT ε (StateM Disk) α) Q := by
  intro d hd r after he
  cases he
  exact ⟨hd, nofun⟩

theorem bind {x : ExceptT ε (StateM Disk) α} {f : α → ExceptT ε (StateM Disk) β}
    (hx : Keeps I x Q) (hf : ∀ a, Q a → Keeps I (f a) R) : Keeps I (x >>= f) R := by
  intro d hd r after he
  rcases bind_cases he with ⟨_, rfl, hxd⟩ | ⟨a, mid, hxd, hfa⟩
  · exact ⟨(hx d hd _ _ hxd).1, nofun⟩
  · obtain ⟨hmid, hQ⟩ := hx d hd _ _ hxd
    exact hf a (hQ a rfl) mid hmid r after hfa

theorem ofExcept (r : Except Error α) (hQ : ∀ a, Q a) : Keeps I (TaskM.ofExcept r) Q := by
  intro d hd r' after he
  cases he
  exact ⟨hd, fun a _ => hQ a⟩

theorem unpacking {op : DiskM α} (h : Keeps I op Q) : Keeps I (Archive.unpacking op) Q := by
  intro d hd r after he
  rcases hop : op d with ⟨_ | a, mid⟩ <;> simp only [Archive.unpacking, hop] at he <;> cases he
  · exact ⟨(h d hd _ _ hop).1, nofun⟩
  · exact ⟨(h d hd _ _ hop).1, fun b hb => by cases hb; exact (h d hd _ _ hop).2 a rfl⟩

/-- An operation is cut short, or does what it does. -/
theorem attempt {op : Disk → Except SystemError (α × Disk)} (hI : Fading I)
    (h : ∀ d a after, I d → op d = .ok (a, after) → I after ∧ Q a) :
    Keeps I (Disk.attempt op) Q := by
  intro d hd r after he
  have hd' := hI d hd
  unfold Disk.attempt at he
  split at he
  · next hfaults =>
    cases he
    rw [hfaults] at hd'
    exact ⟨hd', nofun⟩
  · simp only at he
    split at he
    · next a mid hop =>
      cases he
      obtain ⟨hmid, hQ⟩ := h _ a _ hd' hop
      exact ⟨hmid, fun b hb => by cases hb; exact hQ⟩
    · cases he
      exact ⟨hd', nofun⟩

abbrev Always : α → Prop := fun _ => True

section operations

variable (hI : Fading I)
include hI

theorem makeDir {p : Path}
    (h : ∀ d place, I d → d.find .entry p = .ok (.vacant place) → I (d.set place .dir)) :
    Keeps I (Disk.makeDir p) Always := by
  refine attempt hI fun d a after hd hop => ?_
  rcases hf : d.find .entry p with _ | ⟨place, n⟩ | place <;>
    simp only [hf, Bind.bind, Except.bind] at hop <;> cases hop
  exact ⟨h d place hd hf, trivial⟩

theorem ensureDir {p : Path}
    (h : ∀ d place, I d → d.find .entry p = .ok (.vacant place) → I (d.set place .dir)) :
    Keeps I (Disk.ensureDir p) Always := by
  intro d hd r after he
  unfold Disk.ensureDir at he
  split at he
  · next e mid hop =>
    have hmid := (makeDir hI h d hd _ _ hop).1
    split at he <;> cases he <;> exact ⟨hmid, fun _ _ => trivial⟩
  · exact ⟨(makeDir hI h d hd _ _ he).1, fun _ _ => trivial⟩

theorem makeDirsFrom {ps : List Path}
    (h : ∀ p ∈ ps, ∀ d place, I d → d.find .entry p = .ok (.vacant place) → I (d.set place .dir)) :
    Keeps I (Disk.makeDirsFrom ps) Always := by
  induction ps with
  | nil => exact throw _
  | cons p above ih =>
    have hp := h p List.mem_cons_self
    intro d hd r after he
    unfold Disk.makeDirsFrom at he
    split at he
    · next mid hop =>
      refine bind (ih fun q hq => h q (List.mem_cons_of_mem _ hq))
        (fun _ _ => ensureDir hI hp) mid (makeDir hI hp d hd _ _ hop).1 r after he
    · next e mid hop =>
      have hmid := (makeDir hI hp d hd _ _ hop).1
      split at he <;> cases he <;> exact ⟨hmid, fun _ _ => trivial⟩
    · exact makeDir hI hp d hd _ _ he

theorem makeDirs {p : Path}
    (h : ∀ q, Path.steps q <+: Path.steps p → ∀ d place, I d →
      d.find .entry q = .ok (.vacant place) → I (d.set place .dir)) :
    Keeps I (Disk.makeDirs p) Always := by
  unfold Disk.makeDirs
  split
  · exact pure trivial
  · refine makeDirsFrom hI fun q hq => h q ?_
    exact Path.steps_of_mem_ancestors (List.mem_filter.1 hq).1

theorem createNew {p : Path} {mode : Nat} {Q : Nat → Prop}
    (h : ∀ d place, I d → d.find .entry p = .ok (.vacant place) →
      I { d.set place (.file ⟨d.nextId, [], mode⟩) with nextId := d.nextId + 1 } ∧ Q d.nextId) :
    Keeps I (Disk.createNew p mode) Q := by
  refine attempt hI fun d a after hd hop => ?_
  rcases hf : d.find .entry p with _ | ⟨place, n⟩ | place <;>
    simp only [hf, Bind.bind, Except.bind] at hop <;> cases hop
  exact h d place hd hf

theorem append {id : Nat} {bs : Text.Bytes}
    (h : ∀ d, I d → I (d.updateFile id fun f => { f with data := f.data ++ bs })) :
    Keeps I (Disk.append id bs) Always :=
  attempt hI fun d a after hd hop => by
    cases hop
    exact ⟨h d hd, trivial⟩

theorem setMode {id mode : Nat}
    (h : ∀ d, I d → I (d.updateFile id fun f => { f with mode := mode })) :
    Keeps I (Disk.setMode id mode) Always :=
  attempt hI fun d a after hd hop => by
    cases hop
    exact ⟨h d hd, trivial⟩

theorem removeFile {p : Path}
    (h : ∀ d place n, I d → d.find .entry p = .ok (.node place n) → n ≠ .dir → I (d.erase place)) :
    Keeps I (Disk.removeFile p) Always := by
  refine attempt hI fun d a after hd hop => ?_
  rcases hf : d.find .entry p with _ | ⟨place, n⟩ | place <;>
    simp only [hf, Bind.bind, Except.bind] at hop
  · cases hop
  · cases n with
    | dir => cases hop
    | _ =>
      cases hop
      exact ⟨h d place _ hd hf nofun, trivial⟩
  · cases hop

theorem makeLink {target p : Path}
    (h : ∀ d place, I d → d.find .entry p = .ok (.vacant place) → I (d.set place (.link target))) :
    Keeps I (Disk.makeLink target p) Always := by
  refine attempt hI fun d a after hd hop => ?_
  by_cases ht : target = ""
  · simp only [ht, if_true, Bind.bind, Except.bind] at hop
    cases hop
  · rcases hf : d.find .entry p with _ | ⟨place, n⟩ | place <;>
      simp only [hf, ht, if_false, Bind.bind, Except.bind] at hop <;> cases hop
    exact ⟨h d place hd hf, trivial⟩

end operations
end Keeps
end RigWarden
