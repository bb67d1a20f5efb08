import Mathlib.Data.List.Perm.Subperm
import RigWarden.Proofs.Disk.Making
import RigWarden.Proofs.Number.Digits
import RigWarden.Proofs.Provision.Setting

/-!
# Temporary entries

A temporary path is searched among numbered names. There are more of them than things on the disk,
so the search ends at a free one.
-/

namespace RigWarden.Provision

open Disk Number

section temporary

variable {d : Disk} {root : Path} {R : Place} {k : Nat} {A : Place → Prop} {start final : String}

def numbered (start final : String) (n : Nat) : String := start ++ decimal n ++ final

theorem numbered_injective (start final : String) : Function.Injective (numbered start final) := by
  intro m n h
  have hchars := congrArg String.toList h
  simp only [numbered, String.toList_append, List.append_assoc, List.append_cancel_left_eq,
    List.append_cancel_right_eq] at hchars
  have hdigits : digits m = digits n := by simpa [decimal] using hchars
  rw [← ofDigits_digits m, hdigits, ofDigits_digits]

/-- The first of more names than there are things is free. -/
theorem exists_free (d : Disk) (R : Place) (start final : String) :
    ∃ n ≤ d.nodes.length, d.get? (R ++ [numbered start final n]) = none := by
  by_contra hnone
  have hall : ∀ n ≤ d.nodes.length, numbered start final n ∈ d.children R := fun n hn =>
    mem_children_iff.2 fun hfree => hnone ⟨n, hn, hfree⟩
  have hsub : (List.range (d.nodes.length + 1)).map (numbered start final) ⊆ d.children R := by
    intro s hs
    obtain ⟨n, hn, rfl⟩ := List.mem_map.1 hs
    exact hall n (Nat.le_of_lt_succ (List.mem_range.1 hn))
  have hnodup : ((List.range (d.nodes.length + 1)).map (numbered start final)).Nodup :=
    List.nodup_range.map (numbered_injective start final)
  have hlen := (List.subperm_of_subset hnodup hsub).length_le
  have hchildren : (d.children R).length ≤ d.nodes.length := List.length_filterMap_le _ _
  rw [List.length_map, List.length_range] at hlen
  omega

theorem freshPath_succ (d : Disk) (root : Path) (start final : String) (tries n : Nat) :
    d.freshPath root start final (tries + 1) n =
      match d.find .entry (Path.join root (numbered start final n)) with
      | .ok (.node _ _) => d.freshPath root start final tries (n + 1)
      | _ => Path.join root (numbered start final n) := rfl

theorem find_numbered {n : Nat} (hl : d.LeadsTo A root k R)
    (hacc : Accepted root [numbered start final n]) :
    d.find .entry (Path.join root (numbered start final n)) =
      .ok (match d.get? (R ++ [numbered start final n]) with
        | none => .vacant (R ++ [numbered start final n])
        | some nd => .node (R ++ [numbered start final n]) nd) :=
  find_entry_eq hacc.usable
    (Path.steps_join_plain root (hacc.plain _ (List.mem_singleton_self _))) hl
    (hacc.short _ (List.mem_singleton_self _))

/-- The search ends at a free name if one is in its range. -/
theorem freshPath_free (hl : d.LeadsTo A root k R) {tries n : Nat}
    (hacc : ∀ j ≤ n + tries, Accepted root [numbered start final j])
    (hfree : ∃ j, n ≤ j ∧ j ≤ n + tries ∧ d.get? (R ++ [numbered start final j]) = none) :
    ∃ j ≤ n + tries, d.freshPath root start final tries n = Path.join root (numbered start final j) ∧
      d.get? (R ++ [numbered start final j]) = none := by
  induction tries generalizing n with
  | zero =>
    obtain ⟨j, hnj, hjn, hj⟩ := hfree
    obtain rfl : j = n := by omega
    exact ⟨j, hjn, rfl, hj⟩
  | succ tries ih =>
    have hfind := find_numbered hl (hacc n (by omega))
    rw [freshPath_succ, hfind]
    cases hget : d.get? (R ++ [numbered start final n]) with
    | none => exact ⟨n, by omega, rfl, hget⟩
    | some nd =>
      obtain ⟨j, hnj, hjn, hj⟩ := hfree
      have hne : j ≠ n := by
        rintro rfl
        rw [hget] at hj
        cases hj
      obtain ⟨i, hi, hpath, hnone⟩ := ih (n := n + 1) (fun i hi => hacc i (by omega))
        ⟨j, by omega, by omega, hj⟩
      exact ⟨i, by omega, hpath, hnone⟩

/-- A temporary path is one of the names that may be tried, and nothing stands there. -/
theorem temporaryPath_free (hl : d.LeadsTo A root k R)
    (hacc : ∀ j ≤ d.nodes.length, Accepted root [numbered start final j]) :
    ∃ j ≤ d.nodes.length, d.temporaryPath root start final = Path.join root (numbered start final j) ∧
      d.get? (R ++ [numbered start final j]) = none := by
  obtain ⟨n, hn, hfree⟩ := exists_free d R start final
  have hfound := freshPath_free (n := 0) hl (by simpa using hacc)
    ⟨n, Nat.zero_le n, by omega, hfree⟩
  simpa [temporaryPath] using hfound

end temporary

end RigWarden.Provision
