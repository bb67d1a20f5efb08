import Mathlib.Algebra.Order.Group.Nat
import RigWarden.Session.Restart

/-!
# Waits before restarts

The wait doubles as long as its factor fits 32 bits. A first wait of 70 nanoseconds or more has come
to the longest wait by then, so all its waits are what doubling without end gives. A shorter one
stays below the longest wait for good.
-/

namespace RigWarden
namespace RestartPolicy

open Number

variable (p : RestartPolicy) {attempt : Nat}

theorem factor_of_le (h : attempt ≤ 32) : factor attempt = 2 ^ (attempt - 1) := if_pos h

theorem factor_of_lt (h : 32 < attempt) : factor attempt = limit32 - 1 := if_neg (Nat.not_le.2 h)

theorem factor_succ_le (attempt : Nat) : factor attempt ≤ factor (attempt + 1) := by
  rcases Nat.lt_trichotomy attempt 32 with hlt | rfl | hlt
  · rw [factor_of_le (Nat.le_of_lt hlt), factor_of_le hlt]
    exact Nat.pow_le_pow_right (by decide) (by omega)
  · decide
  · rw [factor_of_lt hlt, factor_of_lt (Nat.lt_succ_of_lt hlt)]

/-- A product too long for a duration is longer than the longest wait, too. -/
theorem backoff_eq (attempt : Nat) : p.backoff attempt =
    .ofTotal (min (p.initialBackoff.total * factor attempt) maxBackoff.total) := by
  have hcap : maxBackoff = .ofTotal maxBackoff.total := rfl
  have hlimit : maxBackoff.total = 300000000000 := rfl
  rw [backoff, Duration.mul?]
  split
  next =>
    rw [Option.getD_some, Duration.min, Duration.total_ofTotal]
    split
    next hle => rw [Nat.min_eq_left hle]
    next hgt => rw [Nat.min_eq_right (Nat.le_of_not_le hgt), ← hcap]
  next hlong =>
    simp only [Duration.ofTotal, Duration.perSecond, limit64] at hlong
    rw [Option.getD_none, Duration.min, if_pos (Nat.le_refl _), Nat.min_eq_right (by omega), ← hcap]

theorem total_backoff (attempt : Nat) : (p.backoff attempt).total =
    min (p.initialBackoff.total * factor attempt) maxBackoff.total := by
  rw [backoff_eq, Duration.total_ofTotal]

/-- From the first factor that is cut off, whether the waits are right depends on the first one. -/
theorem min_eq_min_iff {n exact : Nat} (h : limit32 ≤ exact) :
    min (n * (limit32 - 1)) maxBackoff.total = min (n * exact) maxBackoff.total ↔
      n = 0 ∨ 70 ≤ n := by
  have hlimit : maxBackoff.total = 300000000000 := rfl
  have hmul : n * limit32 ≤ n * exact := Nat.mul_le_mul_left n h
  simp only [limit32] at hmul ⊢
  constructor
  · intro heq
    omega
  · rintro (rfl | hn)
    · rw [Nat.zero_mul, Nat.zero_mul]
    · rw [Nat.min_eq_right (by omega), Nat.min_eq_right (by omega)]

theorem backoff_eq_doubled_iff (attempt : Nat) :
    p.backoff attempt =
        .ofTotal (min (p.initialBackoff.total * 2 ^ (attempt - 1)) maxBackoff.total) ↔
      attempt ≤ 32 ∨ p.initialBackoff.total = 0 ∨ 70 ≤ p.initialBackoff.total := by
  rcases Nat.lt_or_ge 32 attempt with hlt | hle
  · have hpow : limit32 ≤ 2 ^ (attempt - 1) :=
      Nat.pow_le_pow_right (show 0 < 2 by decide) (Nat.le_sub_one_of_lt hlt)
    have htotal : p.backoff attempt =
          .ofTotal (min (p.initialBackoff.total * 2 ^ (attempt - 1)) maxBackoff.total) ↔
        min (p.initialBackoff.total * (limit32 - 1)) maxBackoff.total =
          min (p.initialBackoff.total * 2 ^ (attempt - 1)) maxBackoff.total := by
      rw [backoff_eq, factor_of_lt hlt]
      refine ⟨fun h => ?_, congrArg Duration.ofTotal⟩
      have hsame := congrArg Duration.total h
      rwa [Duration.total_ofTotal, Duration.total_ofTotal] at hsame
    rw [htotal, min_eq_min_iff hpow]
    exact ⟨.inr, fun h => h.resolve_left (Nat.not_le.2 hlt)⟩
  · rw [backoff_eq, factor_of_le hle]
    exact ⟨fun _ => .inl hle, fun _ => rfl⟩

theorem total_backoff_succ_iff (attempt : Nat) :
    (p.backoff (attempt + 2)).total = min (2 * (p.backoff (attempt + 1)).total) maxBackoff.total ↔
      attempt + 1 < 32 ∨ p.initialBackoff.total = 0 ∨ 70 ≤ p.initialBackoff.total := by
  have hlimit : maxBackoff.total = 300000000000 := rfl
  have hcut : min (2 * (p.backoff (attempt + 1)).total) maxBackoff.total =
      min (p.initialBackoff.total * (2 * factor (attempt + 1))) maxBackoff.total := by
    rw [total_backoff, Nat.mul_left_comm]
    omega
  rw [hcut, total_backoff]
  rcases Nat.lt_or_ge (attempt + 1) 32 with hlt | hge
  · have hdouble : factor (attempt + 2) = 2 * factor (attempt + 1) := by
      rw [factor_of_le hlt, factor_of_le (Nat.le_of_lt hlt), Nat.add_sub_cancel]
      exact Nat.pow_succ'
    rw [hdouble]
    exact ⟨fun _ => .inl hlt, fun _ => rfl⟩
  · have hlast : factor 32 = 2147483648 := by decide
    have hfactor : limit32 ≤ 2 * factor (attempt + 1) := by
      rcases Nat.eq_or_lt_of_le hge with heq | hlt
      · rw [← heq, hlast]
      · rw [factor_of_lt hlt]
        decide
    rw [factor_of_lt (Nat.lt_succ_of_le hge), min_eq_min_iff hfactor]
    exact ⟨.inr, fun h => h.resolve_left (Nat.not_lt.2 hge)⟩

/-- The waits never get shorter and never exceed the longest wait. All of them are what doubling
gives, and each but those at the longest wait is twice the one before, exactly if the first one is
nothing or at least 70 nanoseconds; otherwise this ends with the 32nd attempt. -/
theorem backoff_exact_iff (p : RestartPolicy) :
    (∀ attempt, p.backoff attempt =
        .ofTotal (min (p.initialBackoff.total * 2 ^ (attempt - 1)) maxBackoff.total) ↔
      attempt ≤ 32 ∨ p.initialBackoff.total = 0 ∨ 70 ≤ p.initialBackoff.total) ∧
    (∀ attempt, (p.backoff (attempt + 2)).total =
        min (2 * (p.backoff (attempt + 1)).total) maxBackoff.total ↔
      attempt + 1 < 32 ∨ p.initialBackoff.total = 0 ∨ 70 ≤ p.initialBackoff.total) ∧
    Monotone (fun attempt => (p.backoff attempt).total) ∧
    ∀ attempt, (p.backoff attempt).total ≤ maxBackoff.total := by
  refine ⟨p.backoff_eq_doubled_iff, p.total_backoff_succ_iff, ?_, fun attempt => ?_⟩
  · refine monotone_nat_of_le_succ fun attempt => ?_
    have hmul := Nat.mul_le_mul_left p.initialBackoff.total (factor_succ_le attempt)
    rw [total_backoff, total_backoff]
    omega
  · rw [total_backoff]
    exact Nat.min_le_right _ _

theorem not_always_doubled : ¬ ∀ (p : RestartPolicy) (attempt : Nat),
    p.initialBackoff.secs < limit64 → p.initialBackoff.nanos < Duration.perSecond →
      1 ≤ attempt → attempt < limit32 →
        p.backoff attempt =
          .ofTotal (min (p.initialBackoff.total * 2 ^ (attempt - 1)) maxBackoff.total) := by
  intro h
  have hlate := h { initialBackoff := ⟨0, 1⟩ } 40 (by decide) (by decide) (by decide) (by decide)
  exact absurd hlate (by decide)

end RestartPolicy
end RigWarden
