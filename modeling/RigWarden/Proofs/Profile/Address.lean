import RigWarden.Profile.Check
import RigWarden.Proofs.Number.Numerals
import RigWarden.Proofs.Text.Split

/-!
# Pool addresses

The pools that pass the check, told by their text alone: a scheme or none, a host, the last colon,
and a port in decimal digits. A plus sign before the digits is read over.
-/

namespace RigWarden.Profile

open Text Number

/-- What follows the first `://` in `pool`, all of it when there is none. -/
def IsSchemeless (pool rest : Chars) : Prop :=
  FollowsFirst "://".toList pool rest ∨ ¬ "://".toList <:+: pool ∧ rest = pool

/-- Digits that denote a number from 1 to 65535. -/
def IsPort (port : Chars) : Prop := ∃ n, 1 ≤ n ∧ n ≤ 65535 ∧ Denotes port n

/-- A host and a port on the two sides of the last colon. -/
structure HostPort (port? : Chars → Prop) (address host port : Chars) : Prop where
  text : address = host ++ ':' :: port
  last : ':' ∉ port
  host_ne_nil : host ≠ []
  port_ok : port? port

theorem isSchemeless_iff {pool rest : Chars} :
    IsSchemeless pool rest ↔ rest = (afterFirst "://".toList pool).getD pool := by
  rw [IsSchemeless, ← afterFirst_eq_some_iff, ← afterFirst_eq_none_iff]
  cases afterFirst "://".toList pool <;> simp [eq_comm]

/-- A port as the check takes it: a plus sign may stand before the digits. -/
def IsSignedPort (port : Chars) : Prop := IsPort port ∨ ∃ ds, port = '+' :: ds ∧ IsPort ds

theorem isSignedPort_iff {port : Chars} :
    IsSignedPort port ↔ ∃ n, unsigned? limit16 port = some (n + 1) := by
  have hlimit (n : Nat) : n + 1 < limit16 ↔ n + 1 ≤ 65535 := Nat.lt_succ_iff
  simp only [unsigned?_eq_some_iff, hlimit]
  constructor
  · rintro (⟨n, hpos, hle, hport⟩ | ⟨ds, rfl, n, hpos, hle, hport⟩)
    · obtain ⟨n, rfl⟩ := Nat.exists_eq_add_of_le' hpos
      exact ⟨n, hle, .inl hport⟩
    · obtain ⟨n, rfl⟩ := Nat.exists_eq_add_of_le' hpos
      exact ⟨n, hle, .inr ⟨ds, rfl, hport⟩⟩
  · rintro ⟨n, hle, hport | ⟨ds, rfl, hport⟩⟩
    · exact .inl ⟨n + 1, Nat.le_add_left 1 n, hle, hport⟩
    · exact .inr ⟨ds, rfl, n + 1, Nat.le_add_left 1 n, hle, hport⟩

theorem addressFault?_eq_none_iff {address : Chars} :
    addressFault? address = none ↔ ∃ host port, HostPort IsSignedPort address host port := by
  constructor
  · intro h
    rw [addressFault?] at h
    split at h
    next => cases h
    next host port hsplit =>
      obtain ⟨htext, hlast⟩ := splitLast_eq_some_iff.1 hsplit
      split at h
      next => cases h
      next hhost =>
        split at h
        next n hport => exact ⟨host, port, htext, hlast, hhost, isSignedPort_iff.2 ⟨n, hport⟩⟩
        next => cases h
  · rintro ⟨host, port, htext, hlast, hhost, hport⟩
    obtain ⟨n, hport⟩ := isSignedPort_iff.1 hport
    rw [addressFault?, splitLast_eq_some_iff.2 ⟨htext, hlast⟩]
    simp only [hhost, if_false, hport]

/-- A pool passes if and only if its text after the scheme, trimmed, is a host and a port. -/
theorem poolFault?_eq_none_iff (pool : String) :
    poolFault? pool = none ↔
      ∃ rest, IsSchemeless pool.toList rest ∧
        ∃ host port, HostPort IsSignedPort (trimChars rest) host port := by
  rw [poolFault?, addressFault?_eq_none_iff]
  constructor
  · exact fun h => ⟨_, isSchemeless_iff.2 rfl, h⟩
  · rintro ⟨rest, hrest, h⟩
    rwa [isSchemeless_iff.1 hrest] at h

/-- A pool with a plus sign before its port passes, and its port is no run of digits. -/
theorem not_always_digits :
    poolFault? "pool.example:+3333" = none ∧
      ¬ ∃ rest, IsSchemeless "pool.example:+3333".toList rest ∧
        ∃ host port, HostPort IsPort (trimChars rest) host port := by
  refine ⟨by decide, ?_⟩
  rintro ⟨rest, hrest, host, port, haddress⟩
  have hsplit := splitLast_eq_some_iff.2 ⟨haddress.text, haddress.last⟩
  rw [isSchemeless_iff.1 hrest] at hsplit
  have hparts : splitLast ':' (poolAddress "pool.example:+3333".toList) =
      some ("pool.example".toList, "+3333".toList) := by decide
  obtain ⟨-, rfl⟩ := Prod.mk.inj (Option.some.inj (hsplit.symm.trans hparts))
  obtain ⟨n, -, -, hport⟩ := haddress.port_ok
  exact hport.ne_plus rfl

end RigWarden.Profile
