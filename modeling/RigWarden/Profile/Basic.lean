import RigWarden.Json.Writer

/-!
# Mining profiles

One set of mining parameters, the same for every backend. Zero threads stand for as many as the
machine has processors. In JSON a profile is an object, or an array of its fields in order; fields
that are left out keep their defaults.
-/

namespace RigWarden

open Number Text

structure Profile where
  pool : String := "pool.supportxmr.com:3333"
  wallet : String := "YOUR_WALLET_ADDRESS_HERE"
  worker : String := "crypto_adventure_worker"
  algorithm : String := "randomx"
  threads : Nat := 0
  maxCpuUsage : Nat := 75
  deriving Repr, DecidableEq, Inhabited

def maskWallet (wallet : String) : String :=
  let cs := wallet.toList
  if cs.length ≤ 16 then wallet
  else .ofList (cs.take 8 ++ ['.', '.', '.'] ++ cs.drop (cs.length - 8))

namespace Profile

def new (pool wallet worker : String) : Profile :=
  { pool := pool, wallet := wallet, worker := worker }

def withAlgorithm (p : Profile) (algorithm : String) : Profile := { p with algorithm := algorithm }

def withThreads (p : Profile) (threads : Nat) : Profile := { p with threads := threads }

def withMaxCpuUsage (p : Profile) (percent : Nat) : Profile := { p with maxCpuUsage := percent }

def effectiveThreads (p : Profile) (processors : Nat) : Nat :=
  if p.threads = 0 then processors else p.threads

def maskedWallet (p : Profile) : String := maskWallet p.wallet

/-- CPU caps are stored in eight bits. -/
abbrev capLimit : Nat := 256

def toJson (p : Profile) : Json :=
  .object [("pool", .string p.pool), ("wallet", .string p.wallet), ("worker", .string p.worker),
    ("algorithm", .string p.algorithm), ("threads", .ofNat p.threads),
    ("max_cpu_usage", .ofNat p.maxCpuUsage)]

/-- The value of a field that may be left out but not be wrong. -/
def field? {α : Type} (j : Option Json) (read : Json → Option α) (default : α) : Option α :=
  match j with
  | none => some default
  | some j => read j

/-- Builds a profile from its fields, each looked up by name and position. -/
def ofFields? (at? : String → Nat → Option Json) : Option Profile := do
  let blank : Profile := {}
  return {
    pool := ← field? (at? "pool" 0) Json.string? blank.pool
    wallet := ← field? (at? "wallet" 1) Json.string? blank.wallet
    worker := ← field? (at? "worker" 2) Json.string? blank.worker
    algorithm := ← field? (at? "algorithm" 3) Json.string? blank.algorithm
    threads := ← field? (at? "threads" 4) (Json.natural? limit64) blank.threads
    maxCpuUsage := ← field? (at? "max_cpu_usage" 5) (Json.natural? capLimit) blank.maxCpuUsage }

def ofJson? : Json → Option Profile
  | .object fields => ofFields? fun name _ => Json.get? (.object fields) name
  | .array items => if items.length ≤ 6 then ofFields? fun _ i => items[i]? else none
  | _ => none

end Profile
end RigWarden
