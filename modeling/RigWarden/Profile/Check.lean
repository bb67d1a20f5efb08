import RigWarden.Error
import RigWarden.Profile.Basic

/-!
# Checking a profile

A profile is refused when a text is blank or holds quotes or control characters, when wallet or
pool is a stand-in value, when the pool is not `host:port`, and when the CPU cap is not a
percentage. The first fault in this order is reported.
-/

namespace RigWarden

open Text Number

/-- Stand-in values from templates that must never reach a worker. -/
def sentinels : List String :=
  ["YOUR_WALLET_ADDRESS", "YOUR_WALLET_ADDRESS_HERE", "set your wallet here", "NOT_SET",
    "YOUR_POOL_URL", "pool.example.invalid:0"]

def isPlaceholder (value : String) : Bool :=
  sentinels.any fun s => eqIgnoreCase s.toList (trimChars value.toList)

namespace Profile

def isForbidden (c : Char) : Bool := isControl c || c == '"'

def textFault? (value : String) : Option ConfigurationFault :=
  if trimChars value.toList = [] then some .blank
  else if value.toList.any isForbidden then some .forbiddenCharacter
  else none

def placeholderFault? (value : String) : Option ConfigurationFault :=
  if isPlaceholder value then some (.placeholder (trim value)) else none

/-- What is left of a pool without its scheme and the blanks around it. -/
def poolAddress (pool : Chars) : Chars :=
  trimChars ((afterFirst [':', '/', '/'] pool).getD pool)

/-- The fault of an address that is not `host:port` with a port from 1 to 65535. -/
def addressFault? (address : Chars) : Option ConfigurationFault :=
  match splitLast ':' address with
  | none => some .noPort
  | some (host, port) =>
    if host = [] then some .noHost
    else match unsigned? limit16 port with
      | some (_ + 1) => none
      | _ => some (.badPort (.ofList port))

def poolFault? (pool : String) : Option ConfigurationFault :=
  addressFault? (poolAddress pool.toList)

def capFault? (cap : Nat) : Option ConfigurationFault :=
  if cap = 0 ∨ 100 < cap then some (.capOutOfRange cap) else none

/-- Every rule with the field it is about, in the order in which faults are reported. -/
def faults (p : Profile) : List (String × Option ConfigurationFault) :=
  [("pool", textFault? p.pool), ("wallet", textFault? p.wallet), ("worker", textFault? p.worker),
    ("algorithm", textFault? p.algorithm),
    ("wallet", placeholderFault? p.wallet), ("pool", placeholderFault? p.pool),
    ("pool", poolFault? p.pool), ("max_cpu_usage", capFault? p.maxCpuUsage)]

def firstFault? (p : Profile) : Option Error :=
  p.faults.findSome? fun f => f.2.map fun fault => .configuration f.1 fault

def check (p : Profile) : Except Error Unit :=
  match p.firstFault? with
  | some e => .error e
  | none => .ok ()

theorem check_eq_ok_iff (p : Profile) : p.check = .ok () ↔ p.firstFault? = none := by
  unfold check
  cases p.firstFault? <;> simp

end Profile
end RigWarden
