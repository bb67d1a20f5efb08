import RigWarden.Json.Reader
import RigWarden.Json.Record
import RigWarden.Json.Writer
import RigWarden.Profile.Basic
import RigWarden.Text.KeyMap

/-!
# The XMRig configuration

A tree of settings, written as indented JSON. The CPU section holds, beside its own settings, one
list of threads per algorithm family; the entry of a thread is the processor it is bound to, or -1.
-/

namespace RigWarden.Xmrig

open Text Number

structure CpuSection where
  enabled : Bool
  hugePages : Bool
  maxThreadsHint : Nat
  threads : KeyMap (List Int)
  deriving Repr, DecidableEq

structure PoolEntry where
  url : String
  user : String
  pass : String
  rigId : String
  algo : String
  keepalive : Bool
  tls : Bool
  deriving Repr, DecidableEq

structure Config where
  autosave : Bool
  watch : Bool
  background : Bool
  colors : Bool
  printTime : Nat
  cpu : CpuSection
  pools : List PoolEntry
  deriving Repr, DecidableEq

def algorithmId (algorithm : String) : String :=
  let name := trimChars algorithm.toList
  let folded := String.ofList (name.map lower)
  if folded = "randomx" ∨ folded = "rx" ∨ folded = "monero" then "rx/0"
  else if folded = "randomwow" then "rx/wow"
  else if folded = "randomarq" then "rx/arq"
  else .ofList name

def family (algo : String) : String := .ofList (algo.toList.takeWhile (· != '/'))

def Config.ofProfile (processors : Nat) (p : Profile) : Config :=
  let algo := algorithmId p.algorithm
  { autosave := false
    watch := false
    background := false
    colors := false
    printTime := 10
    cpu :=
      { enabled := true
        hugePages := true
        maxThreadsHint := p.maxCpuUsage
        threads := [(family algo, List.replicate (p.effectiveThreads processors) (-1))] }
    pools :=
      [{ url := trim p.pool
         user := trim p.wallet
         pass := "x"
         rigId := trim p.worker
         algo := algo
         keepalive := true
         tls := false }] }

def Config.threadCount? (c : Config) : Option Nat := do
  let pool ← c.pools.head?
  return (← c.cpu.threads.get? (family pool.algo)).length

def cpuFields : List String := ["enabled", "huge-pages", "max-threads-hint"]

def CpuSection.toJson (c : CpuSection) : Json :=
  .object ([("enabled", .bool c.enabled), ("huge-pages", .bool c.hugePages),
    ("max-threads-hint", .ofNat c.maxThreadsHint)] ++
    c.threads.map fun t => (t.1, .array (t.2.map .ofInt)))

def PoolEntry.toJson (p : PoolEntry) : Json :=
  .object [("url", .string p.url), ("user", .string p.user), ("pass", .string p.pass),
    ("rig-id", .string p.rigId), ("algo", .string p.algo), ("keepalive", .bool p.keepalive),
    ("tls", .bool p.tls)]

def Config.toJson (c : Config) : Json :=
  .object [("autosave", .bool c.autosave), ("watch", .bool c.watch),
    ("background", .bool c.background), ("colors", .bool c.colors),
    ("print-time", .ofNat c.printTime), ("cpu", c.cpu.toJson),
    ("pools", .array (c.pools.map PoolEntry.toJson))]

def threads? (f : String × Json) : Option (String × List Int) := do
  if !f.2.sound then none
  let items ← f.2.items?
  return (f.1, ← items.mapM (Json.integer? limit31))

def CpuSection.ofJson? : Json → Option CpuSection
  | .object fields => do
    let enabled ← (← Json.unique? fields "enabled").bool?
    let hugePages ← (← Json.unique? fields "huge-pages").bool?
    let maxThreadsHint ← (← Json.unique? fields "max-threads-hint").natural? Profile.capLimit
    let lists ← (fields.filter fun f => !cpuFields.contains f.1).mapM threads?
    return ⟨enabled, hugePages, maxThreadsHint, .ofList lists⟩
  | _ => none

def PoolEntry.ofJson? (j : Json) : Option PoolEntry := do
  match ← j.record? ["url", "user", "pass", "rig-id", "algo", "keepalive", "tls"] with
  | [url, user, pass, rigId, algo, keepalive, tls] =>
    return ⟨← url.string?, ← user.string?, ← pass.string?, ← rigId.string?, ← algo.string?,
      ← keepalive.bool?, ← tls.bool?⟩
  | _ => none

def Config.ofJson? (j : Json) : Option Config := do
  match ← j.record? ["autosave", "watch", "background", "colors", "print-time", "cpu", "pools"] with
  | [autosave, watch, background, colors, printTime, cpu, pools] =>
    return ⟨← autosave.bool?, ← watch.bool?, ← background.bool?, ← colors.bool?,
      ← printTime.natural? limit32, ← CpuSection.ofJson? cpu,
      ← (← pools.items?).mapM PoolEntry.ofJson?⟩
  | _ => none

def Config.render (c : Config) : String := c.toJson.pretty ++ "\n"

def Config.read? (text : String) : Option Config := (Json.parse? text).bind Config.ofJson?

end RigWarden.Xmrig
