import RigWarden.Config.Template
import RigWarden.Path
import RigWarden.Profile.Basic

/-!
# The SRBMiner configuration

A template of `key = value` lines. The miner's own log is kept apart from the session log.
-/

namespace RigWarden.SrbMiner

open Text Number

def logFile : String := "srbminer.log"

def template : String :=
  "# SRBMiner-MULTI configuration, regenerated for every session\n" ++
  "algorithm = \x7b\x7balgorithm\x7d\x7d\n" ++
  "pool = \x7b\x7bpool\x7d\x7d\n" ++
  "wallet = \x7b\x7bwallet\x7d\x7d\n" ++
  "worker = \x7b\x7bworker\x7d\x7d\n" ++
  "cpu-threads = \x7b\x7bthreads\x7d\x7d\n" ++
  "cpu-max-usage = \x7b\x7bmax_cpu_usage\x7d\x7d\n" ++
  "disable-gpu = true\n" ++
  "log-file = \x7b\x7blog_file\x7d\x7d\n"

def algorithmId (algorithm : String) : String :=
  let name := trimChars algorithm.toList
  let folded := String.ofList (name.map lower)
  if folded = "rx/0" ∨ folded = "rx" ∨ folded = "randomx" ∨ folded = "monero" then "randomx"
  else .ofList name

def values (processors : Nat) (p : Profile) (install : Path) : Template.Values :=
  [("algorithm", algorithmId p.algorithm), ("pool", trim p.pool), ("wallet", trim p.wallet),
    ("worker", trim p.worker), ("threads", decimal (p.effectiveThreads processors)),
    ("max_cpu_usage", decimal p.maxCpuUsage), ("log_file", Path.join install logFile)]

def render (processors : Nat) (p : Profile) (install : Path) : Except Error String :=
  Template.fill template (values processors p install)

end RigWarden.SrbMiner
