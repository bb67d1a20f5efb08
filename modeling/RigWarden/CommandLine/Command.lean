import RigWarden.CommandLine.Help
import RigWarden.Number.Unsigned
import RigWarden.Profile.Overrides

/-!
# Commands

A command line is a command with its options. Some options may stand before the command or after it;
given in both places, a value after it wins.
-/

namespace RigWarden.CommandLine

open Text Number

inductive Command where
  | run (o : Overrides) (root : Option Path) (maxRestarts duration : Option Nat)
      (truncateLog : Bool)
  | provision (backend : Option Backend) (root : Option Path)
  | status (root : Option Path)
  | render (o : Overrides) (root : Option Path) (write : Bool)
  | serve (o : Overrides) (root : Option Path) (port : Nat)
  deriving Repr, DecidableEq

structure Invocation where
  config : Option Path
  verbose : Bool
  quiet : Bool
  command : Command
  deriving Repr, DecidableEq

inductive Reading where
  | invocation (i : Invocation)
  | usage
  | help (text : String)
  | version
  deriving Repr, DecidableEq

/-! Values -/

/-- A number that may have a sign; zero may even be negative. -/
def small? (bound : Nat) (s : String) : Option Nat :=
  match s.toList with
  | '-' :: cs => if cs ≠ [] ∧ cs.all (· == '0') then some 0 else none
  | cs => unsigned? bound cs

def wide? (s : String) : Option Nat := unsigned? limit64 s.toList

def pathParameter (name : String) : Parameter := { name := name, accepts := (· ≠ "") }

def textParameter (name : String) : Parameter := { name := name, accepts := fun _ => true }

def parameter {α : Type} (name : String) (read : String → Option α) : Parameter :=
  { name := name, accepts := fun s => (read s).isSome }

/-! Options -/

def commonOptions : List OptionSpec := [
  { name := "config", parameter := some (pathParameter "CONFIG")
    help := "Config file (default: <config dir>/mining-session/config.toml)" },
  { name := "verbose", letter := some 'v', help := "Debug logging" },
  { name := "quiet", letter := some 'q', help := "Only log warnings and errors" }]

def versionOption : OptionSpec :=
  { name := "version", letter := some 'V', help := "Print version" }

def backendChoice : Backend → String
  | .xmrig => "XMRig native miner (JSON configuration)"
  | .srbMiner => "SRBMiner-MULTI native miner (key = value configuration)"
  | .simulated => "In-process simulator producing synthetic metrics"

def backendParameter : Parameter :=
  { parameter "BACKEND" Backend.ofName? with
    choices := Backend.all.map fun b => (b.name, backendChoice b) }

def backendOption (help : String) : OptionSpec :=
  { name := "backend", letter := some 'b', parameter := some backendParameter, help := help }

def rootOption : OptionSpec :=
  { name := "install-root", parameter := some (pathParameter "INSTALL_ROOT")
    help := "Install root override" }

def profileOptions : List OptionSpec := [
  backendOption "Worker backend",
  { name := "pool", parameter := some (textParameter "POOL"), help := "Pool address (host:port)" },
  { name := "wallet", parameter := some (textParameter "WALLET"), help := "Wallet address" },
  { name := "worker", parameter := some (textParameter "WORKER"), help := "Worker / rig name" },
  { name := "algorithm", parameter := some (textParameter "ALGORITHM")
    help := "Algorithm identifier" },
  { name := "threads", letter := some 't', parameter := some (parameter "THREADS" wide?)
    help := "Number of CPU threads (default: all cores)" },
  { name := "max-cpu", parameter := some (parameter "MAX_CPU" (small? 256))
    help := "CPU usage cap in percent" },
  rootOption]

def runOptions : List OptionSpec := profileOptions ++ [
  { name := "max-restarts", parameter := some (parameter "MAX_RESTARTS" (small? limit32))
    help := "Restart a crashed worker up to this many times" },
  { name := "duration", parameter := some (parameter "DURATION" wide?)
    help := "Simulator run time in seconds" },
  { name := "truncate-log", help := "Start with an empty session log" }]

def provisionOptions : List OptionSpec := [backendOption "Backend to provision", rootOption]

def renderOptions : List OptionSpec :=
  profileOptions ++ [{ name := "write", help := "Also write it to the install directory" }]

def defaultPort : Nat := 9876

def portParameter : Parameter :=
  { parameter "PORT" (small? limit16) with fallback := some (decimal defaultPort) }

def serveOptions : List OptionSpec := profileOptions ++ [
  { name := "port", parameter := some portParameter, help := "Port for WebSocket server" }]

/-! Commands -/

def overridesOf (g : Given) : Overrides :=
  { backend := (g.get? "backend").bind Backend.ofName?
    pool := g.get? "pool"
    wallet := g.get? "wallet"
    worker := g.get? "worker"
    algorithm := g.get? "algorithm"
    threads := (g.get? "threads").bind wide?
    maxCpuUsage := (g.get? "max-cpu").bind (small? 256) }

structure CommandSpec where
  name : String
  help : String
  options : List OptionSpec
  build : Given → Command

def root? (g : Given) : Option Path := g.get? "install-root"

def commands : List CommandSpec := [
  { name := "run", help := "Provision, configure and run a worker until Ctrl+C"
    options := runOptions
    build := fun g =>
      .run (overridesOf g) (root? g) ((g.get? "max-restarts").bind (small? limit32))
        ((g.get? "duration").bind wide?) (g.has "truncate-log") },
  { name := "provision", help := "Download and unpack a backend without running it"
    options := provisionOptions
    build := fun g => .provision ((g.get? "backend").bind Backend.ofName?) (root? g) },
  { name := "status", help := "Show provisioning status of every backend"
    options := [rootOption]
    build := fun g => .status (root? g) },
  { name := "render", help := "Print the configuration a backend would receive"
    options := renderOptions
    build := fun g => .render (overridesOf g) (root? g) (g.has "write") },
  { name := "serve", help := "Run as WebSocket server for a host application"
    options := serveOptions
    build := fun g =>
      .serve (overridesOf g) (root? g)
        (((g.get? "port").bind (small? limit16)).getD defaultPort) }]

def program : String := "mining-session"

def version : String := "0.1.0"

def globalOptions : List OptionSpec := commonOptions ++ [helpOption [] false, versionOption]

def CommandSpec.listed (c : CommandSpec) : List OptionSpec := sideBySide c.options commonOptions

def CommandSpec.allOptions (c : CommandSpec) : List OptionSpec :=
  c.listed ++ [helpOption [] false]

def helpCommand : String × String :=
  ("help", "Print this message or the help of the given subcommand(s)")

def programHelp : String :=
  "Mining Session - provision, configure and monitor CPU mining workers\n\nUsage: " ++ program ++
    " [OPTIONS] <COMMAND>\n\nCommands:\n" ++
    columns ((commands.map (fun c => (c.name, c.help)) ++ [helpCommand]).map fun r =>
      ("  " ++ r.1, r.2)) ++
    "\n" ++ optionsHelp commonOptions [versionOption] false

def CommandSpec.helpText (c : CommandSpec) (full : Bool) : String :=
  c.help ++ "\n\nUsage: " ++ program ++ " " ++ c.name ++ " [OPTIONS]\n\n" ++
    optionsHelp c.listed [] full

def helpOnHelp : String :=
  helpCommand.2 ++ "\n\nUsage: " ++ program ++ " " ++ helpCommand.1 ++ " [COMMAND]...\n\n" ++
    "Arguments:\n" ++ columns [("  [COMMAND]...", "Print help for the subcommand(s)")]

def command? (name : String) : Option CommandSpec := commands.find? (·.name == name)

def readHelp : List String → Reading
  | [] => .help programHelp
  | [name] =>
    match command? name with
    | some c => .help (c.helpText true)
    | none => if name = helpCommand.1 then .help helpOnHelp else .usage
  | _ => .usage

def CommandSpec.invocation (c : CommandSpec) (before given : Given) : Invocation :=
  { config := (given.get? "config").or (before.get? "config")
    verbose := given.has "verbose" || before.has "verbose"
    quiet := given.has "quiet" || before.has "quiet"
    command := c.build given }

/-- The words after the name of a command. What stands before the name is settled last. -/
def CommandSpec.read (c : CommandSpec) (before : Scan) (words : List String) : Reading :=
  let result : Except Halted Invocation := do
    let (s, rest) ← scan c.allOptions {} words
    if rest ≠ [] then throw .usage
    let s ← s.settle
    return c.invocation (← before.settle).given s.given
  match result with
  | .ok i => .invocation i
  | .error .usage => .usage
  | .error (.help full) => .help (c.helpText full)
  | .error .version => .version

def read (words : List String) : Reading :=
  match scan globalOptions {} words with
  | .error .usage => .usage
  | .error (.help _) => .help programHelp
  | .error .version => .version
  | .ok (_, []) => .usage
  | .ok (before, name :: words) =>
    match command? name with
    | some c => c.read before words
    | none => if name = helpCommand.1 then readHelp words else .usage

end RigWarden.CommandLine
