import RigWarden.CommandLine.Command
import RigWarden.Session.Rehearsal
import RigWarden.Settings.File

/-!
# Running commands

A command reads the settings, changes them by its options and does its work on a disk. It leaves a
report: what it printed, and why it failed if it did. A failure is a list of causes, each explained
by the next one.
-/

namespace RigWarden.CommandLine

open Text Number

structure World where
  machine : Machine
  now : Instant
  lookup : String → Option String
  fetch : (url : String) → (deadline : Clock) → Fetched
  listen : (port : Nat) → Except SystemError Unit

structure Report where
  code : Nat
  out : String
  causes : List String
  disk : Disk

/-- A command at work: it prints, changes the disk and may fail with causes. -/
abbrev CommandM := ExceptT (List String) (StateM (String × Disk))

def print (s : String) : CommandM Unit := fun (out, d) => (.ok (), (out ++ s, d))

def printLine (s : String) : CommandM Unit := print (s ++ "\n")

def fail {α : Type} (causes : List String) : CommandM α := throw causes

def disk : CommandM Disk := fun (out, d) => (.ok d, (out, d))

def setDisk (d : Disk) : CommandM Unit := fun (out, _) => (.ok (), (out, d))

def causesOf (e : Error) : List String := e.message :: (e.cause?.map SystemError.text).toList

/-- Does something to the disk, with a reason in front of its failure. -/
def perform {α ε : Type} (causes : ε → List String) (task : ExceptT ε (StateM Disk) α) :
    CommandM α := fun (out, d) =>
  match task d with
  | (.ok a, d) => (.ok a, (out, d))
  | (.error e, d) => (.error (causes e), (out, d))

/-! Places -/

/-- A directory that a variable gives as an absolute path, or one below the home directory. -/
def userDir? (lookup : String → Option String) (name inHome : String) : Option Path :=
  match (lookup name).filter Path.isAbsolute with
  | some dir => some dir
  | none => ((lookup "HOME").filter (· ≠ "")).map fun home => Path.join home inHome

def configFile? (lookup : String → Option String) : Option Path :=
  (userDir? lookup "XDG_CONFIG_HOME" ".config").map Settings.defaultFile

def installRoot (lookup : String → Option String) : Path :=
  match userDir? lookup "XDG_DATA_HOME" ".local/share" with
  | some dir => Settings.defaultInstallRoot dir
  | none => "miners"

def loadSettings (w : World) (config : Option Path) : CommandM Settings :=
  let context := "Failed to load config"
  match config.or (configFile? w.lookup) with
  | none => fail [context, "Failed to get config directory"]
  | some p =>
    perform (fun fault => [context, fault.text]) (Settings.load (installRoot w.lookup) p w.lookup)

/-! Commands -/

def override (s : Settings) (o : Overrides) (root : Option Path) : Settings :=
  { s with
    backend := o.backend.getD s.backend
    profile := o.profile s.profile
    installRoot := root.getD s.installRoot }

def rule : String := .ofList (List.replicate 52 '━')

def bannerLines (processors : Nat) (s : Settings) : List String := [
  "⛏️  Mining Session",
  rule,
  "🔧 Backend: " ++ s.backend.name,
  "🌐 Pool: " ++ s.profile.pool,
  "👛 Wallet: " ++ s.profile.maskedWallet,
  "🏷️  Worker: " ++ s.profile.worker,
  "🧵 Threads: " ++ decimal (s.profile.effectiveThreads processors) ++ " (CPU cap " ++
    decimal s.profile.maxCpuUsage ++ "%)",
  "📁 Install root: " ++ s.installRoot,
  rule]

def printLines (ls : List String) : CommandM Unit := print ("".intercalate (ls.map (· ++ "\n")))

def lost : List String := ["overflow when adding duration to instant"]

def provisionEnv (w : World) (s : Settings) : ProvisionEnv :=
  { fetch := w.fetch
    now := ⟨1, 0⟩
    timeout := s.sessionOptions.provisionTimeout
    looks := fun _ => ⟨⟨1, 0⟩, false⟩ }

/-- Nobody waits in vain: every pause is awaited to its end. -/
def patience : Duration := .ofSecs 0x10000000000

def runSession (w : World) (s : Settings) : CommandM Unit := do
  printLines (bannerLines w.machine.processors s)
  printLine ("📦 Preparing " ++ s.backend.name ++ " (provisioning may download the worker)...")
  let host := Host.new s.sessionOptions (← disk)
  let (r, host) := host.start w.machine (provisionEnv w s) s.profile s.backend
  setDisk host.disk
  match r with
  | .error (.error e) => fail ("Failed to start session" :: causesOf e)
  | .error .overflow => fail lost
  | .ok i =>
    match host.sessions[i]? with
    | none => fail ["Event stream already taken"]
    | some session =>
      printLine ("📝 Log: " ++ session.logPath ++ "\n")
      setDisk ((host.rest w.machine w.now patience).stop w.machine w.now i).disk

def provision (w : World) (s : Settings) : CommandM Unit := do
  let desc := s.backend.descriptor
  let name := s.backend.name
  printLine (match desc.artifact with
    | some a => "📥 Provisioning " ++ name ++ " from " ++ a.url
    | none => "📥 " ++ name ++ " needs no download")
  let host := Host.new s.sessionOptions (← disk)
  let (r, host) := host.ensure (provisionEnv w s) s.backend
  setDisk host.disk
  match r with
  | .ok .ready => printLine ("✅ " ++ name ++ " ready at " ++ desc.installPath s.installRoot)
  | .ok state => fail ["Provisioning " ++ name ++ " " ++ state.text]
  | .error (.error e) => fail (causesOf e)
  | .error .overflow => fail lost

def statusLine (h : Host) (b : Backend) : String :=
  let state := h.provisionStatus b
  (if state.isReady then "✅ " else "⬜ ") ++ padTo 10 b.name ++ " " ++ state.text

def status (s : Settings) : CommandM Unit := do
  let host := Host.new s.sessionOptions (← disk)
  printLines (("📁 Install root: " ++ s.installRoot) :: Backend.all.map (statusLine host))

def render (w : World) (s : Settings) (write : Bool) : CommandM Unit := do
  let install := s.backend.descriptor.installPath s.installRoot
  let n := w.machine.processors
  let rendered ← perform causesOf
    (if write then s.backend.writeConfig n s.profile install
      else TaskM.ofExcept (s.backend.preview n s.profile install))
  printLine ("# " ++ rendered.path)
  print rendered.contents

def serve (w : World) (s : Settings) (port : Nat) : CommandM Unit :=
  match w.listen port with
  | .error cause => fail [cause.text]
  | .ok _ => printLines [
      "🌐 WebSocket Server listening on ws://127.0.0.1:" ++ decimal port,
      "   Default backend: " ++ s.backend.name,
      "   Connect from the host application to start a session.",
      "   Press Ctrl+C to stop server.\n"]

def Command.settings (s : Settings) : Command → Settings
  | .run o root maxRestarts duration truncateLog =>
    let s := override s o root
    { s with
      session := { s.session with
        maxRestarts := maxRestarts.getD s.session.maxRestarts
        truncateLog := s.session.truncateLog || truncateLog }
      simulator := { s.simulator with durationSecs := duration.getD s.simulator.durationSecs } }
  | .provision backend root => override s { backend := backend } root
  | .status root => override s {} root
  | .render o root _ => override s o root
  | .serve o root _ => override s o root

def execute (w : World) (s : Settings) : Command → CommandM Unit
  | .run _ _ _ _ _ => runSession w s
  | .provision _ _ => provision w s
  | .status _ => status s
  | .render _ _ write => render w s write
  | .serve _ _ port => serve w s port

def invoke (w : World) (i : Invocation) : CommandM Unit := do
  let s ← loadSettings w i.config
  execute w (i.command.settings s) i.command

def run (w : World) (words : List String) (d : Disk) : Report :=
  match read words with
  | .usage => ⟨2, "", ["see '" ++ program ++ " --help'"], d⟩
  | .help text => ⟨0, text, [], d⟩
  | .version => ⟨0, program ++ " " ++ version ++ "\n", [], d⟩
  | .invocation i =>
    match invoke w i ("", d) with
    | (.ok _, (out, d)) => ⟨0, out, [], d⟩
    | (.error causes, (out, d)) => ⟨1, out, causes, d⟩

/-! Files -/

/-- The files of one backend that a command may look at or change. -/
def backendFiles (s : Settings) (b : Backend) : List Path :=
  let desc := b.descriptor
  let install := desc.installPath s.installRoot
  (desc.executablePath install).toList ++
    [desc.configPath install, Path.join install Session.lockFile,
      Path.join install Session.logFile]

def settingsFiles (lookup : String → Option String) (words : List String) : List Path :=
  match read words with
  | .invocation i => (i.config.or (configFile? lookup)).toList
  | _ => []

/-- The files of all backends, with the settings that a disk holds. -/
def sessionFiles (w : World) (words : List String) (d : Disk) : List Path :=
  match read words with
  | .invocation i =>
    match loadSettings w i.config ("", d) with
    | (.ok s, _) =>
      let s := i.command.settings s
      Backend.all.flatMap (backendFiles s) ++ s.session.logFile.toList
    | (.error _, _) => []
  | _ => []

/-! Failures -/

def firstLine (s : String) : String := .ofList (s.toList.takeWhile (· != '\n'))

def causeLines : List String → List String
  | [] => []
  | [cause] => ["    " ++ cause]
  | causes => causes.zipIdx.map fun c => "    " ++ decimal c.2 ++ ": " ++ c.1

def failureText : List String → String
  | [] => ""
  | [cause] => "Error: " ++ cause ++ "\n"
  | cause :: causes =>
    "Error: " ++ cause ++ "\n\nCaused by:\n" ++
      "".intercalate ((causeLines causes).map (· ++ "\n"))

end RigWarden.CommandLine
