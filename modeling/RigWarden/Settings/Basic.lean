import RigWarden.Session.Host

/-!
# Settings

What a user can set once for all sessions. Settings come from a file, and a few of them from the
environment, which goes first.
-/

namespace RigWarden

open Text

structure SessionSettings where
  provisionTimeoutSecs : Nat := 300
  /-- How long a worker may take to end after it was asked to. -/
  stopGraceSecs : Nat := 10
  maxRestarts : Nat := 0
  restartBackoffSecs : Nat := 2
  pollIntervalMs : Nat := 250
  channelCapacity : Nat := 256
  truncateLog : Bool := false
  logFile : Option Path := none
  deriving BEq, Inhabited

structure Settings where
  backend : Backend := .xmrig
  /-- The directory that holds one install directory for each backend. -/
  installRoot : Path
  profile : Profile := {}
  session : SessionSettings := {}
  simulator : Simulator.Options := {}
  /-- The sign of a share probability that is not a number. -/
  negativeNaN : Bool := false
  deriving BEq, Inhabited

namespace Settings

def defaultInstallRoot (dataDir : Path) : Path :=
  Path.join (Path.join dataDir "mining-session") "miners"

def defaultFile (configDir : Path) : Path :=
  Path.join (Path.join configDir "mining-session") "config.toml"

def present? (lookup : String → Option String) (name : String) : Option String :=
  (lookup name).filter fun v => !(trimChars v.toList).isEmpty

def withEnvironment (s : Settings) (lookup : String → Option String) : Settings :=
  let value := present? lookup
  { s with
    installRoot := (value "MINING_INSTALL_ROOT").getD s.installRoot
    profile := { s.profile with
      wallet := (value "MINING_WALLET_ADDRESS").getD s.profile.wallet
      pool := (value "MINING_POOL_URL").getD s.profile.pool
      worker := (value "MINING_WORKER_NAME").getD s.profile.worker } }

def minPollMs : Nat := 10

def sessionOptions (s : Settings) : SessionOptions :=
  { installRoot := s.installRoot
    provisionTimeout := .ofSecs s.session.provisionTimeoutSecs
    gracePeriod := .ofSecs s.session.stopGraceSecs
    restart := ⟨s.session.maxRestarts, .ofSecs s.session.restartBackoffSecs⟩
    pollInterval := .ofMillis (max s.session.pollIntervalMs minPollMs)
    channelCapacity := max s.session.channelCapacity 1
    logFile := s.session.logFile
    truncateLog := s.session.truncateLog
    simulator := s.simulator }

end Settings
end RigWarden
