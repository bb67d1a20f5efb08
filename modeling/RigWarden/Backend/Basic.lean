import RigWarden.Error

/-!
# Backends

The kinds of worker: two miners that are downloaded and a simulator that is built in. A descriptor
says where the program of a backend comes from and how its install directory is laid out.
-/

namespace RigWarden

open Text

inductive Backend where
  | xmrig
  | srbMiner
  | simulated
  deriving Repr, DecidableEq, Inhabited

/-- A release archive. `strip` leading components of its paths are dropped. -/
structure Artifact where
  url : String
  strip : Nat
  deriving Repr, DecidableEq

structure Descriptor where
  backend : Backend
  /-- Missing for a backend that needs nothing downloaded. -/
  artifact : Option Artifact
  installDir : String
  executable : Option String
  configFile : String
  deriving Repr, DecidableEq

namespace Backend

def all : List Backend := [xmrig, srbMiner, simulated]

def name : Backend → String
  | xmrig => "xmrig"
  | srbMiner => "srbminer"
  | simulated => "simulated"

def ofName? (s : String) : Option Backend := all.find? (·.name == s)

/-- Reads a name in any case with blanks around it. -/
def parse (s : String) : Except Error Backend :=
  match all.find? fun b => eqIgnoreCase b.name.toList (trimChars s.toList) with
  | some b => .ok b
  | none => .error (.configuration "backend" (.unknownBackend s))

def descriptor : Backend → Descriptor
  | xmrig =>
    { backend := xmrig
      artifact := some
        ⟨"https://github.com/xmrig/xmrig/releases/download/v6.21.0/xmrig-6.21.0-linux-static-x64.tar.gz",
          1⟩
      installDir := "xmrig"
      executable := some "xmrig"
      configFile := "config.json" }
  | srbMiner =>
    { backend := srbMiner
      artifact := some
        ⟨"https://github.com/doktor83/SRBMiner-Multi/releases/download/2.4.7/SRBMiner-Multi-2-4-7-Linux.tar.gz",
          1⟩
      installDir := "srbminer"
      executable := some "SRBMiner-MULTI"
      configFile := "config.txt" }
  | simulated =>
    { backend := simulated
      artifact := none
      installDir := "simulated"
      executable := none
      configFile := "simulator.txt" }

end Backend

namespace Descriptor

def installPath (d : Descriptor) (root : Path) : Path := Path.join root d.installDir

def executablePath (d : Descriptor) (install : Path) : Option Path :=
  d.executable.map (Path.join install)

def configPath (d : Descriptor) (install : Path) : Path := Path.join install d.configFile

end Descriptor
end RigWarden
