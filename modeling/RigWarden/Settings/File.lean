import RigWarden.Settings.Text

/-!
# The settings file

A missing file is made, with the defaults in it. What the environment says is never written.
-/

namespace RigWarden

open Text

inductive SettingsFault where
  | directory
  | file
  | read (p : Path)
  | parse (p : Path)
  deriving Repr, DecidableEq

def SettingsFault.text : SettingsFault → String
  | directory => "Failed to create config directory"
  | file => "Failed to write config file"
  | read p => "Failed to read " ++ p
  | parse p => "Failed to parse " ++ p

abbrev SettingsM := ExceptT SettingsFault (StateM Disk)

namespace Settings

def doing {α : Type} (fault : SettingsFault) (op : DiskM α) : SettingsM α := fun d =>
  match op d with
  | (.ok a, d) => (.ok a, d)
  | (.error _, d) => (.error fault, d)

def save (s : Settings) (p : Path) : SettingsM Unit := do
  match Path.parent? p with
  | some dir => doing .directory (Disk.makeDirs dir)
  | none => pure ()
  doing .file (Disk.writeFile p (utf8 s.text))

def ofText (root p : Path) (contents : String) : SettingsM Settings :=
  match parse? root contents with
  | some s => pure s
  | none => throw (.parse p)

def loadFile (root p : Path) : SettingsM Settings := do
  if (← doing (.read p) (Disk.ask (Disk.exists? · p))) then
    ofText root p (← doing (.read p) (Disk.readText p))
  else
    let s : Settings := { installRoot := root }
    s.save p
    return s

def load (root p : Path) (lookup : String → Option String) : SettingsM Settings := do
  return (← loadFile root p).withEnvironment lookup

end Settings
end RigWarden
