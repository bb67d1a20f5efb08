import RigWarden.Provision.Install
import RigWarden.Provision.State

/-!
# Provisioning a backend

Provisioning makes the program of a backend available under an install root. A program that is there
is left alone; otherwise its release is fetched once and installed. Every step that is worth knowing
is recorded, and the last record of a backend is its status.
-/

namespace RigWarden

/-- What a fetcher delivers. It may be that the caller gives up while it works. -/
structure Fetched where
  result : Except Error (List Archive.Item)
  cancels : Bool := false

/-- Everything outside that one provisioning run depends on. -/
structure ProvisionEnv where
  fetch : (url : String) → (deadline : Clock) → Fetched
  now : Clock
  timeout : Duration
  /-- The looks at clock and token while the archive is unpacked. -/
  looks : Nat → Provision.Look
  /-- The caller has given up by the time provisioning is over. -/
  cancelledAfter : Bool := false
  /-- The order in which a directory lists its entries. -/
  order : List String → List String := id

structure Provisioner where
  root : Path
  /-- All states recorded so far, the latest first. -/
  records : List (Backend × ProvisionState) := []
  fetches : Nat := 0
  deriving Inhabited

inductive Halt where
  | error (e : Error)
  /-- Its deadline lies beyond what the clock can show, and the calling thread is lost. -/
  | overflow
  deriving Repr, DecidableEq

namespace Provisioner

def installPath (p : Provisioner) (desc : Descriptor) : Path := desc.installPath p.root

def recorded? (p : Provisioner) (b : Backend) : Option ProvisionState :=
  (p.records.find? (·.1 == b)).map Prod.snd

def record (p : Provisioner) (b : Backend) (s : ProvisionState) : Provisioner :=
  { p with records := (b, s) :: p.records }

def isInstalled (p : Provisioner) (d : Disk) (desc : Descriptor) : Bool :=
  match desc.executablePath (p.installPath desc) with
  | some executable => d.isFile executable
  | none => true

/-- The last record, or what the disk shows when there is none. -/
def status (p : Provisioner) (d : Disk) (desc : Descriptor) : ProvisionState :=
  match p.recorded? desc.backend with
  | some s => s
  | none => if p.isInstalled d desc then .ready else .absent

/-- Makes the install root, and a file in it for the download. -/
def openDownload (p : Provisioner) (desc : Descriptor) (d : Disk) :
    Except Error Path × Provisioner × Disk :=
  match TaskM.doing ("creating " ++ p.root) (Disk.makeDirs p.root) d with
  | (.error e, d) => (.error e, p, d)
  | (.ok _, d) =>
    let p := p.record desc.backend .downloading
    let download := d.temporaryPath p.root ".download-" ".tar.gz"
    match TaskM.doing "creating temporary download" (Disk.createNew download 0o600) d with
    | (.error e, d) => (.error e, p, d)
    | (.ok _, d) => (.ok download, p, d)

def fetch (p : Provisioner) (env : ProvisionEnv) (desc : Descriptor) (artifact : Artifact)
    (deadline : Clock) : Except Error (List Archive.Item) × Provisioner :=
  let p := { p with fetches := p.fetches + 1 }
  match (env.fetch artifact.url deadline).result with
  | .error e => (.error e, p)
  | .ok items => (.ok items, p.record desc.backend .extracting)

def install (p : Provisioner) (env : ProvisionEnv) (desc : Descriptor) (artifact : Artifact)
    (deadline : Clock) (items : List Archive.Item) (d : Disk) : Except Error Unit × Disk :=
  let goOn (n : Nat) := (env.looks n).check deadline "extraction"
  Provision.install goOn env.order desc artifact.strip p.root items d

def fetchAndInstall (p : Provisioner) (env : ProvisionEnv) (desc : Descriptor)
    (artifact : Artifact) (deadline : Clock) (d : Disk) :
    Except Error Unit × Provisioner × Disk :=
  match p.openDownload desc d with
  | (.error e, p, d) => (.error e, p, d)
  | (.ok download, p, d) =>
    match p.fetch env desc artifact deadline with
    | (.error e, p) => (.error e, p, d.without download)
    | (.ok items, p) =>
      let (r, d) := p.install env desc artifact deadline items d
      (r, p, d.without download)

def provisionBuiltIn (p : Provisioner) (desc : Descriptor) (d : Disk) :
    Except Halt Path × Provisioner × Disk :=
  let install := p.installPath desc
  match TaskM.doing ("creating " ++ install) (Disk.makeDirs install) d with
  | (.ok _, d) => (.ok install, p.record desc.backend .ready, d)
  | (.error e, d) => (.error (.error e), p, d)

def conclude (p : Provisioner) (desc : Descriptor) (r : Except Error Unit) :
    Except Halt Path × Provisioner :=
  match r with
  | .ok _ => (.ok (p.installPath desc), p.record desc.backend .ready)
  | .error e => (.error (.error e), p.record desc.backend (.ofError e))

def provision (p : Provisioner) (env : ProvisionEnv) (desc : Descriptor) (d : Disk) :
    Except Halt Path × Provisioner × Disk :=
  match desc.artifact with
  | none => p.provisionBuiltIn desc d
  | some artifact =>
    if p.isInstalled d desc then (.ok (p.installPath desc), p.record desc.backend .ready, d)
    else match env.now.add? env.timeout with
      | none => (.error .overflow, p, d)
      | some deadline =>
        let (r, p, d) := p.fetchAndInstall env desc artifact deadline d
        let (r, p) := p.conclude desc r
        (r, p, d)

def ensure (p : Provisioner) (env : ProvisionEnv) (desc : Descriptor) (d : Disk) :
    Except Halt ProvisionState × Provisioner × Disk :=
  match p.provision env desc d with
  | (.ok _, p, d) => (.ok .ready, p, d)
  | (.error (.error e), p, d) => (.ok (.ofError e), p, d)
  | (.error .overflow, p, d) => (.error .overflow, p, d)

end Provisioner
end RigWarden
