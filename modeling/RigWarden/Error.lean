import RigWarden.Path
import RigWarden.SystemError
import RigWarden.Worker.Exit

/-!
# Why a session or its preparation fails

Each constructor is a cause. Its kind is what a peer can branch on; its text is for people.
-/

namespace RigWarden

open Number

inductive ErrorKind where
  | network
  | archive
  | configuration
  | launch
  | processCrash
  | timeout
  | sessionBusy
  | cancelled
  | io
  deriving Repr, DecidableEq

def ErrorKind.name : ErrorKind → String
  | network => "network"
  | archive => "archive"
  | configuration => "configuration"
  | launch => "launch"
  | processCrash => "process_crash"
  | timeout => "timeout"
  | sessionBusy => "session_busy"
  | cancelled => "cancelled"
  | io => "io"

inductive NetworkFault where
  /-- The server answered with a status outside 200..=299. -/
  | refused (status : String) (url : String)
  | truncated (received expected : Nat)
  | broken (text : String)
  deriving Repr, DecidableEq

def NetworkFault.text : NetworkFault → String
  | refused status url => "HTTP " ++ status ++ " from " ++ url
  | truncated received expected =>
    "truncated transfer: received " ++ decimal received ++ " of " ++ decimal expected ++ " bytes"
  | broken text => text

inductive ArchiveFault where
  | unreadable (text : String)
  | empty
  | lacks (executable : String)
  | unsafePath (path : Path)
  | hardLink (path : Path)
  | unsafeLink (path target : Path)
  deriving Repr, DecidableEq

def ArchiveFault.text : ArchiveFault → String
  | unreadable text => text
  | empty => "archive is empty"
  | lacks executable => "archive does not contain '" ++ executable ++ "'"
  | unsafePath path => "refusing to unpack '" ++ path ++ "'"
  | hardLink path => "refusing hard link '" ++ path ++ "'"
  | unsafeLink path target => "refusing symlink '" ++ path ++ "' -> '" ++ target ++ "'"

inductive ConfigurationFault where
  | blank
  | forbiddenCharacter
  | placeholder (value : String)
  | noPort
  | noHost
  | badPort (port : String)
  | capOutOfRange (cap : Nat)
  | unknownBackend (name : String)
  | templateValueMissing
  | unresolvedToken (token : String)
  | renderedPlaceholder (value : String)
  | noParent
  | other (text : String)
  deriving Repr, DecidableEq

def ConfigurationFault.text : ConfigurationFault → String
  | blank => "must not be empty"
  | forbiddenCharacter => "must not contain quotes or control characters"
  | placeholder value => "'" ++ value ++ "' is a placeholder, set a real value"
  | noPort => "expected host:port"
  | noHost => "host is empty"
  | badPort port => "invalid port '" ++ port ++ "'"
  | capOutOfRange cap => decimal cap ++ " is outside 1..=100"
  | unknownBackend name => "unknown backend '" ++ name ++ "'"
  | templateValueMissing => "template placeholder has no value"
  | unresolvedToken token => "unresolved placeholder " ++ token
  | renderedPlaceholder value => "placeholder value '" ++ value ++ "' in rendered config"
  | noParent => "config path has no parent directory"
  | other text => text

inductive Error where
  | network (fault : NetworkFault)
  | archive (fault : ArchiveFault)
  | configuration (field : String) (fault : ConfigurationFault)
  | launch (program : Path) (cause : SystemError)
  | processCrash (exit : WorkerExit)
  | timeout (what : String)
  | sessionBusy (path : Path)
  | cancelled
  | io (context : String) (cause : SystemError)
  deriving Repr, DecidableEq

namespace Error

def kind : Error → ErrorKind
  | network _ => .network
  | archive _ => .archive
  | configuration _ _ => .configuration
  | launch _ _ => .launch
  | processCrash _ => .processCrash
  | timeout _ => .timeout
  | sessionBusy _ => .sessionBusy
  | cancelled => .cancelled
  | io _ _ => .io

def message : Error → String
  | network fault => "download failed: " ++ fault.text
  | archive fault => "archive error: " ++ fault.text
  | configuration field fault => "configuration error in '" ++ field ++ "': " ++ fault.text
  | launch program cause => "failed to launch " ++ program ++ ": " ++ cause.text
  | processCrash exit => "worker crashed with " ++ exit.text
  | timeout what => what ++ " timed out"
  | sessionBusy path => "another session is already running in " ++ path
  | cancelled => "operation cancelled"
  | io context cause => context ++ ": " ++ cause.text

def cause? : Error → Option SystemError
  | launch _ cause => some cause
  | io _ cause => some cause
  | _ => none

end Error
end RigWarden
