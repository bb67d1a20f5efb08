import RigWarden.Error
import RigWarden.Json.Writer

/-!
# How far provisioning has come

The last outcome for one backend. A failure keeps the kind and the text of its error.
-/

namespace RigWarden

inductive ProvisionState where
  | absent
  | downloading
  | extracting
  | ready
  | failed (kind : ErrorKind) (reason : String)
  deriving Repr, DecidableEq, Inhabited

namespace ProvisionState

def ofError (e : Error) : ProvisionState := failed e.kind e.message

def isReady (s : ProvisionState) : Bool := s = ready

def name : ProvisionState → String
  | absent => "absent"
  | downloading => "downloading"
  | extracting => "extracting"
  | ready => "ready"
  | failed _ _ => "failed"

def text : ProvisionState → String
  | failed _ reason => "failed: " ++ reason
  | s => s.name

def fields (s : ProvisionState) : List (String × Json) :=
  ("state", .string s.name) ::
    match s with
    | failed kind reason => [("kind", .string kind.name), ("reason", .string reason)]
    | _ => []

def toJson (s : ProvisionState) : Json := .object s.fields

def isSettled : ProvisionState → Bool
  | downloading => false
  | extracting => false
  | _ => true

end ProvisionState
end RigWarden
