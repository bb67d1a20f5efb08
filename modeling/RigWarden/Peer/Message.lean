import RigWarden.Event.Basic
import RigWarden.Json.Reader
import RigWarden.Json.Record
import RigWarden.Profile.Overrides
import RigWarden.Provision.State

/-!
# Messages between a peer and the service

Every message is a JSON record with its type in the field `type`. A message from a peer may also be
an array that starts with the type and holds all fields in order. Fields may be null or left out of
an object, but a known one must not occur twice.
-/

namespace RigWarden.Peer

open Number

inductive Request where
  | start (r : Overrides)
  | stop
  | provisionStatus (backend : Option Backend)
  deriving Repr, DecidableEq, Inhabited

inductive Reply where
  | connected (version : String)
  | sessionStarted (session : String) (backend : Backend)
  | event (e : Event)
  | provisionStatus (backend : Backend) (state : ProvisionState)
  | error (kind : Option ErrorKind) (message : String)

def Reply.toJson : Reply → Json
  | connected version => .object [("type", .string "connected"), ("version", .string version)]
  | sessionStarted session backend =>
    .object [("type", .string "session_started"), ("session", .string session),
      ("backend", .string backend.name)]
  | event e => e.toJson
  | provisionStatus backend state =>
    .object (("type", .string "provision_status") :: ("backend", .string backend.name) ::
      state.fields)
  | error kind message =>
    .object [("type", .string "error"), ("kind", .text (kind.map ErrorKind.name)),
      ("message", .string message)]

def Reply.ofError (e : Error) : Reply := .error (some e.kind) e.message

inductive Body where
  | named (fields : List (String × Json))
  | listed (items : List Json)

/-- The value of a field that may be missing or null. The inner `none` stands for both. -/
def Body.field? (body : Body) (name : String) (i : Nat) : Option (Option Json) :=
  let value : Option Json := match body with
    | .named fields =>
      match fields.filter (·.1 == name) with
      | [] => some .null
      | [f] => some f.2
      | _ => none
    | .listed items => items[i]?
  value.map fun
    | .null => none
    | j => some j

def Body.optional? {α : Type} (body : Body) (name : String) (i : Nat) (read : Json → Option α) :
    Option (Option α) :=
  match body.field? name i with
  | none => none
  | some none => some none
  | some (some j) => (read j).map some

/-- A list holds all the fields and nothing more. -/
def Body.holds (body : Body) (size : Nat) : Bool :=
  match body with
  | .named _ => true
  | .listed items => items.length = size

/-- A backend's name, or an object with the name as its only key and nothing under it. -/
def backend? : Json → Option Backend
  | .string name => Backend.ofName? name
  | .object [(name, .null)] => Backend.ofName? name
  | .object [(name, .object [])] => Backend.ofName? name
  | _ => none

def Body.overrides? (body : Body) : Option Overrides := do
  if !body.holds 7 then none
  return {
    backend := ← body.optional? "backend" 0 backend?
    pool := ← body.optional? "pool" 1 Json.string?
    wallet := ← body.optional? "wallet" 2 Json.string?
    worker := ← body.optional? "worker" 3 Json.string?
    algorithm := ← body.optional? "algorithm" 4 Json.string?
    threads := ← body.optional? "threads" 5 (Json.natural? limit64)
    maxCpuUsage := ← body.optional? "max_cpu_usage" 6 (Json.natural? Profile.capLimit) }

def Request.ofBody? (tag : String) (body : Body) : Option Request :=
  match tag with
  | "start_session" => body.overrides?.map .start
  | "stop_session" => if body.holds 0 then some .stop else none
  | "provision_status" =>
    if body.holds 1 then (body.optional? "backend" 0 backend?).map .provisionStatus else none
  | _ => none

def Request.ofJson? : Json → Option Request
  | .object fields =>
    match Json.unique? fields "type" with
    | some (.string tag) => Request.ofBody? tag (.named (fields.filter (·.1 != "type")))
    | _ => none
  | .array (.string tag :: items) => Request.ofBody? tag (.listed items)
  | _ => none

def Request.read? (text : String) : Option Request := (Json.read? text).bind Request.ofJson?

end RigWarden.Peer
