import RigWarden.Json.Basic

/-!
# How a worker ends

A worker ends with an exit code or by a signal. Only exit code 0 counts as success.
-/

namespace RigWarden

open Number

structure WorkerExit where
  code : Option Int
  signal : Option Int
  deriving Repr, DecidableEq, Inhabited

namespace WorkerExit

def success : WorkerExit := ⟨some 0, none⟩

def failure (code : Int) : WorkerExit := ⟨some code, none⟩

def bySignal (signal : Int) : WorkerExit := ⟨none, some signal⟩

def unknown : WorkerExit := ⟨none, none⟩

def isSuccess (e : WorkerExit) : Bool := e.code = some 0

def text (e : WorkerExit) : String :=
  match e.code, e.signal with
  | some code, _ => "exit code " ++ signed code
  | none, some signal => "signal " ++ signed signal
  | none, none => "unknown exit status"

def toJson (e : WorkerExit) : Json :=
  .object [("code", .ofOption .ofInt e.code), ("signal", .ofOption .ofInt e.signal)]

@[simp] theorem isSuccess_success : success.isSuccess = true := rfl

@[simp] theorem isSuccess_bySignal (s : Int) : (bySignal s).isSuccess = false := rfl

end WorkerExit
end RigWarden
