import RigWarden.Number.Unsigned
import RigWarden.Worker.Site

/-!
# Scripted workers

A script plays a worker: it says what each run writes and how it ends. Installed on a disk it is an
executable file that holds the number of the script. Of shell scripts only the lines are understood
that remove the script itself, sleep or exit.
-/

namespace RigWarden

open Text Number

inductive Ending where
  | exits (e : WorkerExit)
  /-- The worker runs until it is asked to end. -/
  | waits (e : WorkerExit)
  | stubborn
  deriving Repr, DecidableEq, Inhabited

structure Performance where
  output : Bytes
  ending : Ending
  deriving Repr, DecidableEq, Inhabited

/-- The performances of a worker in order; the last one is repeated. -/
abbrev Script := List Performance

/-- What a worker that has no answer of its own does when it is asked to end. -/
def terminated : List Act := [.exit (.bySignal 15)]

def Performance.behaviour (p : Performance) : Behaviour :=
  match p.ending with
  | .exits e => ⟨[.write p.output, .exit e], some terminated⟩
  | .waits e => ⟨[.write p.output], some [.exit e]⟩
  | .stubborn => ⟨[.write p.output], none⟩

namespace Script

def mark : Chars := "#!script ".toList

def fileOf (number : Nat) : Bytes := encodeUtf8 (mark ++ digits number ++ ['\n'])

def performance (s : Script) (n : Nat) : Performance := (s[n]?).getD (s.getLastD default)

def interpreters : List String := ["/bin/sh", "/bin/bash", "/usr/bin/sh", "/usr/bin/bash"]

/-- What a line of a shell script does. -/
def shellAct? (program : Path) (line : Chars) : Option Act :=
  let line := trimChars line
  let number (command : String) (limit : Nat) := (dropStart? command.toList line).bind (unsigned? limit)
  if line = "rm -f \"$0\"".toList then some (.remove program)
  else match number "sleep " limit64 with
    | some secs => some (.pause (.ofSecs secs))
    | none => (number "exit " 256).map fun code => .exit (.failure code)

def ofShell (program : Path) (text : Chars) : Behaviour :=
  ⟨(lines text).filterMap (shellAct? program) ++ [.exit .success], some terminated⟩

def execute (scripts : List Script) (program : Path) (data : Bytes) (n : Nat) :
    Except SystemError Behaviour :=
  let text := decodeLossy data
  match dropStart? mark text, dropStart? ['#', '!'] text with
  | some rest, _ =>
    let script := (scripts[ofDigits (rest.takeWhile isAsciiDigit)]?).getD []
    .ok (script.performance n).behaviour
  | none, some rest =>
    let interpreter := (trimChars (rest.takeWhile (· != '\n'))).takeWhile (· != ' ')
    if interpreters.contains (.ofList interpreter) then .ok (ofShell program text)
    else .error .notFound
  | none, none => .error .execFormat

/-- Installs a script where a backend looks for its program. -/
def install (root : Path) (b : Backend) (number mode : Nat) (d : Disk) : Disk :=
  match b.descriptor.executablePath (b.descriptor.installPath root) with
  | some p => (Disk.putFile p (fileOf number) (some mode) d).2
  | none => d

end Script
end RigWarden
