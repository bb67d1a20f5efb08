import RigWarden.SystemError
import RigWarden.Text.Utf8

/-!
# Following a log

A tailer reads what was appended since it last looked and gives out complete lines, each once. An
unfinished line is kept until its end arrives. A log that got shorter is read again from its start.
-/

namespace RigWarden.Log

open Text

inductive View where
  | absent
  /-- Its length cannot be asked for. -/
  | hidden (cause : SystemError)
  /-- It has a length but cannot be read. -/
  | unreadable (length : Nat) (cause : SystemError)
  | content (bytes : Bytes)

structure Tailer where
  position : Nat
  pending : Bytes
  deriving Repr, DecidableEq, Inhabited

def lineFeed : UInt8 := 10

def carriageReturn : UInt8 := 13

/-- The text of a line's bytes, without one final carriage return. -/
def lineText (bs : Bytes) : Chars := decodeLossy (dropLastIf carriageReturn bs)

/-- The complete lines of some bytes, empty ones left out. -/
def completeLines (bs : Bytes) : List Chars :=
  ((splitOn lineFeed bs).dropLast.filter (· ≠ [])).map lineText

def unfinished (bs : Bytes) : Bytes := (splitOn lineFeed bs).getLastD []

namespace Tailer

def fromStart : Tailer := ⟨0, []⟩

def fromEnd : View → Tailer
  | .unreadable length _ => ⟨length, []⟩
  | .content bytes => ⟨bytes.length, []⟩
  | _ => fromStart

/-- Starts again when the log is shorter than what was read. -/
def rewind (t : Tailer) (length : Nat) : Tailer := if length < t.position then fromStart else t

def poll (t : Tailer) : View → Except SystemError (List Chars) × Tailer
  | .absent => (.ok [], t)
  | .hidden cause => (.error cause, t)
  | .unreadable length cause =>
    let t := t.rewind length
    if length = t.position then (.ok [], t) else (.error cause, t)
  | .content bytes =>
    let t := t.rewind bytes.length
    let bs := t.pending ++ bytes.drop t.position
    (.ok (completeLines bs), ⟨bytes.length, unfinished bs⟩)

end Tailer

@[simp] theorem completeLines_nil : completeLines [] = [] := rfl

@[simp] theorem unfinished_nil : unfinished [] = [] := rfl

theorem Tailer.poll_absent (t : Tailer) : t.poll .absent = (.ok [], t) := rfl

end RigWarden.Log
