import RigWarden.Number.Unsigned

/-!
# Points in time and their text

A point in time counts seconds from the start of 1970, without leap seconds: in one of those the
nanoseconds of the second before it run on. The text gives the date and time of day in the Gregorian
calendar with `Z`, and as many groups of three fraction digits as it takes.
-/

namespace RigWarden

open Number Text

structure Instant where
  secs : Int
  nanos : Nat
  deriving Repr, DecidableEq, Inhabited

structure Date where
  year : Int
  month : Nat
  day : Nat
  deriving Repr, DecidableEq

/-- The date of a day counted from 1970-01-01. Years are counted from March within eras of 400. -/
def Date.ofDays (days : Int) : Date :=
  let shifted := days + 719468
  let era := shifted.fdiv 146097
  let dayOfEra := (shifted.fmod 146097).toNat
  let yearOfEra :=
    (dayOfEra - dayOfEra / 1460 + dayOfEra / 36524 - dayOfEra / 146096) / 365
  let dayOfYear := dayOfEra - (365 * yearOfEra + yearOfEra / 4 - yearOfEra / 100)
  let shiftedMonth := (5 * dayOfYear + 2) / 153
  let day := dayOfYear - (153 * shiftedMonth + 2) / 5 + 1
  let month := if shiftedMonth < 10 then shiftedMonth + 3 else shiftedMonth - 9
  ⟨(yearOfEra : Int) + era * 400 + (if month ≤ 2 then 1 else 0), month, day⟩

/-- Four digits, and a sign in front of years outside 0..9999. -/
def yearText (year : Int) : Chars :=
  if 0 ≤ year ∧ year ≤ 9999 then padded 4 year.natAbs
  else (if year < 0 then '-' else '+') :: padded 4 year.natAbs

def fractionText (nanos : Nat) : Chars :=
  if nanos = 0 then []
  else if nanos % 1000000 = 0 then '.' :: padded 3 (nanos / 1000000)
  else if nanos % 1000 = 0 then '.' :: padded 6 (nanos / 1000)
  else '.' :: padded 9 nanos

def Instant.text (t : Instant) : String :=
  let date := Date.ofDays (t.secs.fdiv 86400)
  let second := (t.secs.fmod 86400).toNat
  .ofList (yearText date.year ++ '-' :: padded 2 date.month ++ '-' :: padded 2 date.day ++
    'T' :: padded 2 (second / 3600) ++ ':' :: padded 2 (second / 60 % 60) ++
    ':' :: padded 2 (second % 60 + t.nanos / 1000000000) ++
    fractionText (t.nanos % 1000000000) ++ ['Z'])

def Instant.logText (t : Instant) : String :=
  let date := Date.ofDays (t.secs.fdiv 86400)
  let second := (t.secs.fmod 86400).toNat
  .ofList (yearText date.year ++ '-' :: padded 2 date.month ++ '-' :: padded 2 date.day ++
    ' ' :: padded 2 (second / 3600) ++ ':' :: padded 2 (second / 60 % 60) ++
    ':' :: padded 2 (second % 60))

end RigWarden
