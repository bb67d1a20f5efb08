import RigWarden.Text.Table

/-!
# Classes of characters

Blanks are the characters with the White_Space property, controls those of category Cc. Words and
digits are those of any script; below 128 the rules are spelled out and the tables are not read.
-/

namespace RigWarden.Text

def within (table : List (Nat × Nat)) (c : Char) : Bool :=
  table.any fun r => r.1 ≤ c.toNat && c.toNat ≤ r.2

def isBlank (c : Char) : Bool :=
  within [(9, 13), (32, 32), (0x85, 0x85), (0xA0, 0xA0), (0x1680, 0x1680), (0x2000, 0x200A),
    (0x2028, 0x2029), (0x202F, 0x202F), (0x205F, 0x205F), (0x3000, 0x3000)] c

def isControl (c : Char) : Bool :=
  within [(0, 31), (127, 159)] c

def isAsciiDigit (c : Char) : Bool :=
  within [(48, 57)] c

def isDigit (c : Char) : Bool :=
  if c.toNat < 128 then isAsciiDigit c else within digitRanges c

def isAsciiWord (c : Char) : Bool :=
  within [(48, 57), (65, 90), (95, 95), (97, 122)] c

/-- A character that can stand inside a word of any script. -/
def isWord (c : Char) : Bool :=
  if c.toNat < 128 then isAsciiWord c
  else if c.toNat < 0x1000 then within wordRangesLow c
  else if c.toNat < 0x10000 then within wordRangesBasic c
  else if c.toNat < 0x11400 then within wordRangesScripts c
  else within wordRangesHigh c

/-- The lower case of an ASCII capital; other characters stand for themselves. -/
def lower (c : Char) : Char :=
  if 65 ≤ c.toNat ∧ c.toNat ≤ 90 then Char.ofNat (c.toNat + 32) else c

/-- `c` is the lower case ASCII letter `letter` or a character that simple case folding identifies
with it: its capital, and the Kelvin sign for `k` and the long s for `s`. -/
def foldsTo (letter c : Char) : Bool :=
  lower c == letter || (letter == 'k' && c.toNat == 0x212A) || (letter == 's' && c.toNat == 0x17F)

end RigWarden.Text
