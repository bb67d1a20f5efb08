import RigWarden.Text.Trim

/-!
# UTF-8

The reader takes one byte at a time. A sequence that breaks off counts as one broken item, and the
byte that broke it is read again from the start. The lossy reading shows U+FFFD for each broken
item; the strict one refuses them.
-/

namespace RigWarden.Text

abbrev Bytes := List UInt8

def encodeUtf8 (cs : Chars) : Bytes := cs.flatMap String.utf8EncodeChar

def utf8 (s : String) : Bytes := encodeUtf8 s.toList

/-- A sequence whose last `owed + 1` bytes are missing; the next one lies in `low..high`. -/
structure Unfinished where
  owed : Nat
  low : Nat
  high : Nat
  code : Nat
  deriving Repr, DecidableEq

/-- An item is a character, or `none` for broken bytes. -/
abbrev Utf8Item := Option Char

def startUtf8 (b : UInt8) : List Utf8Item × Option Unfinished :=
  let n := b.toNat
  if n < 0x80 then ([some (Char.ofNat n)], none)
  else if 0xC2 ≤ n ∧ n ≤ 0xDF then ([], some ⟨0, 0x80, 0xBF, n - 0xC0⟩)
  else if n = 0xE0 then ([], some ⟨1, 0xA0, 0xBF, 0⟩)
  else if n = 0xED then ([], some ⟨1, 0x80, 0x9F, 0xD⟩)
  else if 0xE1 ≤ n ∧ n ≤ 0xEF then ([], some ⟨1, 0x80, 0xBF, n - 0xE0⟩)
  else if n = 0xF0 then ([], some ⟨2, 0x90, 0xBF, 0⟩)
  else if 0xF1 ≤ n ∧ n ≤ 0xF3 then ([], some ⟨2, 0x80, 0xBF, n - 0xF0⟩)
  else if n = 0xF4 then ([], some ⟨2, 0x80, 0x8F, 4⟩)
  else ([none], none)

def stepUtf8 : Option Unfinished → UInt8 → List Utf8Item × Option Unfinished
  | none, b => startUtf8 b
  | some u, b =>
    let n := b.toNat
    if u.low ≤ n ∧ n ≤ u.high then
      let code := u.code * 64 + (n - 0x80)
      match u.owed with
      | 0 => ([some (Char.ofNat code)], none)
      | owed + 1 => ([], some ⟨owed, 0x80, 0xBF, code⟩)
    else
      let (items, next) := startUtf8 b
      (none :: items, next)

def readUtf8 : Option Unfinished → Bytes → List Utf8Item
  | none, [] => []
  | some _, [] => [none]
  | s, b :: bs => (stepUtf8 s b).1 ++ readUtf8 (stepUtf8 s b).2 bs

def utf8Items (bs : Bytes) : List Utf8Item := readUtf8 none bs

def replacement : Char := Char.ofNat 0xFFFD

def decodeLossy (bs : Bytes) : Chars := (utf8Items bs).map (·.getD replacement)

/-- The characters of a text, read off its bytes. They are those of `String.toList`, which decodes by
well-founded recursion: with long texts the kernel gets through this reading much sooner. -/
def chars (s : String) : Chars := decodeLossy s.toByteArray.data.toList

def decodeStrict? (bs : Bytes) : Option Chars := (utf8Items bs).mapM id

@[simp] theorem utf8Items_nil : utf8Items [] = [] := rfl

theorem readUtf8_cons (s : Option Unfinished) (b : UInt8) (bs : Bytes) :
    readUtf8 s (b :: bs) = (stepUtf8 s b).1 ++ readUtf8 (stepUtf8 s b).2 bs := by
  cases s <;> rfl

end RigWarden.Text
