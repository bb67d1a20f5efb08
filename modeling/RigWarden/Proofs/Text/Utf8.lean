import RigWarden.Text.Utf8

/-!
# Reading back what was encoded

The bytes of a character read as that character, from between characters to between characters. So
an encoded text reads back, and a byte below 128 stands for itself wherever it occurs.
-/

namespace RigWarden.Text

theorem toNat_ofNat_of_lt {n : Nat} (h : n < 256) : (UInt8.ofNat n).toNat = n := by
  rw [UInt8.toNat_ofNat', Nat.mod_eq_of_lt h]

section steps

variable {low high code n : Nat}

theorem stepUtf8_last (hlow : low ≤ n) (hhigh : n ≤ high) (h : n < 256) :
    stepUtf8 (some ⟨0, low, high, code⟩) (UInt8.ofNat n) =
      ([some (Char.ofNat (code * 64 + (n - 0x80)))], none) := by
  simp only [stepUtf8, toNat_ofNat_of_lt h, hlow, hhigh, and_self, if_true]

theorem stepUtf8_more {owed : Nat} (hlow : low ≤ n) (hhigh : n ≤ high) (h : n < 256) :
    stepUtf8 (some ⟨owed + 1, low, high, code⟩) (UInt8.ofNat n) =
      ([], some ⟨owed, 0x80, 0xBF, code * 64 + (n - 0x80)⟩) := by
  simp only [stepUtf8, toNat_ofNat_of_lt h, hlow, hhigh, and_self, if_true]

end steps

section starts

variable {n : Nat}

theorem startUtf8_one (h : n < 0x80) :
    startUtf8 (UInt8.ofNat n) = ([some (Char.ofNat n)], none) := by
  simp only [startUtf8, toNat_ofNat_of_lt (Nat.lt_trans h (by decide)), h, if_true]

/-- The first of two bytes. -/
theorem startUtf8_two (hlow : 0x80 ≤ n) (hhigh : n < 0x800) :
    startUtf8 (UInt8.ofNat (n / 64 % 32 + 192)) = ([], some ⟨0, 0x80, 0xBF, n / 64⟩) := by
  rw [startUtf8, toNat_ofNat_of_lt (by omega), if_neg (by omega), if_pos (by omega)]
  simp only [Prod.mk.injEq, Option.some.injEq, Unfinished.mk.injEq, true_and]
  omega

/-- The first of three bytes, and where it lets the second one lie. -/
theorem startUtf8_three (hlow : 0x800 ≤ n) (hhigh : n < 0x10000) (hvalid : n < 0xD800 ∨ 0xDFFF < n) :
    ∃ low high, startUtf8 (UInt8.ofNat (n / 4096 % 16 + 224)) = ([], some ⟨1, low, high, n / 4096⟩) ∧
      low ≤ n / 64 % 64 + 128 ∧ n / 64 % 64 + 128 ≤ high := by
  have hlead : n / 4096 % 16 + 224 = n / 4096 + 224 := by omega
  rw [startUtf8, hlead, toNat_ofNat_of_lt (by omega), if_neg (by omega), if_neg (by omega)]
  by_cases hfirst : n / 4096 = 0
  · rw [if_pos (by omega), hfirst]
    exact ⟨_, _, rfl, by omega, by omega⟩
  · rw [if_neg (by omega)]
    by_cases hsurrogate : n / 4096 = 13
    · rw [if_pos (by omega), hsurrogate]
      exact ⟨_, _, rfl, by omega, by omega⟩
    · rw [if_neg (by omega), if_pos (by omega), Nat.add_sub_cancel]
      exact ⟨_, _, rfl, by omega, by omega⟩

/-- The first of four bytes, and where it lets the second one lie. -/
theorem startUtf8_four (hlow : 0x10000 ≤ n) (hhigh : n < 0x110000) :
    ∃ low high, startUtf8 (UInt8.ofNat (n / 262144 % 8 + 240)) =
        ([], some ⟨2, low, high, n / 262144⟩) ∧
      low ≤ n / 4096 % 64 + 128 ∧ n / 4096 % 64 + 128 ≤ high := by
  have hlead : n / 262144 % 8 + 240 = n / 262144 + 240 := by omega
  rw [startUtf8, hlead, toNat_ofNat_of_lt (by omega), if_neg (by omega), if_neg (by omega),
    if_neg (by omega), if_neg (by omega), if_neg (by omega)]
  by_cases hfirst : n / 262144 = 0
  · rw [if_pos (by omega), hfirst]
    exact ⟨_, _, rfl, by omega, by omega⟩
  · rw [if_neg (by omega)]
    by_cases hmiddle : n / 262144 < 4
    · rw [if_pos (by omega), Nat.add_sub_cancel]
      exact ⟨_, _, rfl, by omega, by omega⟩
    · have hlast : n / 262144 = 4 := by omega
      rw [if_neg (by omega), if_pos (by omega), hlast]
      exact ⟨_, _, rfl, by omega, by omega⟩

end starts

theorem readUtf8_utf8EncodeChar (c : Char) (bs : Bytes) :
    readUtf8 none (String.utf8EncodeChar c ++ bs) = some c :: readUtf8 none bs := by
  have hback (n : Nat) (h : n = c.toNat) : Char.ofNat n = c := by rw [h, Char.ofNat_toNat]
  have hvalid : c.toNat < 0xD800 ∨ 0xDFFF < c.toNat ∧ c.toNat < 0x110000 := c.valid
  have hstart (b : UInt8) (rest : Bytes) :
      readUtf8 none (b :: rest) = (startUtf8 b).1 ++ readUtf8 (startUtf8 b).2 rest := rfl
  change readUtf8 none ((if c.toNat ≤ 127 then [UInt8.ofNat c.toNat] else _) ++ bs) = _
  by_cases hone : c.toNat ≤ 127
  · rw [if_pos hone, List.singleton_append, hstart, startUtf8_one (by omega), hback _ rfl]
    rfl
  rw [if_neg hone]
  change readUtf8 none ((if c.toNat ≤ 2047 then
    [UInt8.ofNat (c.toNat / 64 % 32 + 192), UInt8.ofNat (c.toNat % 64 + 128)] else _) ++ bs) = _
  by_cases htwo : c.toNat ≤ 2047
  · rw [if_pos htwo, List.cons_append, List.singleton_append, hstart,
      startUtf8_two (by omega) (by omega), readUtf8_cons,
      stepUtf8_last (by omega) (by omega) (by omega), hback _ (by omega)]
    rfl
  rw [if_neg htwo]
  change readUtf8 none ((if c.toNat ≤ 65535 then
    [UInt8.ofNat (c.toNat / 4096 % 16 + 224), UInt8.ofNat (c.toNat / 64 % 64 + 128),
      UInt8.ofNat (c.toNat % 64 + 128)] else
    [UInt8.ofNat (c.toNat / 262144 % 8 + 240), UInt8.ofNat (c.toNat / 4096 % 64 + 128),
      UInt8.ofNat (c.toNat / 64 % 64 + 128), UInt8.ofNat (c.toNat % 64 + 128)]) ++ bs) = _
  by_cases hthree : c.toNat ≤ 65535
  · obtain ⟨low, high, hlead, hlow, hhigh⟩ :=
      startUtf8_three (n := c.toNat) (by omega) (by omega) (by omega)
    rw [if_pos hthree, List.cons_append, List.cons_append, List.singleton_append, hstart, hlead,
      readUtf8_cons, stepUtf8_more hlow hhigh (by omega), readUtf8_cons,
      stepUtf8_last (by omega) (by omega) (by omega), hback _ (by omega)]
    rfl
  · obtain ⟨low, high, hlead, hlow, hhigh⟩ := startUtf8_four (n := c.toNat) (by omega) (by omega)
    rw [if_neg hthree, List.cons_append, List.cons_append, List.cons_append, List.singleton_append,
      hstart, hlead, readUtf8_cons, stepUtf8_more hlow hhigh (by omega), readUtf8_cons,
      stepUtf8_more (by omega) (by omega) (by omega), readUtf8_cons,
      stepUtf8_last (by omega) (by omega) (by omega), hback _ (by omega)]
    rfl

theorem utf8Items_encodeUtf8 (cs : Chars) : utf8Items (encodeUtf8 cs) = cs.map some := by
  induction cs with
  | nil => rfl
  | cons c cs ih =>
    rw [encodeUtf8, List.flatMap_cons, utf8Items, readUtf8_utf8EncodeChar, List.map_cons, ← ih]
    rfl

@[simp] theorem decodeLossy_encodeUtf8 (cs : Chars) : decodeLossy (encodeUtf8 cs) = cs := by
  rw [decodeLossy, utf8Items_encodeUtf8, List.map_map]
  exact List.map_id cs

@[simp] theorem chars_eq_toList (s : String) : chars s = s.toList := by
  have hbytes : s.toByteArray.data.toList = encodeUtf8 s.toList := by
    rw [← String.utf8Encode_toList, List.utf8Encode, List.data_toByteArray]
    rfl
  rw [chars, hbytes, decodeLossy_encodeUtf8]

/-- Only the byte of an ASCII character lies below 128. -/
theorem toNat_of_mem_utf8EncodeChar {c : Char} {b : UInt8} (h : b ∈ String.utf8EncodeChar c)
    (hb : b.toNat < 0x80) : c.toNat = b.toNat := by
  have hnot {k n : Nat} (hk : 0x80 ≤ k) (hn : n < 256 - k) (he : b = UInt8.ofNat (n + k)) : False := by
    rw [he, toNat_ofNat_of_lt (by omega)] at hb
    omega
  rw [String.utf8EncodeChar.eq_1] at h
  split at h
  · next hc =>
    have hlt : c.toNat < 256 := Nat.lt_of_le_of_lt hc (by decide)
    rw [List.mem_singleton.1 h]
    exact (toNat_ofNat_of_lt hlt).symm
  exfalso
  split at h
  · simp only [List.mem_cons, List.not_mem_nil, or_false] at h
    rcases h with h | h
    · exact hnot (by decide) (by omega) h
    · exact hnot (by decide) (by omega) h
  split at h
  · simp only [List.mem_cons, List.not_mem_nil, or_false] at h
    rcases h with h | h | h
    · exact hnot (by decide) (by omega) h
    · exact hnot (by decide) (by omega) h
    · exact hnot (by decide) (by omega) h
  · simp only [List.mem_cons, List.not_mem_nil, or_false] at h
    rcases h with h | h | h | h
    · exact hnot (by decide) (by omega) h
    · exact hnot (by decide) (by omega) h
    · exact hnot (by decide) (by omega) h
    · exact hnot (by decide) (by omega) h

theorem notMem_encodeUtf8 {cs : Chars} {c : Char} (hc : c.toNat < 0x80) (h : c ∉ cs) :
    UInt8.ofNat c.toNat ∉ encodeUtf8 cs := by
  intro hmem
  obtain ⟨d, hd, hb⟩ := List.mem_flatMap.1 hmem
  have hbyte := toNat_ofNat_of_lt (n := c.toNat) (by omega)
  have heq : d.toNat = c.toNat := (toNat_of_mem_utf8EncodeChar hb (by omega)).trans hbyte
  rw [← Char.ofNat_toNat d, heq, Char.ofNat_toNat] at hd
  exact h hd

end RigWarden.Text
