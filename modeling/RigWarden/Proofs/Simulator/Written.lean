import RigWarden.Proofs.Config.Inspection
import RigWarden.Proofs.Log.Following
import RigWarden.Proofs.Simulator.Lines
import RigWarden.Proofs.Text.Utf8
import RigWarden.Simulator.Behaviour

/-!
# The simulator's lines as bytes

A log is read back line by line as it was written, as long as every text stays on its line and does
not end in a carriage return. That holds of all the simulator writes; the values of its banner come
from lines of its configuration.
-/

namespace RigWarden

open Text Number

/-! Values of a configuration -/

namespace KeyValue

theorem settled_of_entry? {line : Chars} (hline : '\n' ∉ line) {e : String × String}
    (h : entry? line = some e) : Settled e.2 := by
  unfold entry? at h
  split at h
  · cases h
  · cases h
  · obtain ⟨p, hp, rfl⟩ := Option.map_eq_some_iff.1 h
    have hvalue : '\n' ∉ p.2 := by
      intro hc
      have hmem : '\n' ∈ p.1 ++ '=' :: p.2 := by simp [hc]
      rw [← (splitFirst_eq_some_iff.1 hp).1] at hmem
      exact hline (mem_of_mem_trimChars hmem)
    have hsettled : Settled (trim (.ofList p.2)) := settled_trim (by rwa [String.toList_ofList])
    rwa [trim, String.toList_ofList] at hsettled

/-- The values of a configuration stand on lines, without blanks around them. -/
theorem settled_of_get?_parse {text key value : String} (h : (parse text).get? key = some value) :
    Settled value := by
  obtain ⟨e, he, rfl⟩ := Option.map_eq_some_iff.1 h
  have hmem : e ∈ parse text := List.mem_of_find?_eq_some he
  rw [parse, chars_eq_toList, parseChars_eq] at hmem
  obtain ⟨line, hline, hentry⟩ := List.mem_filterMap.1 (KeyMap.mem_of_mem_ofList hmem)
  exact settled_of_entry? (notMem_of_mem_splitOn hline) hentry

theorem settled_field (text key : String) : Settled (((parse text).get? key).getD "?") := by
  cases h : (parse text).get? key with
  | none => exact ⟨by decide, by decide⟩
  | some value => exact settled_of_get?_parse h

end KeyValue

namespace Simulator

/-- A text that stays on its line and is read back as it is. -/
structure Loggable (cs : Chars) : Prop where
  ne_nil : cs ≠ []
  lineFeed : '\n' ∉ cs
  carriageReturn : cs.getLast? ≠ some '\r'

theorem Loggable.lineText {cs : Chars} (h : Loggable cs) : Log.lineText (encodeUtf8 cs) = cs := by
  obtain ⟨init, last, rfl⟩ := (List.eq_nil_or_concat' cs).resolve_left h.ne_nil
  have hlast : last ≠ '\r' := fun he => h.carriageReturn (by rw [he, List.getLast?_concat])
  have hkeep : dropLastIf Log.carriageReturn (encodeUtf8 (init ++ [last])) =
      encodeUtf8 (init ++ [last]) := by
    refine if_neg fun hcr => hlast ?_
    have hmem : Log.carriageReturn ∈ String.utf8EncodeChar last := by
      rw [encodeUtf8, List.flatMap_append, List.flatMap_singleton, List.getLast?_append,
        List.getLast?_eq_some_getLast (String.utf8EncodeChar_ne_nil), Option.some_or] at hcr
      exact Option.some.inj hcr ▸ List.getLast_mem _
    have hcode : last.toNat = Log.carriageReturn.toNat := toNat_of_mem_utf8EncodeChar hmem (by decide)
    rw [← Char.ofNat_toNat last, hcode]
    rfl
  rw [Log.lineText, hkeep, decodeLossy_encodeUtf8]

theorem lineFeed_notMem_utf8 {line : String} (h : '\n' ∉ line.toList) :
    Log.lineFeed ∉ utf8 line :=
  notMem_encodeUtf8 (by decide) h

theorem utf8_ne_nil {line : String} (h : line.toList ≠ []) : utf8 line ≠ [] := by
  intro hnil
  have hdecode := decodeLossy_encodeUtf8 line.toList
  rw [← utf8, hnil] at hdecode
  exact h hdecode.symm

/-- The lines are read back; what was left unfinished after them is no line yet. -/
theorem completeLines_lines {lines : List String} (h : ∀ line ∈ lines, Loggable line.toList)
    {torn : Bytes} (htorn : Log.lineFeed ∉ torn) :
    Log.completeLines (lines.flatMap lineBytes ++ torn) = lines.map String.toList := by
  have hdivided : Log.Divided (lines.flatMap lineBytes ++ torn) (lines.map utf8) torn := by
    refine ⟨by rw [List.flatMap_map]; rfl, ?_, htorn⟩
    rw [List.forall_mem_map]
    exact fun line hline => lineFeed_notMem_utf8 (h line hline).lineFeed
  have hall : (lines.map utf8).filter (· ≠ []) = lines.map utf8 := by
    refine List.filter_eq_self.2 ?_
    rw [List.forall_mem_map]
    exact fun line hline => decide_eq_true (utf8_ne_nil (h line hline).ne_nil)
  rw [hdivided.completeLines, hall, List.map_map]
  exact List.map_congr_left fun line hline => (h line hline).lineText

/-! The lines -/

theorem Loggable.append_left {as bs : Chars} (h : '\n' ∉ as) (hb : Loggable bs) :
    Loggable (as ++ bs) where
  ne_nil := List.append_ne_nil_of_right_ne_nil as hb.ne_nil
  lineFeed := by
    rw [List.mem_append, not_or]
    exact ⟨h, hb.lineFeed⟩
  carriageReturn := by
    rw [List.getLast?_append, List.getLast?_eq_some_getLast hb.ne_nil, Option.some_or,
      ← List.getLast?_eq_some_getLast hb.ne_nil]
    exact hb.carriageReturn

theorem lineFeed_notMem_digits (n : Nat) : '\n' ∉ digits n := fun h =>
  absurd (isAsciiDigit_of_mem_digits h) (by decide)

theorem loggable_digits (n : Nat) : Loggable (digits n) := by
  refine ⟨digits_ne_nil n, lineFeed_notMem_digits n, fun h => ?_⟩
  have hdigit := isAsciiDigit_of_mem_digits (List.mem_of_getLast? h)
  exact absurd hdigit (by decide)

theorem Figured.lineFeed {cs : Chars} (h : Figured cs) : '\n' ∉ cs := fun hc =>
  absurd (h _ hc) (by decide)

theorem lineFeed_notMem_fixed (places : Nat) (x : Float) : '\n' ∉ (fixed places x).toList := by
  obtain h | h := figured_fixed places x
  · rw [h]
    decide
  · exact h.lineFeed

theorem lineFeed_notMem_front (now : Instant) (rate : Float) : '\n' ∉ front now rate := by
  simp only [front, List.mem_append, List.mem_cons, not_or]
  refine ⟨⟨⟨⟨by decide, (figured_logText now).lineFeed⟩, by decide⟩, ?_⟩, by decide⟩
  exact lineFeed_notMem_fixed 2 rate

theorem loggable_speedLine (now : Instant) (c : Counters) : Loggable (speedLine now c).toList := by
  have hsplit : (speedLine now c).toList = (front now c.hashrate ++ " accepted=".toList ++
      digits c.accepted ++ " rejected=".toList) ++ digits c.rejected := by
    rw [toList_speedLine, counts]
    simp
  rw [hsplit]
  refine (loggable_digits c.rejected).append_left ?_
  simp only [List.mem_append, not_or]
  exact ⟨⟨⟨lineFeed_notMem_front now c.hashrate, by decide⟩, lineFeed_notMem_digits _⟩, by decide⟩

theorem loggable_around {a b : String} (ha : '\n' ∉ a.toList) (hb : Loggable b.toList) (n : Nat) :
    Loggable (a ++ decimal n ++ b).toList := by
  rw [toList_around]
  refine hb.append_left ?_
  rw [List.mem_append, not_or]
  exact ⟨ha, lineFeed_notMem_digits n⟩

theorem loggable_lastLine (elapsed : Duration) : Loggable (lastLine elapsed).toList :=
  loggable_around (by decide) ⟨by decide, by decide, by decide⟩ elapsed.secs

theorem loggable_unreadable {cause : SystemError} (h : ∀ text, cause ≠ .other text) :
    Loggable (unreadable cause).toList := by
  obtain ⟨-, -, hne, hline, hend⟩ := unreadable_known h
  exact ⟨hne, hline, hend⟩

theorem lineFeed_notMem_maskWallet {wallet : String} (h : '\n' ∉ wallet.toList) :
    '\n' ∉ (maskWallet wallet).toList := by
  rw [maskWallet]
  split
  · exact h
  · rw [String.toList_ofList]
    simp only [List.mem_append, not_or]
    exact ⟨⟨fun hc => h (List.mem_of_mem_take hc), by decide⟩, fun hc => h (List.mem_of_mem_drop hc)⟩

theorem length_trimChars_le (cs : Chars) : (trimChars cs).length ≤ cs.length := by
  have hstart : (trimStart cs).length ≤ cs.length := (List.dropWhile_sublist _).length_le
  have hend : (trimEnd (trimStart cs)).length ≤ (trimStart cs).length := by
    rw [trimEnd, List.length_reverse]
    exact Nat.le_trans (List.dropWhile_sublist _).length_le (Nat.le_of_eq List.length_reverse)
  exact Nat.le_trans hend hstart

theorem getLast?_of_settled {value : String} (h : Settled value) :
    value.toList.getLast? ≠ some '\r' := by
  intro hlast
  obtain ⟨init, hinit⟩ := List.getLast?_eq_some_iff.1 hlast
  have htrim : trimChars value.toList = value.toList := by
    have := congrArg String.toList h.2
    rwa [trim, String.toList_ofList] at this
  rw [hinit, trimChars_concat_of_blank (by decide)] at htrim
  have hlength := length_trimChars_le init
  rw [htrim, List.length_append, List.length_singleton] at hlength
  omega

/-- A value at the end of a line does not change how the line ends. -/
theorem loggable_append_value {line value : String} (hline : Loggable line.toList)
    (h : Settled value) : Loggable (line ++ value).toList := by
  rw [String.toList_append]
  by_cases hnil : value.toList = []
  · rw [hnil, List.append_nil]
    exact hline
  · exact Loggable.append_left hline.lineFeed ⟨hnil, h.1, getLast?_of_settled h⟩

theorem loggable_named {line value : String} (hline : Loggable line.toList) {name : String}
    (hname : Loggable name.toList) (hvalue : '\n' ∉ value.toList) :
    Loggable (line ++ value ++ name).toList := by
  rw [String.toList_append, String.toList_append]
  refine hname.append_left ?_
  rw [List.mem_append, not_or]
  exact ⟨hline.lineFeed, hvalue⟩

theorem loggable_banner (text : String) : Loggable (banner (KeyValue.parse text)).toList := by
  have hfield (key : String) := KeyValue.settled_field text key
  have hmark {name : String} (hne : name.toList ≠ []) (hline : '\n' ∉ name.toList)
      (hend : name.toList.getLast? ≠ some '\r') : Loggable name.toList := ⟨hne, hline, hend⟩
  have hpool : Loggable "Simulated miner starting | pool ".toList :=
    hmark (by decide) (by decide) (by decide)
  have hworker := loggable_named hpool (hmark (by decide) (by decide) (by decide) :
    Loggable " | worker ".toList) (hfield "pool").1
  have hwallet := loggable_named hworker (hmark (by decide) (by decide) (by decide) :
    Loggable " | wallet ".toList) (hfield "worker").1
  have hthreads := loggable_named hwallet (hmark (by decide) (by decide) (by decide) :
    Loggable " | threads ".toList) (lineFeed_notMem_maskWallet (hfield "wallet").1)
  exact loggable_append_value hthreads (hfield "threads")

end Simulator
end RigWarden
