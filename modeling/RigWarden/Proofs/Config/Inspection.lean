import Mathlib.Data.List.Forall2
import Mathlib.Data.List.Induction
import RigWarden.Proofs.Config.Settings
import RigWarden.Proofs.Config.Tokens
import RigWarden.Proofs.Config.Xmrig
import RigWarden.Proofs.Disk.PathSteps
import RigWarden.Proofs.Json.Quotes

/-!
# What an inspection finds

A rendered configuration is inspected as one text. It holds a token exactly when one of the texts
that the backend put into it does, and a stand-in value exactly when one of those is one: neither
lines and keys nor the quotes and escapes of JSON bring one in or hide one.
-/

namespace RigWarden

open Text Number

namespace Text.KeyMap

variable {α : Type} {m : KeyMap α} {es : List (String × α)} {e : String × α} {key : String} {a : α}

theorem mem_insert (h : e ∈ m.insert key a) : e = (key, a) ∨ e ∈ m := by
  induction m with
  | nil => exact .inl (List.mem_singleton.1 h)
  | cons f m ih =>
    rw [insert] at h
    split at h
    · exact List.mem_cons.1 h
    split at h
    · exact (List.mem_cons.1 h).imp_right (List.mem_cons_of_mem f)
    · rcases List.mem_cons.1 h with rfl | h
      · exact .inr List.mem_cons_self
      · exact (ih h).imp_right (List.mem_cons_of_mem f)

theorem mem_insert_self : (key, a) ∈ m.insert key a := by
  induction m with
  | nil => exact List.mem_singleton_self _
  | cons f m ih =>
    rw [insert]
    split
    · exact List.mem_cons_self
    split
    · exact List.mem_cons_self
    · exact List.mem_cons_of_mem f ih

theorem mem_insert_of_mem (h : e ∈ m) (hkey : e.1 ≠ key) : e ∈ m.insert key a := by
  induction m with
  | nil => cases h
  | cons f m ih =>
    rw [insert]
    split
    · exact List.mem_cons_of_mem _ h
    split
    next heq =>
      rcases List.mem_cons.1 h with rfl | h
      · exact absurd heq.symm hkey
      · exact List.mem_cons_of_mem _ h
    · rcases List.mem_cons.1 h with rfl | h
      · exact List.mem_cons_self
      · exact List.mem_cons_of_mem f (ih h)

theorem ofList_concat (es : List (String × α)) (e : String × α) :
    ofList (es ++ [e]) = (ofList es).insert e.1 e.2 := by
  rw [ofList, List.foldl_append]
  rfl

theorem mem_of_mem_ofList (h : e ∈ ofList es) : e ∈ es := by
  induction es using List.reverseRecOn with
  | nil => cases h
  | append_singleton es f ih =>
    rw [ofList_concat] at h
    rcases mem_insert h with rfl | h
    · exact List.mem_append_right es (List.mem_singleton_self _)
    · exact List.mem_append_left [f] (ih h)

/-- Where no key occurs twice every entry counts. -/
theorem mem_ofList_iff (hkeys : (es.map Prod.fst).Nodup) : e ∈ ofList es ↔ e ∈ es := by
  refine ⟨mem_of_mem_ofList, fun h => ?_⟩
  induction es using List.reverseRecOn with
  | nil => cases h
  | append_singleton es f ih =>
    rw [List.map_append, List.nodup_append] at hkeys
    obtain ⟨hes, -, hapart⟩ := hkeys
    rw [ofList_concat]
    rcases List.mem_append.1 h with h | h
    · exact mem_insert_of_mem (ih hes h) (hapart _ (List.mem_map_of_mem h) _ (by simp))
    · obtain rfl := List.mem_singleton.1 h
      exact mem_insert_self

theorem mem_values_ofList_iff (hkeys : (es.map Prod.fst).Nodup) :
    a ∈ (ofList es).values ↔ a ∈ es.map Prod.snd := by
  simp only [values, List.mem_map, mem_ofList_iff hkeys]

end Text.KeyMap

/-! Tokens and leftovers in rendered texts -/

/-- The texts of the class keep to the places where a renderer puts a text. -/
structure Inline (T : Chars → Prop) : Prop where
  braced : Braced T
  /-- In `key = value` texts the equals sign or the line ends them. -/
  entry : Lacks T '=' ∨ Lacks T '\n'
  string : Json.Cut T
  lasts : Json.Lasts T fun c => Profile.isForbidden c = false

theorem backslash_mem_escape {t : Chars} (h : '\\' ∈ t) : '\\' ∈ Json.escape t :=
  List.mem_flatMap.2 ⟨'\\', h, by decide⟩

/-- Of the characters that a profile may have only the backslash is escaped. -/
theorem escape_eq_self {t : Chars} (h : ∀ c ∈ t, Profile.isForbidden c = false)
    (hslash : '\\' ∉ t) : Json.escape t = t := by
  induction t with
  | nil => rfl
  | cons c t ih =>
    rw [List.mem_cons, not_or] at hslash
    have hc := h c List.mem_cons_self
    simp only [Profile.isForbidden, isControl, within, List.any_cons, List.any_nil, Bool.or_false,
      Bool.or_eq_false_iff, Bool.and_eq_false_iff, decide_eq_false_iff_not, beq_eq_false_iff_ne] at hc
    have hself := Json.escapeChar_self hc.2 (Ne.symm hslash.1) (by omega)
    rw [Json.escape_cons, hself, ih (fun c' hc' => h c' (List.mem_cons_of_mem c hc')) hslash.2,
      List.singleton_append]

namespace Template

theorem lasts_isToken : Json.Lasts IsToken fun c => Profile.isForbidden c = false := by
  intro t hallowed
  have hlacks : Lacks IsToken '\\' := lacks_isToken (by decide) (by decide) (by decide)
  by_cases hslash : '\\' ∈ t
  · exact ⟨fun h => absurd (backslash_mem_escape hslash) (hlacks _ h),
      fun h => absurd hslash (hlacks _ h)⟩
  · rw [escape_eq_self hallowed hslash]

theorem lasts_isLeftover : Json.Lasts IsLeftover fun c => Profile.isForbidden c = false := by
  intro t hallowed
  constructor
  · rintro ⟨inside, -, h⟩
    obtain ⟨front, tail, rfl, hfront, htail⟩ := Json.isBare_open.split [] h
    obtain ⟨before, tail, rfl, hbefore, htail⟩ := Json.isBare_open.split [] htail
    obtain ⟨middle, close, rfl, -, hclose⟩ := Json.isBare_close.split inside htail
    obtain ⟨between, after, rfl, hbetween, hafter⟩ := Json.isBare_close.split [] hclose
    obtain rfl := Json.eq_nil_of_escape hfront
    obtain rfl := Json.eq_nil_of_escape hbefore
    obtain rfl := Json.eq_nil_of_escape hbetween
    obtain rfl := Json.eq_nil_of_escape hafter
    refine ⟨middle, fun hline => ?_, rfl⟩
    exact absurd (hallowed '\n' (by simp [hline])) (by decide)
  · rintro ⟨inside, -, rfl⟩
    refine ⟨Json.escape inside, Json.lineFeed_notMem_escape inside, ?_⟩
    rw [Json.escape_append, Json.escape_append]
    rfl

theorem inline_isToken : Inline IsToken where
  braced := braced_isToken
  entry := .inl (lacks_isToken (by decide) (by decide) (by decide))
  string := .inl (lacks_isToken (by decide) (by decide) (by decide))
  lasts := lasts_isToken

theorem inline_isLeftover : Inline IsLeftover where
  braced := braced_isLeftover
  entry := .inr lacks_isLeftover
  string := .inr lacks_isLeftover
  lasts := lasts_isLeftover

end Template

variable {T : Chars → Prop}

namespace KeyValue

/-- An entry without its line feed begins in its value at the earliest. -/
theorem holds_assign (hT : Braced T) {key : String} (hkey : '\x7b' ∉ key.toList) (cs : Chars) :
    Holds T (key.toList ++ " = ".toList ++ cs) ↔ Holds T cs :=
  holds_append_left hT (by simp [hkey])

theorem renderEntry_append (e : String × String) (cs : Chars) :
    renderEntry e ++ cs = e.1.toList ++ " = ".toList ++ (e.2.toList ++ '\n' :: cs) := by
  simp [renderEntry]

theorem holds_entries (hT : Inline T) {es : List (String × String)}
    (hkeys : ∀ e ∈ es, '\x7b' ∉ e.1.toList ∧ '\x7d' ∉ e.1.toList) :
    Holds T (es.flatMap renderEntry) ↔ ∃ e ∈ es, Holds T e.2.toList := by
  induction es with
  | nil => simpa using not_holds_of_notMem hT.braced List.not_mem_nil
  | cons e es ih =>
    rw [List.forall_mem_cons] at hkeys
    have hrest := ih hkeys.2
    simp only [List.mem_cons, exists_eq_or_imp]
    rw [List.flatMap_cons, renderEntry_append, holds_assign hT.braced hkeys.1.1, ← hrest]
    rcases hT.entry with hequals | hline
    · cases es with
      | nil =>
        have hnone : ¬ Holds T [] := not_holds_of_notMem hT.braced List.not_mem_nil
        rw [List.flatMap_nil, holds_append_right hT.braced (by simp)]
        simp [hnone]
      | cons e' es =>
        have hkey := (hkeys.2 e' List.mem_cons_self)
        rw [List.flatMap_cons, renderEntry_append, holds_assign hT.braced hkey.1]
        have hgap : '\x7d' ∉ '\n' :: e'.1.toList ++ [' '] := by simp [hkey.2]
        have hcell := holds_cell hT.braced hequals e.2.toList
          (' ' :: (e'.2.toList ++ '\n' :: es.flatMap renderEntry)) hgap
        rw [holds_cons_of_ne hT.braced (by decide)] at hcell
        rw [← hcell]
        simp
    · exact holds_append_sep hline _ _

theorem holds_render (hT : Inline T) {header : String} (hheader : '\x7b' ∉ header.toList)
    {es : List (String × String)}
    (hkeys : ∀ e ∈ es, '\x7b' ∉ e.1.toList ∧ '\x7d' ∉ e.1.toList) :
    Holds T (render header es).toList ↔ ∃ e ∈ es, Holds T e.2.toList := by
  rw [render, String.toList_ofList, holds_append_left hT.braced hheader,
    holds_cons_of_ne hT.braced (by decide), holds_entries hT hkeys]

end KeyValue

/-! JSON -/

namespace Json

theorem decimal_notMem {c : Char} (hc : isAsciiDigit c = false) (n : Nat) : c ∉ (decimal n).toList := by
  intro h
  rw [decimal, String.toList_ofList] at h
  rw [isAsciiDigit_of_mem_digits h] at hc
  cases hc

/-- What a value holds is told by `found`, apart from what comes after it. -/
def Splits (T : Chars → Prop) (depth : Nat) (j : Json) (found : Prop) : Prop :=
  ∀ rest, EndsLine rest → (Holds T (prettyChars depth j ++ rest) ↔ found ∨ Holds T rest)

def SplitsField (T : Chars → Prop) (depth : Nat) (f : String × Json) (found : Prop) : Prop :=
  ∀ rest, EndsLine rest → (Holds T (prettyField depth f ++ rest) ↔ found ∨ Holds T rest)

variable {depth : Nat} {j : Json} {found : Prop}

theorem splits_plain (hT : Inline T) (h : '\x7b' ∉ prettyChars depth j) : Splits T depth j False :=
  fun rest _ => by rw [holds_append_left hT.braced h, false_or]

theorem splits_bool (hT : Inline T) (depth : Nat) (b : Bool) : Splits T depth (.bool b) False :=
  splits_plain hT (by rw [prettyChars]; cases b <;> decide)

theorem splits_nat (hT : Inline T) (depth n : Nat) : Splits T depth (.ofNat n) False :=
  splits_plain hT (by rw [ofNat, prettyChars]; exact decimal_notMem (by decide) n)

theorem splits_string (hT : Inline T) (depth : Nat) (s : String) :
    Splits T depth (.string s) (Holds T (escape s.toList)) := fun rest hrest => by
  rw [prettyChars, holds_quote hT.braced hT.string s hrest]

theorem Splits.field (h : Splits T depth j found) (hT : Inline T) (name : String)
    (hname : '\x7b' ∉ name.toList) : SplitsField T depth (name, j) found := fun rest hrest => by
  rw [prettyField, List.append_assoc, List.cons_append, List.cons_append, holds_name hT.braced hname,
    holds_cons_of_ne hT.braced (by decide), holds_cons_of_ne hT.braced (by decide), h rest hrest]

/-- Where the value has no braces the name may be any text. -/
theorem splitsField_name (hT : Inline T) {name : String} (hopen : '\x7b' ∉ prettyChars depth j)
    (hclose : '\x7d' ∉ prettyChars depth j) :
    SplitsField T depth (name, j) (Holds T (escape name.toList)) := fun rest hrest => by
  have hline : EndsLine (':' :: ' ' :: (prettyChars depth j ++ rest)) :=
    ((hrest.append hopen hclose).cons (by decide) (by decide)).cons (by decide) (by decide)
  rw [prettyField, List.append_assoc, List.cons_append, List.cons_append,
    holds_quote hT.braced hT.string name hline, holds_cons_of_ne hT.braced (by decide),
    holds_cons_of_ne hT.braced (by decide), holds_append_left hT.braced hopen]

theorem splits_fields (hT : Inline T) {fs : List (String × Json)} {Ps : List Prop}
    (h : List.Forall₂ (SplitsField T depth) fs Ps) {rest : Chars} (hrest : EndsLine rest) :
    Holds T (prettyFields depth fs ++ rest) ↔ Ps.foldr Or False ∨ Holds T rest := by
  induction h with
  | nil => simp [prettyFields]
  | @cons f P fs Ps hf hfs ih =>
    rw [prettyFields, List.append_assoc, List.append_assoc, holds_newline hT.braced, List.foldr_cons,
      or_assoc, ← ih]
    cases fs with
    | nil => exact hf rest hrest
    | cons f' fs =>
      have hnext : EndsLine (prettyFields depth (f' :: fs) ++ rest) := by
        rw [prettyFields, List.append_assoc, List.append_assoc]
        exact endsLine_newline depth _
      have hsplit := hf _ (hnext.cons (c := ',') (by decide) (by decide))
      rw [holds_cons_of_ne hT.braced (by decide)] at hsplit
      exact hsplit

theorem splits_object (hT : Inline T) {f : String × Json} {fs : List (String × Json)} {Ps : List Prop}
    (h : List.Forall₂ (SplitsField T (depth + 1)) (f :: fs) Ps) :
    Splits T depth (.object (f :: fs)) (Ps.foldr Or False) := fun rest hrest => by
  have hend : EndsLine (newline depth ++ '\x7d' :: rest) := endsLine_newline depth _
  have hopen (cs : Chars) : Holds T ('\x7b' :: (newline (depth + 1) ++ cs)) ↔
      Holds T (newline (depth + 1) ++ cs) := holds_brace hT.braced (by decide)
  have hfields := splits_fields hT h hend
  rw [holds_newline hT.braced, holds_cons_of_ne hT.braced (by decide), prettyFields,
    List.append_assoc, List.append_assoc] at hfields
  rw [prettyChars_object, prettyFields]
  simp only [List.append_assoc, List.cons_append, List.nil_append, hopen]
  exact hfields

theorem splits_array_singleton (hT : Inline T) (h : Splits T (depth + 1) j found) :
    Splits T depth (.array [j]) found := fun rest hrest => by
  have hend : EndsLine (newline depth ++ ']' :: rest) := endsLine_newline depth _
  have hitem := h _ hend
  rw [holds_newline hT.braced, holds_cons_of_ne hT.braced (by decide)] at hitem
  rw [prettyChars_array, prettyItems_singleton]
  simp only [List.append_assoc, List.cons_append, List.nil_append]
  rw [holds_cons_of_ne hT.braced (by decide), holds_newline hT.braced, hitem]

end Json

namespace Xmrig

open Json

theorem prettyChars_unbound (depth : Nat) : prettyChars depth unbound = ['-', '1'] := by
  have htext : (signed (-1)).toList = ['-', '1'] := by decide
  rw [unbound, ofInt, prettyChars, htext]

theorem notMem_unboundItems {c : Char} (hc : c = '\x7b' ∨ c = '\x7d') (depth n : Nat) :
    c ∉ prettyItems depth (List.replicate n unbound) := by
  induction n with
  | zero => simp [prettyItems]
  | succ n ih =>
    rw [List.replicate_succ, prettyItems, prettyChars_unbound]
    split
    · rcases hc with rfl | rfl <;> simp [newline]
    · rcases hc with rfl | rfl <;> simp [newline, ih]

/-- A list of unbound threads has no braces. -/
theorem notMem_unboundThreads {c : Char} (hc : c = '\x7b' ∨ c = '\x7d') (depth n : Nat) :
    c ∉ prettyChars depth (.array (List.replicate n unbound)) := by
  have hitems := notMem_unboundItems hc (depth + 1) n
  rw [prettyChars]
  split
  · rcases hc with rfl | rfl <;> decide
  · rcases hc with rfl | rfl <;> simp [newline, hitems]

/-- The family of an algorithm holds nothing that the algorithm does not hold. -/
theorem holds_family (hT : Inline T) {algo : String}
    (hallowed : ∀ c ∈ algo.toList, Profile.isForbidden c = false)
    (h : Holds T (escape (family algo).toList)) : Holds T algo.toList := by
  have hfirst : (family algo).toList <+: algo.toList := by
    rw [family, String.toList_ofList]
    exact List.takeWhile_prefix _
  rw [holds_escape hT.braced hT.lasts fun c hc => hallowed c (hfirst.mem hc)] at h
  exact h.mono hfirst.isInfix

theorem splits_cpu (hT : Inline T) (depth cap : Nat) (name : String) (n : Nat) :
    Splits T depth (CpuSection.ofThreads cap name n).toJson (Holds T (escape name.toList)) := by
  have hthreads : SplitsField T (depth + 1) (name, .array (List.replicate n unbound)) _ :=
    splitsField_name hT (notMem_unboundThreads (.inl rfl) (depth + 1) n)
      (notMem_unboundThreads (.inr rfl) (depth + 1) n)
  have hfields : List.Forall₂ (SplitsField T (depth + 1)) _ _ :=
    .cons ((splits_bool hT _ true).field hT "enabled" (by decide)) <|
    .cons ((splits_bool hT _ true).field hT "huge-pages" (by decide)) <|
    .cons ((splits_nat hT _ cap).field hT "max-threads-hint" (by decide)) <|
    .cons hthreads .nil
  rw [ofThreads_toJson]
  simpa using splits_object hT hfields

theorem splits_pool (hT : Inline T) (depth : Nat) (e : PoolEntry) :
    Splits T depth e.toJson (Holds T (escape e.url.toList) ∨ Holds T (escape e.user.toList) ∨
      Holds T (escape e.pass.toList) ∨ Holds T (escape e.rigId.toList) ∨
      Holds T (escape e.algo.toList)) := by
  have hfields : List.Forall₂ (SplitsField T (depth + 1)) _ _ :=
    .cons ((splits_string hT _ e.url).field hT "url" (by decide)) <|
    .cons ((splits_string hT _ e.user).field hT "user" (by decide)) <|
    .cons ((splits_string hT _ e.pass).field hT "pass" (by decide)) <|
    .cons ((splits_string hT _ e.rigId).field hT "rig-id" (by decide)) <|
    .cons ((splits_string hT _ e.algo).field hT "algo" (by decide)) <|
    .cons ((splits_bool hT _ e.keepalive).field hT "keepalive" (by decide)) <|
    .cons ((splits_bool hT _ e.tls).field hT "tls" (by decide)) .nil
  rw [PoolEntry.toJson]
  simpa using splits_object hT hfields

/-- The texts of a configuration, as they are written: one name, and the strings of its pool. -/
theorem holds_render (hT : Inline T) (processors : Nat) (p : Profile) :
    Holds T (Config.ofProfile processors p).render.toList ↔
      Holds T (escape (family (algorithmId p.algorithm)).toList) ∨
        Holds T (escape (trim p.pool).toList) ∨ Holds T (escape (trim p.wallet).toList) ∨
        Holds T (escape "x".toList) ∨ Holds T (escape (trim p.worker).toList) ∨
        Holds T (escape (algorithmId p.algorithm).toList) := by
  have hcpu := splits_cpu hT 1 p.maxCpuUsage (family (algorithmId p.algorithm))
    (p.effectiveThreads processors)
  have hpool := splits_pool hT 2 ⟨trim p.pool, trim p.wallet, "x", trim p.worker,
    algorithmId p.algorithm, true, false⟩
  have hfields : List.Forall₂ (SplitsField T 1) _ _ :=
    .cons ((splits_bool hT _ false).field hT "autosave" (by decide)) <|
    .cons ((splits_bool hT _ false).field hT "watch" (by decide)) <|
    .cons ((splits_bool hT _ false).field hT "background" (by decide)) <|
    .cons ((splits_bool hT _ false).field hT "colors" (by decide)) <|
    .cons ((splits_nat hT _ 10).field hT "print-time" (by decide)) <|
    .cons (hcpu.field hT "cpu" (by decide)) <|
    .cons ((splits_array_singleton hT hpool).field hT "pools" (by decide)) .nil
  have hline : EndsLine ['\n'] := ⟨[], [], rfl, List.not_mem_nil, List.not_mem_nil⟩
  have hnone : ¬ Holds T ['\n'] := not_holds_of_notMem hT.braced (by decide)
  have hall := splits_object hT hfields ['\n'] hline
  rw [render_toList]
  refine hall.trans ?_
  simp [hnone]

end Xmrig

/-! Backends -/

namespace Backend

/-- The algorithm as the backend calls it. -/
def algorithmId : Backend → String → String
  | xmrig, algorithm => Xmrig.algorithmId algorithm
  | srbMiner, algorithm => SrbMiner.algorithmId algorithm
  | simulated, algorithm => trim algorithm

/-- The texts of a profile as the backend writes them. -/
def texts (b : Backend) (p : Profile) : List String :=
  [trim p.pool, trim p.wallet, trim p.worker, b.algorithmId p.algorithm]

/-- The paths that the backend writes. -/
def paths (b : Backend) (install : Path) : List Path :=
  match b with
  | srbMiner => [Path.join install SrbMiner.logFile]
  | _ => []

variable {b : Backend} {processors : Nat} {p : Profile} {install : Path} {contents : String}

theorem allowed_of_all {cs : Chars} (h : cs.all (!Profile.isForbidden ·) = true) :
    ∀ c ∈ cs, Profile.isForbidden c = false := by
  simpa using h

theorem algorithmId_allowed (b : Backend) (h : p.check = .ok ()) :
    ∀ c ∈ (b.algorithmId p.algorithm).toList, Profile.isForbidden c = false := by
  have htrim : ∀ c ∈ (trim p.algorithm).toList, Profile.isForbidden c = false := fun c hc =>
    (Profile.allowed h (by simp)).2 c (mem_of_mem_trim hc)
  cases b with
  | xmrig =>
    simp only [algorithmId, Xmrig.algorithmId]
    split
    · exact allowed_of_all (by decide)
    split
    · exact allowed_of_all (by decide)
    split
    · exact allowed_of_all (by decide)
    · exact htrim
  | srbMiner =>
    simp only [algorithmId, SrbMiner.algorithmId]
    split
    · exact allowed_of_all (by decide)
    · exact htrim
  | simulated => exact htrim

theorem texts_allowed (h : p.check = .ok ()) {v : String} (hv : v ∈ b.texts p) :
    ∀ c ∈ v.toList, Profile.isForbidden c = false := by
  simp only [texts, List.mem_cons, List.not_mem_nil, or_false] at hv
  rcases hv with rfl | rfl | rfl | rfl
  · exact fun c hc => (Profile.allowed h (by simp)).2 c (mem_of_mem_trim hc)
  · exact fun c hc => (Profile.allowed h (by simp)).2 c (mem_of_mem_trim hc)
  · exact fun c hc => (Profile.allowed h (by simp)).2 c (mem_of_mem_trim hc)
  · exact b.algorithmId_allowed h

theorem not_holds_decimal (hT : Inline T) (n : Nat) : ¬ Holds T (decimal n).toList :=
  not_holds_of_notMem hT.braced (Json.decimal_notMem (by decide) n)

/-- What a configuration holds one of the texts holds that are written into it. -/
theorem holds_contents (hT : Inline T) (h : p.check = .ok ())
    (hr : b.renderContents processors p install = .ok contents) :
    Holds T contents.toList ↔ ∃ v ∈ b.texts p ++ b.paths install, Holds T v.toList := by
  cases b with
  | xmrig =>
    obtain rfl := Except.ok.inj hr
    have hescape (v : String) (hv : v ∈ xmrig.texts p) :
        Holds T (Json.escape v.toList) ↔ Holds T v.toList :=
      Json.holds_escape hT.braced hT.lasts (texts_allowed h hv)
    have hpool := hescape (trim p.pool) (by simp [texts])
    have hwallet := hescape (trim p.wallet) (by simp [texts])
    have hworker := hescape (trim p.worker) (by simp [texts])
    have halgorithm := hescape (Xmrig.algorithmId p.algorithm) (by simp [texts, algorithmId])
    have hpass : ¬ Holds T (Json.escape "x".toList) := not_holds_of_notMem hT.braced (by decide)
    have hfamily := Xmrig.holds_family hT (xmrig.algorithmId_allowed h)
    rw [Xmrig.holds_render hT, hpool, hwallet, hworker, halgorithm]
    simp only [texts, paths, algorithmId, List.append_nil, List.mem_cons, List.not_mem_nil, or_false,
      exists_eq_or_imp, exists_eq_left, hpass, false_or]
    exact or_iff_right_of_imp fun hheld => .inr (.inr (.inr (hfamily hheld)))
  | srbMiner =>
    rw [renderContents, SrbMiner.render_eq] at hr
    obtain rfl := Except.ok.inj hr
    have hkeys : ∀ e ∈ SrbMiner.settings processors p install,
        '\x7b' ∉ e.1.toList ∧ '\x7d' ∉ e.1.toList := by
      simp [SrbMiner.settings, SrbMiner.profileSettings]
    have htrue : ¬ Holds T "true".toList := not_holds_of_notMem hT.braced (by decide)
    rw [KeyValue.holds_render hT (by decide) hkeys]
    simp only [SrbMiner.settings, SrbMiner.profileSettings, texts, paths, algorithmId, List.cons_append,
      List.nil_append, List.mem_cons, List.not_mem_nil, or_false, exists_eq_or_imp, exists_eq_left,
      not_holds_decimal hT, htrue, false_or]
    rw [or_left_comm, or_left_comm (a := Holds T (SrbMiner.algorithmId p.algorithm).toList),
      or_left_comm (a := Holds T (SrbMiner.algorithmId p.algorithm).toList)]
  | simulated =>
    obtain rfl := Except.ok.inj hr
    have hkeys : ∀ e ∈ Simulator.settings processors p,
        '\x7b' ∉ e.1.toList ∧ '\x7d' ∉ e.1.toList := by
      simp [Simulator.settings]
    have hheader : '\x7b' ∉ "# simulated worker, no real hashing is performed".toList := by decide
    have hholds := KeyValue.holds_render hT hheader hkeys
    rw [Simulator.configText]
    simpa [Simulator.settings, texts, paths, algorithmId, not_holds_decimal hT] using hholds

end Backend

end RigWarden
