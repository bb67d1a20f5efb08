import RigWarden.Proofs.Config.Inspection

/-!
# Accepted configurations

A preview succeeds when the profile passes its checks and no text that the backend writes is a
stand-in value or holds a token. Only names of small letters and underscores make a token: other
leftovers of a template, as a name in capitals, are in an accepted configuration whenever a text of
the profile or the path holds one.
-/

namespace RigWarden

open Text Number

/-! Stand-in values -/

theorem isPlaceholder_trim (value : String) : isPlaceholder (trim value) = isPlaceholder value := by
  simp [isPlaceholder, trim]

theorem exists_sentinel {value : String} (h : isPlaceholder value = true) :
    ∃ s ∈ sentinels, s.toList.map lower = (trimChars value.toList).map lower := by
  simpa [isPlaceholder, eqIgnoreCase] using h

theorem lower_digit {c : Char} (h : isAsciiDigit c = true) : lower c = c := by
  have hrange := isAsciiDigit_iff.1 h
  rw [lower, if_neg (by omega)]

theorem not_isPlaceholder_decimal (n : Nat) : isPlaceholder (decimal n) = false := by
  refine Bool.eq_false_iff.2 fun h => ?_
  obtain ⟨s, hs, heq⟩ := exists_sentinel h
  have hletter : ∀ s ∈ sentinels, (s.toList.map lower).any (!isAsciiDigit ·) = true := by decide
  obtain ⟨c, hc, hno⟩ := List.any_eq_true.1 (hletter s hs)
  rw [heq] at hc
  obtain ⟨d, hd, rfl⟩ := List.mem_map.1 hc
  have hdigit : isAsciiDigit d = true :=
    isAsciiDigit_of_mem_digits (by simpa [decimal] using mem_of_mem_trimChars hd)
  rw [lower_digit hdigit, hdigit] at hno
  cases hno

theorem getLast?_trimChars_concat {c : Char} (h : isBlank c = false) (cs : Chars) :
    (trimChars (cs ++ [c])).getLast? = some c := by
  obtain ⟨ds, hds⟩ : ∃ ds, trimStart (cs ++ [c]) = ds ++ [c] := by
    induction cs with
    | nil => exact ⟨[], by simp [trimStart_cons, h]⟩
    | cons x cs ih =>
      rw [List.cons_append, trimStart_cons]
      split
      · exact ih
      · exact ⟨x :: cs, rfl⟩
  rw [trimChars, hds, trimEnd_append_cons h, List.getLast?_append]
  rfl

/-- No stand-in value ends like the name of a log. -/
theorem not_isPlaceholder_logPath (install : Path) :
    isPlaceholder (Path.join install SrbMiner.logFile) = false := by
  refine Bool.eq_false_iff.2 fun h => ?_
  obtain ⟨s, hs, heq⟩ := exists_sentinel h
  obtain ⟨cs, hcs⟩ : ∃ cs, (Path.join install SrbMiner.logFile).toList = cs ++ ['g'] := by
    have hname : SrbMiner.logFile.toList = "srbminer.lo".toList ++ ['g'] := by decide
    have hrelative : Path.isAbsolute SrbMiner.logFile = false := by decide
    rcases Path.toList_join install hrelative with ⟨he, -⟩ | ⟨he, -⟩
    · exact ⟨install.toList ++ "srbminer.lo".toList, by rw [he, hname, List.append_assoc]⟩
    · exact ⟨install.toList ++ '/' :: "srbminer.lo".toList, by rw [he, hname]; simp⟩
  have hend : ∀ s ∈ sentinels, (s.toList.map lower).getLast? ≠ some 'g' := by decide
  refine hend s hs ?_
  rw [heq, hcs, List.getLast?_map, getLast?_trimChars_concat (by decide)]
  rfl

/-! The values of a rendered configuration -/

namespace Json

theorem stringsFields_eq (fields : List (String × Json)) :
    stringsFields fields = fields.map fun f => (f.1, f.2.strings) := by
  induction fields with
  | nil => rfl
  | cons f fs ih => rw [stringsFields, ih, List.map_cons, stringsField]

theorem mem_strings_object {fields : List (String × Json)} {v : String}
    (h : v ∈ (object fields).strings) : ∃ f ∈ fields, v ∈ f.2.strings := by
  rw [strings, stringsFields_eq] at h
  obtain ⟨vs, hvs, hv⟩ := List.mem_flatten.1 h
  obtain ⟨e, he, rfl⟩ := List.mem_map.1 hvs
  obtain ⟨f, hf, rfl⟩ := List.mem_map.1 (KeyMap.mem_of_mem_ofList he)
  exact ⟨f, hf, hv⟩

theorem mem_strings_object_iff {fields : List (String × Json)} (h : (fields.map Prod.fst).Nodup)
    {v : String} : v ∈ (object fields).strings ↔ ∃ f ∈ fields, v ∈ f.2.strings := by
  refine ⟨mem_strings_object, fun ⟨f, hf, hv⟩ => ?_⟩
  have hkeys : ((fields.map fun f => (f.1, f.2.strings)).map Prod.fst).Nodup := by
    simpa [Function.comp_def] using h
  rw [strings, stringsFields_eq, List.mem_flatten]
  refine ⟨f.2.strings, (KeyMap.mem_values_ofList_iff hkeys).2 ?_, hv⟩
  simp only [List.map_map, List.mem_map]
  exact ⟨f, hf, rfl⟩

end Json

namespace Xmrig

theorem hasValue_percentage : ∀ n ≤ 100, Numeral.hasValue (decimal n).toList = true := by
  decide +kernel

theorem ofProfile_sound (processors : Nat) {p : Profile} (h : p.check = .ok ()) :
    (Config.ofProfile processors p).toJson.sound = true := by
  have hcap := hasValue_percentage p.maxCpuUsage (Profile.cap_le h)
  have htime : Numeral.hasValue (decimal 10).toList = true := hasValue_percentage 10 (by decide)
  have hitems := cleanItems_unbound (p.effectiveThreads processors)
  have hdepth := depthItems_unbound (p.effectiveThreads processors)
  have hcpu : (Config.ofProfile processors p).cpu = .ofThreads p.maxCpuUsage
    (family (algorithmId p.algorithm)) (p.effectiveThreads processors) := rfl
  rw [Config.toJson, hcpu, ofThreads_toJson]
  simp [Json.sound, Json.clean, Json.cleanFields, Json.cleanField, Json.cleanItems, Json.depth,
    Json.depthFields, Json.depthField, Json.depthItems, Json.maxDepth, Json.ofNat, Config.ofProfile,
    PoolEntry.toJson, hcap, htime, hitems, hdepth]

/-- The CPU section has no strings. -/
theorem strings_cpu (cap : Nat) (name : String) (n : Nat) (v : String) :
    v ∉ (CpuSection.ofThreads cap name n).toJson.strings := by
  have hitems : Json.stringsItems (List.replicate n unbound) = [] := by
    induction n with
    | zero => rfl
    | succ n ih => rw [List.replicate_succ, Json.stringsItems, ih]; rfl
  rw [ofThreads_toJson]
  intro h
  obtain ⟨f, hf, hv⟩ := Json.mem_strings_object h
  simp only [List.mem_cons, List.not_mem_nil, or_false] at hf
  rcases hf with rfl | rfl | rfl | rfl
  · cases hv
  · cases hv
  · cases hv
  · simp [Json.strings, hitems] at hv

theorem mem_strings_ofProfile (processors : Nat) (p : Profile) (v : String) :
    v ∈ (Config.ofProfile processors p).toJson.strings ↔
      v ∈ [trim p.pool, trim p.wallet, "x", trim p.worker, algorithmId p.algorithm] := by
  have hcpu := strings_cpu p.maxCpuUsage (family (algorithmId p.algorithm))
    (p.effectiveThreads processors) v
  have hpool (e : PoolEntry) :
      v ∈ e.toJson.strings ↔ v ∈ [e.url, e.user, e.pass, e.rigId, e.algo] := by
    rw [PoolEntry.toJson, Json.mem_strings_object_iff (by simp)]
    simp [Json.strings]
  have hcpu' : (Config.ofProfile processors p).cpu = .ofThreads p.maxCpuUsage
    (family (algorithmId p.algorithm)) (p.effectiveThreads processors) := rfl
  rw [Config.toJson, Json.mem_strings_object_iff (by simp), hcpu']
  simp [Json.strings, Json.stringsItems, Config.ofProfile, Json.ofNat, hpool, hcpu]

end Xmrig

theorem RenderedConfig.inspect_eq_ok_iff {r : RenderedConfig} (configFile : String) :
    r.inspect configFile = .ok r ↔ ¬ Holds Template.IsToken r.contents.toList ∧
      ∀ v ∈ values r.format r.contents, isPlaceholder v = false := by
  rw [← Template.unresolved?_eq_none_iff, inspect, fault?]
  cases hscan : Template.unresolved? r.contents with
  | some token => simp
  | none =>
    cases hfind : (values r.format r.contents).find? isPlaceholder with
    | some v =>
      have hv := List.find?_some hfind
      have hmem := List.mem_of_find?_eq_some hfind
      simp only [Option.map_some, true_and, reduceCtorEq, false_iff]
      intro hall
      rw [hall v hmem] at hv
      cases hv
    | none =>
      have hall := List.find?_eq_none.1 hfind
      simpa using hall

namespace Backend

variable {b : Backend} {processors : Nat} {p : Profile} {install : Path} {contents : String}

/-- A value of a rendered configuration is a stand-in if and only if a text of the profile is. -/
theorem values_contents (h : p.check = .ok ()) (hline : '\n' ∉ install.toList)
    (hr : b.renderContents processors p install = .ok contents) :
    (∀ v ∈ RenderedConfig.values b.configFormat contents, isPlaceholder v = false) ↔
      ∀ v ∈ b.texts p, isPlaceholder v = false := by
  have htrue : isPlaceholder "true" = false := by decide
  have hpass : isPlaceholder "x" = false := by decide
  have hlog := not_isPlaceholder_logPath install
  cases b with
  | xmrig =>
    obtain rfl := Except.ok.inj hr
    rw [configFormat, Xmrig.values_render (Xmrig.ofProfile_sound processors h)]
    simp [Xmrig.mem_strings_ofProfile, texts, algorithmId, hpass]
  | srbMiner =>
    rw [renderContents, SrbMiner.render_eq] at hr
    obtain rfl := Except.ok.inj hr
    have hkeys : ((SrbMiner.profileSettings processors p ++
        [("log-file", trim (Path.join install SrbMiner.logFile))]).map Prod.fst).Nodup := by
      simp [SrbMiner.profileSettings]
    change (∀ v ∈ KeyMap.values (KeyValue.parse _), _) ↔ _
    rw [SrbMiner.parse_settings processors h, SrbMiner.pathSettings_of_one_line hline]
    simp only [KeyMap.mem_values_ofList_iff hkeys]
    simp [SrbMiner.profileSettings, texts, algorithmId, isPlaceholder_trim, htrue, hlog,
      not_isPlaceholder_decimal]
    constructor
    · rintro ⟨ha, hp, hw, hn⟩
      exact ⟨hp, hw, hn, ha⟩
    · rintro ⟨hp, hw, hn, ha⟩
      exact ⟨ha, hp, hw, hn⟩
  | simulated =>
    obtain rfl := Except.ok.inj hr
    have hkeys : ((Simulator.settings processors p).map Prod.fst).Nodup := by
      simp [Simulator.settings]
    change (∀ v ∈ KeyMap.values (KeyValue.parse _), _) ↔ _
    rw [Simulator.parse_configText processors h]
    simp only [KeyMap.mem_values_ofList_iff hkeys]
    simp [Simulator.settings, texts, algorithmId, isPlaceholder_trim, not_isPlaceholder_decimal]

theorem exists_contents (b : Backend) (processors : Nat) (p : Profile) (install : Path) :
    ∃ contents, b.renderContents processors p install = .ok contents := by
  cases b with
  | srbMiner => exact ⟨_, SrbMiner.render_eq processors p install⟩
  | _ => exact ⟨_, rfl⟩

theorem render_eq_ok (hr : b.renderContents processors p install = .ok contents) :
    b.render processors p install =
      .ok ⟨b.descriptor.configPath install, b.configFormat, contents⟩ := by
  rw [render, hr]
  rfl

/-- What a preview looks for, it looks for in the texts. -/
theorem preview_texts_iff (hline : '\n' ∉ install.toList) :
    (∃ r, b.preview processors p install = .ok r) ↔ p.check = .ok () ∧
      (∀ v ∈ b.texts p, isPlaceholder v = false) ∧
      ∀ v ∈ b.texts p ++ b.paths install, ¬ Holds Template.IsToken v.toList := by
  obtain ⟨contents, hr⟩ := b.exists_contents processors p install
  have hrender := render_eq_ok hr
  simp only [preview_eq_ok, hrender]
  constructor
  · rintro ⟨r, hcheck, hsame, hinspect⟩
    obtain rfl := Except.ok.inj hsame
    obtain ⟨htoken, hvalues⟩ := (RenderedConfig.inspect_eq_ok_iff _).1 hinspect
    rw [holds_contents Template.inline_isToken hcheck hr] at htoken
    exact ⟨hcheck, (values_contents hcheck hline hr).1 hvalues, fun v hv hheld => htoken ⟨v, hv, hheld⟩⟩
  · rintro ⟨hcheck, hvalues, htoken⟩
    refine ⟨_, hcheck, rfl, (RenderedConfig.inspect_eq_ok_iff _).2 ⟨?_, ?_⟩⟩
    · rw [holds_contents Template.inline_isToken hcheck hr]
      exact fun ⟨v, hv, hheld⟩ => htoken v hv hheld
    · exact (values_contents hcheck hline hr).2 hvalues

/-- The path of a log has braces only from its directory. -/
theorem not_holds_paths {T : Chars → Prop} (hT : Braced T)
    (hbraces : ¬ ['\x7b', '\x7b'] <:+: install.toList) :
    ∀ v ∈ b.paths install, ¬ Holds T v.toList := by
  have hinstall : ¬ Holds T install.toList := fun ⟨t, ht, hin⟩ => by
    obtain ⟨inside, rfl⟩ := hT t ht
    exact hbraces (List.IsInfix.trans ⟨[], inside ++ ['\x7d', '\x7d'], by simp⟩ hin)
  cases b with
  | srbMiner =>
    intro v hv
    obtain rfl := List.mem_singleton.1 hv
    have hrelative : Path.isAbsolute SrbMiner.logFile = false := by decide
    rcases Path.toList_join install hrelative with ⟨he, -⟩ | ⟨he, -⟩
    · rwa [he, holds_append_right hT (by decide)]
    · rwa [he, holds_append_right hT (by decide)]
  | _ => exact fun v hv => absurd hv List.not_mem_nil

/-- Wallet and pool of a checked profile are no stand-in values. -/
theorem not_isPlaceholder_of_check (h : p.check = .ok ()) :
    isPlaceholder (trim p.pool) = false ∧ isPlaceholder (trim p.wallet) = false := by
  have hpool : Profile.placeholderFault? p.pool = none :=
    Profile.no_fault h (f := ("pool", Profile.placeholderFault? p.pool)) (by simp [Profile.faults])
  have hwallet : Profile.placeholderFault? p.wallet = none :=
    Profile.no_fault h (f := ("wallet", Profile.placeholderFault? p.wallet)) (by simp [Profile.faults])
  rw [isPlaceholder_trim, isPlaceholder_trim]
  simpa [Profile.placeholderFault?] using And.intro hpool hwallet

/-- A preview succeeds if and only if the profile passes its checks, neither worker nor algorithm is
a stand-in value and no text of the profile holds a token; it is the configuration as rendered. Of
the rest of the configuration nothing is found, and it hides nothing. -/
theorem previewed_iff (b : Backend) (processors : Nat) (p : Profile) {install : Path}
    (hline : '\n' ∉ install.toList) (hbraces : ¬ ['\x7b', '\x7b'] <:+: install.toList) :
    ((∃ r, b.preview processors p install = .ok r) ↔ p.check = .ok () ∧
      isPlaceholder (trim p.worker) = false ∧ isPlaceholder (b.algorithmId p.algorithm) = false ∧
      ∀ v ∈ [trim p.pool, trim p.wallet, trim p.worker, b.algorithmId p.algorithm],
        ¬ Holds Template.IsToken v.toList) ∧
    (∀ r, b.preview processors p install = .ok r → b.render processors p install = .ok r) ∧
    ∀ r, p.check = .ok () → b.render processors p install = .ok r →
      (Holds Template.IsToken r.contents.toList ↔ ∃ v ∈ b.texts p, Holds Template.IsToken v.toList) ∧
      ((∀ v ∈ RenderedConfig.values r.format r.contents, isPlaceholder v = false) ↔
        ∀ v ∈ b.texts p, isPlaceholder v = false) := by
  have hpaths := not_holds_paths (b := b) Template.braced_isToken hbraces
  have hnone : ¬ ∃ v ∈ b.paths install, Holds Template.IsToken v.toList := fun ⟨v, hv, hheld⟩ =>
    hpaths v hv hheld
  refine ⟨?_, fun r h => (preview_eq_ok.1 h).2.1, fun r hcheck hr => ?_⟩
  · rw [preview_texts_iff hline]
    constructor
    · rintro ⟨hcheck, hvalues, htoken⟩
      exact ⟨hcheck, hvalues _ (by simp [texts]), hvalues _ (by simp [texts]),
        fun v hv => htoken v (List.mem_append_left _ hv)⟩
    · rintro ⟨hcheck, hworker, halgorithm, htoken⟩
      obtain ⟨hpool, hwallet⟩ := not_isPlaceholder_of_check hcheck
      refine ⟨hcheck, by simp [texts, hpool, hwallet, hworker, halgorithm], fun v hv => ?_⟩
      rcases List.mem_append.1 hv with hv | hv
      · exact htoken v hv
      · exact hpaths v hv
  · obtain ⟨contents, hcontents⟩ := b.exists_contents processors p install
    obtain rfl := Except.ok.inj ((render_eq_ok hcontents).symm.trans hr)
    refine ⟨?_, values_contents hcheck hline hcontents⟩
    rw [holds_contents Template.inline_isToken hcheck hcontents]
    simp only [List.mem_append, or_and_right, exists_or, hnone, or_false]

/-- A profile whose texts come close to tokens and stand-in values. -/
def nearMiss : Profile :=
  { pool := " stratum+tcp://\x7b\x7bPool\x7d\x7d:3333", wallet := "NOT_SET\\", worker := "\x7b \x7bw\x7d\x7d"
    algorithm := "Monero ", threads := 2 }

/-- A path with single braces, and with two that close. -/
def bracedPath : Path := "/opt/\x7b \x7bpool\x7d\x7d = NOT_SET"

theorem previewed_iff_nearMiss : '\n' ∉ bracedPath.toList ∧
    ¬ ['\x7b', '\x7b'] <:+: bracedPath.toList ∧
    (∃ r, srbMiner.preview 4 nearMiss bracedPath = .ok r) ∧
    ¬ ∃ r, srbMiner.preview 4 { nearMiss with worker := " not_set" } bracedPath = .ok r := by
  have hline : '\n' ∉ bracedPath.toList := by decide
  have hbraces : ¬ ['\x7b', '\x7b'] <:+: bracedPath.toList := by
    simp [bracedPath, List.infix_cons_iff]
  refine ⟨hline, hbraces, (previewed_iff srbMiner 4 nearMiss hline hbraces).1.2 ?_, fun hok => ?_⟩
  · simp only [← Template.unresolved?_eq_none_iff]
    exact ⟨rfl, by decide, by decide, by decide⟩
  · obtain ⟨-, hworker, -⟩ := (previewed_iff srbMiner 4 _ hline hbraces).1.1 hok
    revert hworker
    decide

/-! Leftovers -/

/-- No token is in an accepted configuration. Anything else between double braces is, if and only if
it is in a text of the profile or in a path. -/
theorem leftovers_of_preview {r : RenderedConfig} (h : b.preview processors p install = .ok r) :
    ¬ Holds Template.IsToken r.contents.toList ∧
      (Holds Template.IsLeftover r.contents.toList ↔
        ∃ v ∈ b.texts p ++ b.paths install, Holds Template.IsLeftover v.toList) := by
  obtain ⟨hcheck, hrender, hinspect⟩ := preview_eq_ok.1 h
  obtain ⟨contents, hcontents⟩ := b.exists_contents processors p install
  obtain rfl := Except.ok.inj ((render_eq_ok hcontents).symm.trans hrender)
  exact ⟨((RenderedConfig.inspect_eq_ok_iff _).1 hinspect).1,
    holds_contents Template.inline_isLeftover hcheck hcontents⟩

/-- A profile whose worker has the name of a template in capitals. -/
def capitals : Profile := { Profile.sample "randomx" with worker := "\x7b\x7bA\x7d\x7d" }

theorem capitals_preview : ∃ r, simulated.preview 4 capitals "/opt/m" = .ok r := by
  rw [preview_texts_iff (by decide)]
  simp only [← Template.unresolved?_eq_none_iff]
  exact ⟨rfl, by decide, by decide⟩

theorem isLeftover_capitals : Template.IsLeftover capitals.worker.toList :=
  ⟨['A'], by decide, by decide⟩

theorem leftovers_of_preview_capitals : ∃ r, simulated.preview 4 capitals "/opt/m" = .ok r ∧
    ¬ Holds Template.IsToken r.contents.toList ∧ Holds Template.IsLeftover r.contents.toList := by
  obtain ⟨r, h⟩ := capitals_preview
  obtain ⟨htoken, hleftover⟩ := leftovers_of_preview h
  have hworker : capitals.worker ∈ simulated.texts capitals ++ simulated.paths "/opt/m" := by decide
  exact ⟨r, h, htoken, hleftover.2 ⟨_, hworker, _, isLeftover_capitals, List.infix_rfl⟩⟩

theorem not_always_filled : ¬ ∀ (b : Backend) (processors : Nat) (p : Profile) (install : Path)
    (r : RenderedConfig), b.preview processors p install = .ok r →
      ¬ Holds Template.IsLeftover r.contents.toList := by
  intro hall
  obtain ⟨r, h⟩ := capitals_preview
  obtain ⟨hcheck, hrender, -⟩ := preview_eq_ok.1 h
  obtain ⟨contents, hcontents⟩ := simulated.exists_contents 4 capitals "/opt/m"
  obtain rfl := Except.ok.inj ((render_eq_ok hcontents).symm.trans hrender)
  refine hall _ _ _ _ _ h ((holds_contents Template.inline_isLeftover hcheck hcontents).2 ?_)
  exact ⟨capitals.worker, by decide, _, isLeftover_capitals, List.infix_rfl⟩

end Backend

end RigWarden
