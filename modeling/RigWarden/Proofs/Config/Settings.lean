import RigWarden.Proofs.Config.KeyValue
import RigWarden.Proofs.Config.Preview
import RigWarden.Proofs.Config.Template
import RigWarden.Proofs.Number.Digits

/-!
# Settings of a worker

A worker that reads lines is told just what its profile says: no text of an accepted profile ends
its line. The path of the miner's own log is not checked. What stands on further lines of it is read
as settings, and those come after the settings of the profile and prevail.
-/

namespace RigWarden

open Text Number KeyValue

/-! Values that are read back as they are written -/

/-- A value that stands on one line without blanks around it. -/
def Settled (value : String) : Prop := '\n' ∉ value.toList ∧ trim value = value

theorem settled_trim {value : String} (h : '\n' ∉ value.toList) : Settled (trim value) :=
  ⟨fun hmem => h (mem_of_mem_trim hmem), trim_trim value⟩

theorem settled_decimal (n : Nat) : Settled (decimal n) := by
  have hdigit : ∀ c ∈ (decimal n).toList, isAsciiDigit c = true := fun c hc =>
    isAsciiDigit_of_mem_digits (by simpa [decimal] using hc)
  have hblank : ∀ c ∈ (decimal n).toList, isBlank c = false := by
    intro c hc
    have hrange := isAsciiDigit_iff.1 (hdigit c hc)
    exact not_blank_of_visible (by omega) (by omega)
  constructor
  · intro h
    exact absurd (hdigit _ h) (by decide)
  · rw [trim, trimChars_of_not_blank hblank, String.ofList_toList]

theorem contribution_of_settled {e : String × String} (h : Settled e.2) : contribution e = [e] := by
  rw [contribution_of_notMem h.1, h.2]

theorem flatMap_contribution {es : List (String × String)} (h : ∀ e ∈ es, Settled e.2) :
    es.flatMap contribution = es := by
  induction es with
  | nil => rfl
  | cons e es ih =>
    rw [List.flatMap_cons, contribution_of_settled (h e (by simp)),
      ih fun e' he => h e' (by simp [he]), List.singleton_append]

/-- The texts of an accepted profile stay on their lines. -/
theorem Profile.settled {p : Profile} (h : p.check = .ok ()) {value : String}
    (hv : value ∈ [p.pool, p.wallet, p.worker, p.algorithm]) : Settled (trim value) :=
  settled_trim fun hline => absurd ((Profile.allowed h hv).2 _ hline) (by decide)

namespace Simulator

def settings (processors : Nat) (p : Profile) : List (String × String) :=
  [("pool", trim p.pool), ("wallet", trim p.wallet), ("worker", trim p.worker),
    ("algorithm", trim p.algorithm), ("threads", decimal (p.effectiveThreads processors)),
    ("max-cpu-usage", decimal p.maxCpuUsage)]

theorem parse_configText (processors : Nat) {p : Profile} (h : p.check = .ok ()) :
    parse (configText processors p) = .ofList (settings processors p) := by
  have hkeys : ∀ e ∈ settings processors p, isKey e.1 = true := by
    simp only [settings, List.forall_mem_cons, List.not_mem_nil, false_implies, implies_true,
      and_true]
    exact ⟨rfl, rfl, rfl, rfl, rfl, rfl⟩
  have hvalues : ∀ e ∈ settings processors p, Settled e.2 := by
    simp [settings, settled_decimal, Profile.settled h]
  change parse (KeyValue.render _ (settings processors p)) = _
  rw [parse_render (by decide) (by decide) hkeys, flatMap_contribution hvalues]

end Simulator

namespace SrbMiner

def header : String := "# SRBMiner-MULTI configuration, regenerated for every session"

/-- The place of a value in the template. -/
def slot (name : String) : Template.Piece :=
  .token name.toList (['\x7b', '\x7b'] ++ name.toList ++ ['\x7d', '\x7d'])

def slots : List (String × List Template.Piece) :=
  [("algorithm", [slot "algorithm"]), ("pool", [slot "pool"]), ("wallet", [slot "wallet"]),
    ("worker", [slot "worker"]), ("cpu-threads", [slot "threads"]),
    ("cpu-max-usage", [slot "max_cpu_usage"]), ("disable-gpu", "true".toList.map .char),
    ("log-file", [slot "log_file"])]

def slotPieces (s : String × List Template.Piece) : List Template.Piece :=
  (s.1.toList ++ " = ".toList).map Template.Piece.char ++ s.2 ++ [.char '\n']

def templatePieces : List Template.Piece :=
  header.toList.map Template.Piece.char ++ .char '\n' :: slots.flatMap slotPieces

theorem toList_template : template.toList = templatePieces.flatMap Template.Piece.source := by
  delta template templatePieces header slots
  simp only [String.toList_append, String.reduceToList, slot]
  decide +kernel

theorem templatePieces_plain : templatePieces.all Template.Piece.isPlain = true := by
  decide +kernel

theorem templatePieces_names : templatePieces.filterMap Template.Piece.name? =
    ["algorithm".toList, "pool".toList, "wallet".toList, "worker".toList, "threads".toList,
      "max_cpu_usage".toList, "log_file".toList] := by
  decide

/-- What the profile says of the miner. -/
def profileSettings (processors : Nat) (p : Profile) : List (String × String) :=
  [("algorithm", algorithmId p.algorithm), ("pool", trim p.pool), ("wallet", trim p.wallet),
    ("worker", trim p.worker), ("cpu-threads", decimal (p.effectiveThreads processors)),
    ("cpu-max-usage", decimal p.maxCpuUsage), ("disable-gpu", "true")]

def settings (processors : Nat) (p : Profile) (install : Path) : List (String × String) :=
  profileSettings processors p ++ [("log-file", Path.join install logFile)]

theorem fill_slotPieces (vs : Template.Values) (s : String × List Template.Piece) :
    (slotPieces s).flatMap (Template.Piece.fill vs) =
      renderEntry (s.1, .ofList (s.2.flatMap (Template.Piece.fill vs))) := by
  simp only [slotPieces, List.flatMap_append, Template.fill_chars, renderEntry, String.toList_ofList]
  rfl

theorem fill_slots (processors : Nat) (p : Profile) (install : Path) :
    (slots.map fun s => (s.1, String.ofList
      (s.2.flatMap (Template.Piece.fill (values processors p install))))) =
      settings processors p install := by
  simp [slots, settings, profileSettings, slot, Template.Piece.fill, values, Template.valueOf?]

/-- The template filled in is the list of the settings. -/
theorem render_eq (processors : Nat) (p : Profile) (install : Path) :
    render processors p install = .ok (KeyValue.render header (settings processors p install)) := by
  have hmissing : Template.missing? (values processors p install) templatePieces = none := by
    rw [Template.missing?, templatePieces_names]
    simp [values, Template.valueOf?]
  rw [render, Template.fill_eq_ok toList_template templatePieces_plain hmissing, templatePieces]
  simp only [List.flatMap_append, List.flatMap_cons, Template.fill_chars, List.flatMap_assoc,
    fill_slotPieces]
  rw [← fill_slots, KeyValue.render, List.flatMap_map]
  rfl

theorem settled_algorithmId {algorithm : String} (h : Settled (trim algorithm)) :
    Settled (algorithmId algorithm) := by
  simp only [algorithmId]
  split
  · exact ⟨by decide, by decide⟩
  · exact h

theorem profileSettings_settled (processors : Nat) {p : Profile} (h : p.check = .ok ()) :
    ∀ e ∈ profileSettings processors p, Settled e.2 := by
  have htrue : Settled "true" := ⟨by decide, by decide⟩
  simp [profileSettings, settled_decimal, Profile.settled h, settled_algorithmId, htrue]

theorem settings_keys (processors : Nat) (p : Profile) (install : Path) :
    ∀ e ∈ settings processors p install, isKey e.1 = true := by
  simp only [settings, profileSettings, List.cons_append, List.nil_append, List.forall_mem_cons,
    List.not_mem_nil, false_implies, implies_true, and_true]
  exact ⟨rfl, rfl, rfl, rfl, rfl, rfl, rfl, rfl⟩

/-- What the lines of the install path say: where the miner's own log is, and the settings on
further lines. -/
def pathSettings (install : Path) : List (String × String) :=
  contribution ("log-file", Path.join install logFile)

theorem parse_settings (processors : Nat) {p : Profile} (h : p.check = .ok ()) (install : Path) :
    parse (KeyValue.render header (settings processors p install)) =
      .ofList (profileSettings processors p ++ pathSettings install) := by
  rw [parse_render (by decide) (by decide) (settings_keys processors p install),
    settings, List.flatMap_append, flatMap_contribution (profileSettings_settled processors h),
    List.flatMap_singleton, pathSettings]

theorem lineFeed_notMem_logPath {install : Path} (h : '\n' ∉ install.toList) :
    '\n' ∉ (Path.join install logFile).toList := by
  have hlog : '\n' ∉ logFile.toList := by decide
  rw [Path.join]
  split
  · exact hlog
  · split <;> simp [h, hlog]

theorem pathSettings_of_one_line {install : Path} (h : '\n' ∉ install.toList) :
    pathSettings install = [("log-file", trim (Path.join install logFile))] :=
  contribution_of_notMem (lineFeed_notMem_logPath h)

end SrbMiner

/-! Accepted profiles -/

/-- Reading back a rendered configuration gives the settings of the profile and no others. -/
theorem Backend.settings_read_back (processors : Nat) {p : Profile} (h : p.check = .ok ())
    {install : Path} (hline : '\n' ∉ install.toList) :
    (∃ r, Backend.simulated.render processors p install = .ok r ∧
      KeyValue.parse r.contents =
        [("algorithm", trim p.algorithm), ("max-cpu-usage", decimal p.maxCpuUsage),
          ("pool", trim p.pool), ("threads", decimal (p.effectiveThreads processors)),
          ("wallet", trim p.wallet), ("worker", trim p.worker)]) ∧
    ∃ r, Backend.srbMiner.render processors p install = .ok r ∧
      KeyValue.parse r.contents =
        [("algorithm", SrbMiner.algorithmId p.algorithm),
          ("cpu-max-usage", decimal p.maxCpuUsage),
          ("cpu-threads", decimal (p.effectiveThreads processors)), ("disable-gpu", "true"),
          ("log-file", trim (Path.join install SrbMiner.logFile)), ("pool", trim p.pool),
          ("wallet", trim p.wallet), ("worker", trim p.worker)] := by
  constructor
  · refine ⟨_, rfl, ?_⟩
    rw [Simulator.parse_configText processors h]
    simp +decide only [Simulator.settings, KeyMap.ofList, List.foldl_cons, List.foldl_nil,
      KeyMap.insert, if_true, if_false]
  · refine ⟨_, by rw [Backend.render, Backend.renderContents, SrbMiner.render_eq]; rfl, ?_⟩
    rw [SrbMiner.parse_settings processors h, SrbMiner.pathSettings_of_one_line hline]
    simp +decide only [SrbMiner.profileSettings, List.cons_append, List.nil_append, KeyMap.ofList,
      List.foldl_cons, List.foldl_nil, KeyMap.insert, if_true, if_false]

/-- A profile whose texts look like comments, entries and tokens. -/
def oddProfile : Profile :=
  { pool := " stratum+tcp://\x7b\x7bwallet\x7d\x7d=#\\:3333", wallet := "# = \x7b\x7bpool\x7d\x7d",
    worker := "w\u2028pool = λ\\n", algorithm := "Monero ", threads := 2 }

/-- A path with a token and an equals sign in it. -/
def oddPath : Path := "/opt/\x7b\x7bpool\x7d\x7d = #"

theorem Backend.settings_read_back_odd : oddProfile.check = .ok () ∧ '\n' ∉ oddPath.toList ∧
    (∃ r, Backend.simulated.render 4 oddProfile oddPath = .ok r ∧
      KeyValue.parse r.contents =
        [("algorithm", trim oddProfile.algorithm), ("max-cpu-usage", decimal 75),
          ("pool", trim oddProfile.pool), ("threads", decimal 2),
          ("wallet", trim oddProfile.wallet), ("worker", trim oddProfile.worker)]) ∧
    ∃ r, Backend.srbMiner.render 4 oddProfile oddPath = .ok r ∧
      KeyValue.parse r.contents =
        [("algorithm", SrbMiner.algorithmId oddProfile.algorithm), ("cpu-max-usage", decimal 75),
          ("cpu-threads", decimal 2), ("disable-gpu", "true"),
          ("log-file", trim (Path.join oddPath SrbMiner.logFile)),
          ("pool", trim oddProfile.pool), ("wallet", trim oddProfile.wallet),
          ("worker", trim oddProfile.worker)] := by
  have hcheck : oddProfile.check = .ok () := rfl
  have hline : '\n' ∉ oddPath.toList := by decide
  exact ⟨hcheck, hline, Backend.settings_read_back 4 hcheck hline⟩

/-! Install paths -/

namespace SrbMiner

/-- What the miner is told under a key. The lines of the install path come last and prevail. -/
def told (processors : Nat) (p : Profile) (install : Path) (key : String) : Option String :=
  ((KeyMap.ofList (pathSettings install)).get? key).or
    ((KeyMap.ofList (profileSettings processors p)).get? key)

theorem get?_preview {processors : Nat} {p : Profile} {install : Path} {r : RenderedConfig}
    (h : Backend.srbMiner.preview processors p install = .ok r) (key : String) :
    (parse r.contents).get? key = told processors p install key := by
  obtain ⟨hcheck, hrender, -⟩ := Backend.preview_eq_ok.1 h
  rw [Backend.render, Backend.renderContents, render_eq] at hrender
  obtain rfl := Except.ok.inj hrender
  rw [parse_settings processors hcheck, KeyMap.get?_ofList_append, told]

/-- A path of one line says nothing but where the log is. -/
theorem told_of_one_line (processors : Nat) (p : Profile) {install : Path}
    (hline : '\n' ∉ install.toList) {key : String} (hkey : key ≠ "log-file") :
    told processors p install key = (KeyMap.ofList (profileSettings processors p)).get? key := by
  have hnone : (KeyMap.ofList (pathSettings install)).get? key = none := by
    rw [pathSettings_of_one_line hline]
    simp [KeyMap.ofList, KeyMap.insert, KeyMap.get?_cons, hkey.symm]
  rw [told, hnone, Option.none_or]

/-- Two install paths give the same settings if and only if their further lines change those of the
profile in the same way; paths of one line always do. -/
theorem same_settings {processors : Nat} {p : Profile} {install install' : Path}
    {r r' : RenderedConfig} (h : Backend.srbMiner.preview processors p install = .ok r)
    (h' : Backend.srbMiner.preview processors p install' = .ok r') :
    ((∀ key, key ≠ "log-file" → (parse r.contents).get? key = (parse r'.contents).get? key) ↔
      ∀ key, key ≠ "log-file" → told processors p install key = told processors p install' key) ∧
    ('\n' ∉ install.toList → '\n' ∉ install'.toList → ∀ key, key ≠ "log-file" →
      (parse r.contents).get? key = (parse r'.contents).get? key) := by
  simp only [get?_preview h, get?_preview h', true_and]
  intro hline hline' key hkey
  rw [told_of_one_line processors p hline hkey, told_of_one_line processors p hline' hkey]

theorem sample_preview {install : Path}
    (h : install ∈ ["/opt/m", "/srv/m", "/opt/m\npool = evil.example:1"]) :
    Backend.srbMiner.preview 4 (Profile.sample "randomx") install =
      .ok ⟨Path.join install "config.txt", .keyValue,
        KeyValue.render header (settings 4 (Profile.sample "randomx") install)⟩ := by
  have hcheck : (Profile.sample "randomx").check = .ok () := rfl
  simp only [List.mem_cons, List.not_mem_nil, or_false] at h
  refine Backend.preview_eq_ok.2 ⟨hcheck, ?_, RenderedConfig.inspect_ok _ ?_ ?_⟩
  · rw [Backend.render, Backend.renderContents, render_eq]
    rfl
  · rw [KeyValue.render, String.toList_ofList]
    rcases h with rfl | rfl | rfl <;> decide +kernel
  · rw [RenderedConfig.values, parse_settings 4 hcheck]
    rcases h with rfl | rfl | rfl <;> decide

theorem same_settings_opt_srv : ∃ r r',
    Backend.srbMiner.preview 4 (Profile.sample "randomx") "/opt/m" = .ok r ∧
      Backend.srbMiner.preview 4 (Profile.sample "randomx") "/srv/m" = .ok r' ∧
      ∀ key, key ≠ "log-file" → (parse r.contents).get? key = (parse r'.contents).get? key :=
  ⟨_, _, sample_preview (by decide), sample_preview (by decide),
    (same_settings (sample_preview (by decide)) (sample_preview (by decide))).2
      (by decide) (by decide)⟩

theorem not_always_same_settings : ¬ ∀ (processors : Nat) (p : Profile) (install install' : Path)
    (r r' : RenderedConfig), Backend.srbMiner.preview processors p install = .ok r →
      Backend.srbMiner.preview processors p install' = .ok r' →
        ∀ key, key ≠ "log-file" → (parse r.contents).get? key = (parse r'.contents).get? key := by
  intro hall
  have hquiet := @sample_preview "/opt/m" (by decide)
  have hloud := @sample_preview "/opt/m\npool = evil.example:1" (by decide)
  have hpool := hall _ _ _ _ _ _ hquiet hloud "pool" (by decide)
  rw [get?_preview hquiet, get?_preview hloud] at hpool
  revert hpool
  decide

end SrbMiner

end RigWarden
