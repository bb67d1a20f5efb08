import RigWarden.Proofs.Config.Preview
import RigWarden.Proofs.Json.RoundTrip

/-!
# Reading back an XMRig configuration

The list of threads stands in the CPU section under the family of the algorithm, beside the
settings of the section. So a rendered configuration reads back as it was rendered when the family
is none of their names; otherwise one name occurs twice and nothing is read.
-/

namespace RigWarden.Xmrig

open Text Number

theorem PoolEntry.toJson_plain (p : PoolEntry) : p.toJson.Plain := by
  simp [toJson, Json.plain_object]

theorem CpuSection.toJson_plain (c : CpuSection) : c.toJson.Plain := by
  rw [toJson, Json.plain_object]
  intro f hf
  rcases List.mem_append.1 hf with hf | hf
  · simp only [List.mem_cons, List.not_mem_nil, or_false] at hf
    rcases hf with rfl | rfl | rfl <;> simp
  · obtain ⟨t, -, rfl⟩ := List.mem_map.1 hf
    refine Json.plain_array.2 fun j hj => ?_
    obtain ⟨i, -, rfl⟩ := List.mem_map.1 hj
    exact Json.plain_ofInt i

theorem Config.toJson_plain (c : Config) : c.toJson.Plain := by
  have hpools : (Json.array (c.pools.map PoolEntry.toJson)).Plain := by
    refine Json.plain_array.2 fun j hj => ?_
    obtain ⟨p, -, rfl⟩ := List.mem_map.1 hj
    exact p.toJson_plain
  simp [toJson, Json.plain_object, c.cpu.toJson_plain, hpools]

theorem Config.read?_render (c : Config) : Config.read? c.render = Config.ofJson? c.toJson := by
  rw [read?, render, Json.parse?_pretty c.toJson_plain, Option.bind_some]

theorem PoolEntry.ofJson?_toJson (p : PoolEntry) : PoolEntry.ofJson? p.toJson = some p := by
  simp [ofJson?, toJson, Json.record?, Json.unique?, Json.string?, Json.bool?]

theorem mapM_ofJson? (pools : List PoolEntry) :
    (pools.map PoolEntry.toJson).mapM PoolEntry.ofJson? = some pools := by
  induction pools with
  | nil => rfl
  | cons p pools ih => simp [List.mapM_cons, PoolEntry.ofJson?_toJson, ih]

/-- Only the CPU section decides whether a configuration reads back. -/
theorem Config.ofJson?_toJson (c : Config) (h : c.printTime < limit32) :
    Config.ofJson? c.toJson =
      (CpuSection.ofJson? c.cpu.toJson).map fun cpu => { c with cpu := cpu } := by
  have hpools := mapM_ofJson? c.pools
  have htime := Json.natural?_ofNat h
  cases hcpu : CpuSection.ofJson? c.cpu.toJson <;>
    simp [ofJson?, toJson, Json.record?, Json.unique?, Json.bool?, Json.items?, hpools, htime, hcpu]

/-! The CPU section -/

/-- A thread that is bound to no processor. -/
def unbound : Json := .ofInt (-1)

theorem unbound_clean : unbound.clean = true := by decide +kernel

theorem integer?_unbound : unbound.integer? limit31 = some (-1) := by decide

theorem cleanItems_unbound (n : Nat) : Json.cleanItems (List.replicate n unbound) = true := by
  induction n with
  | zero => rfl
  | succ n ih => rw [List.replicate_succ, Json.cleanItems, unbound_clean, ih, Bool.and_self]

theorem depthItems_unbound (n : Nat) : Json.depthItems (List.replicate n unbound) = 0 := by
  induction n with
  | zero => rfl
  | succ n ih => rw [List.replicate_succ, Json.depthItems, ih]; rfl

theorem threads_sound (n : Nat) : (Json.array (List.replicate n unbound)).sound = true := by
  simp [Json.sound, Json.clean, Json.depth, cleanItems_unbound, depthItems_unbound, Json.maxDepth]

theorem threads?_unbound (name : String) (n : Nat) :
    threads? (name, .array (List.replicate n unbound)) = some (name, List.replicate n (-1)) := by
  have hitems : (List.replicate n unbound).mapM (Json.integer? limit31) =
      some (List.replicate n (-1)) := by
    induction n with
    | zero => rfl
    | succ n ih => simp [List.replicate_succ, List.mapM_cons, integer?_unbound, ih]
  simp [threads?, threads_sound, Json.items?, hitems]

/-- The section of a machine whose threads are bound to no processor. -/
def CpuSection.ofThreads (cap : Nat) (name : String) (n : Nat) : CpuSection :=
  ⟨true, true, cap, [(name, List.replicate n (-1))]⟩

theorem ofThreads_toJson (cap : Nat) (name : String) (n : Nat) :
    (CpuSection.ofThreads cap name n).toJson =
      .object [("enabled", .bool true), ("huge-pages", .bool true),
        ("max-threads-hint", .ofNat cap), (name, .array (List.replicate n unbound))] := by
  simp [CpuSection.ofThreads, CpuSection.toJson, unbound]

theorem CpuSection.ofJson?_fresh {cap : Nat} (hcap : cap < Profile.capLimit) {name : String}
    (hname : name ∉ cpuFields) (n : Nat) :
    CpuSection.ofJson? (ofThreads cap name n).toJson = some (ofThreads cap name n) := by
  have hhint := Json.natural?_ofNat hcap
  have hlists := threads?_unbound name n
  simp only [cpuFields, List.mem_cons, List.not_mem_nil, or_false, not_or] at hname
  obtain ⟨h1, h2, h3⟩ := hname
  rw [ofThreads_toJson]
  simp [ofJson?, Json.unique?, Json.bool?, cpuFields, h1, h2, h3, hhint, hlists, KeyMap.ofList,
    KeyMap.insert, ofThreads]

theorem CpuSection.ofJson?_taken (cap : Nat) {name : String} (hname : name ∈ cpuFields) (n : Nat) :
    CpuSection.ofJson? (ofThreads cap name n).toJson = none := by
  simp only [cpuFields, List.mem_cons, List.not_mem_nil, or_false] at hname
  rw [ofThreads_toJson]
  rcases hname with rfl | rfl | rfl <;> simp [ofJson?, Json.unique?, Json.bool?]

/-- What a profile asks for stands in the configuration. -/
structure Config.Reproduces (c : Config) (processors : Nat) (p : Profile) : Prop where
  rendered : c = Config.ofProfile processors p
  pool : ∃ pool, c.pools.head? = some pool ∧ pool.url = trim p.pool ∧ pool.user = trim p.wallet ∧
    pool.rigId = trim p.worker ∧ pool.algo = algorithmId p.algorithm
  cap : c.cpu.maxThreadsHint = p.maxCpuUsage
  threads : c.threadCount? = some (p.effectiveThreads processors)

theorem ofProfile_reproduces (processors : Nat) (p : Profile) :
    (Config.ofProfile processors p).Reproduces processors p where
  rendered := rfl
  pool := by simp [Config.ofProfile]
  cap := rfl
  threads := by simp [Config.threadCount?, Config.ofProfile, KeyMap.get?_cons]

theorem read?_ofProfile (processors : Nat) {p : Profile} (hcap : p.maxCpuUsage < Profile.capLimit) :
    Config.read? (Config.ofProfile processors p).render =
      if family (algorithmId p.algorithm) ∈ cpuFields then none
      else some (Config.ofProfile processors p) := by
  have hcpu : (Config.ofProfile processors p).cpu = .ofThreads p.maxCpuUsage
    (family (algorithmId p.algorithm)) (p.effectiveThreads processors) := rfl
  have htime : (Config.ofProfile processors p).printTime < limit32 := by
    change 10 < limit32
    decide
  rw [Config.read?_render, Config.ofJson?_toJson _ htime, hcpu]
  split
  next hname => rw [CpuSection.ofJson?_taken _ hname, Option.map_none]
  next hname => rw [CpuSection.ofJson?_fresh hcap hname, Option.map_some, ← hcpu]

/-! Previews -/

/-- An xmrig preview is the rendered configuration of its profile, whatever the install path. -/
theorem contents_of_preview {processors : Nat} {p : Profile} {install : Path} {r : RenderedConfig}
    (h : Backend.xmrig.preview processors p install = .ok r) :
    p.check = .ok () ∧ r.contents = (Config.ofProfile processors p).render := by
  obtain ⟨hcheck, hrender, -⟩ := Backend.preview_eq_ok.1 h
  obtain rfl := Except.ok.inj hrender
  exact ⟨hcheck, rfl⟩

/-- The profile reads back from its configuration if and only if the family of its algorithm is not
the name of a setting of the CPU section. -/
theorem reproduced_iff {processors : Nat} {p : Profile} {install : Path} {r : RenderedConfig}
    (h : Backend.xmrig.preview processors p install = .ok r) :
    (∃ c, Config.read? r.contents = some c ∧ c.Reproduces processors p) ↔
      family (algorithmId p.algorithm) ∉ cpuFields := by
  obtain ⟨hcheck, hcontents⟩ := contents_of_preview h
  have hcap : p.maxCpuUsage < Profile.capLimit :=
    Nat.lt_of_le_of_lt (Profile.cap_le hcheck) (by decide)
  rw [hcontents, read?_ofProfile processors hcap]
  split
  next hname => simp [hname]
  next hname => exact ⟨fun _ => hname, fun _ => ⟨_, rfl, ofProfile_reproduces processors p⟩⟩

theorem render_toList (c : Config) :
    c.render.toList = Json.prettyChars 0 c.toJson ++ ['\n'] := by
  simp [Config.render, Json.pretty]

theorem values_render {c : Config} (hsound : c.toJson.sound = true) :
    RenderedConfig.values .json c.render = c.toJson.strings := by
  rw [RenderedConfig.values, Json.read?, Config.render, Json.parse?_pretty c.toJson_plain,
    Option.filter_some, if_pos hsound, Option.map_some, Option.getD_some]

theorem sample_preview {algorithm : String} (h : algorithm ∈ ["randomx", "enabled"]) :
    Backend.xmrig.preview 4 (Profile.sample algorithm) "/opt/m" = .ok ⟨"/opt/m/config.json", .json,
      (Config.ofProfile 4 (Profile.sample algorithm)).render⟩ := by
  simp only [List.mem_cons, List.not_mem_nil, or_false] at h
  have hsound : (Config.ofProfile 4 (Profile.sample algorithm)).toJson.sound = true := by
    rcases h with rfl | rfl <;> decide +kernel
  refine Backend.preview_eq_ok.2 ⟨?_, ?_, RenderedConfig.inspect_ok _ ?_ ?_⟩
  · rcases h with rfl | rfl <;> rfl
  · rcases h with rfl | rfl <;> rfl
  · rw [render_toList]
    rcases h with rfl | rfl <;> decide +kernel
  · rw [values_render hsound]
    rcases h with rfl | rfl <;> decide

theorem reproduced_randomx : ∃ r,
    Backend.xmrig.preview 4 (Profile.sample "randomx") "/opt/m" = .ok r ∧
      ∃ c, Config.read? r.contents = some c ∧ c.Reproduces 4 (Profile.sample "randomx") :=
  ⟨_, sample_preview (by decide), (reproduced_iff (sample_preview (by decide))).2
    (by decide)⟩

theorem not_always_reproduced : ¬ ∀ (processors : Nat) (p : Profile) (install : Path)
    (r : RenderedConfig), Backend.xmrig.preview processors p install = .ok r →
      ∃ c, Config.read? r.contents = some c ∧ c.Reproduces processors p := by
  intro hall
  obtain ⟨c, hc, -⟩ := hall 4 (Profile.sample "enabled") "/opt/m" _ (sample_preview (by decide))
  rw [read?_ofProfile 4 (by decide), if_pos (by decide)] at hc
  cases hc

end RigWarden.Xmrig
