import RigWarden.Config.Render
import RigWarden.Proofs.Text.Utf8

/-!
# Accepted profiles

What the checks say about a profile that passes them, and about a configuration that is used.
-/

namespace RigWarden

open Text

namespace Profile

variable {p : Profile} (h : p.check = .ok ())
include h

theorem no_fault {f : String × Option ConfigurationFault} (hf : f ∈ p.faults) : f.2 = none := by
  have hnone := List.findSome?_eq_none_iff.1 ((check_eq_ok_iff p).1 h) f hf
  simpa using hnone

theorem cap_le : p.maxCpuUsage ≤ 100 := by
  have hcap : capFault? p.maxCpuUsage = none :=
    no_fault h (f := ("max_cpu_usage", capFault? p.maxCpuUsage)) (by simp [faults])
  simp only [capFault?, ite_eq_right_iff, reduceCtorEq, imp_false] at hcap
  omega

theorem allowed {value : String} (hv : value ∈ [p.pool, p.wallet, p.worker, p.algorithm]) :
    trimChars value.toList ≠ [] ∧ ∀ c ∈ value.toList, isForbidden c = false := by
  have hfault : textFault? value = none := by
    simp only [List.mem_cons, List.not_mem_nil, or_false] at hv
    rcases hv with rfl | rfl | rfl | rfl
    · exact no_fault h (f := ("pool", textFault? p.pool)) (by simp [faults])
    · exact no_fault h (f := ("wallet", textFault? p.wallet)) (by simp [faults])
    · exact no_fault h (f := ("worker", textFault? p.worker)) (by simp [faults])
    · exact no_fault h (f := ("algorithm", textFault? p.algorithm)) (by simp [faults])
  rw [textFault?] at hfault
  split at hfault
  · cases hfault
  · split at hfault
    · cases hfault
    next hblank hany => exact ⟨hblank, by simpa using hany⟩

end Profile

/-- A profile for one thread that is accepted unless its algorithm is not. -/
def Profile.sample (algorithm : String) : Profile :=
  { pool := "pool.example:3333", wallet := "4AbcWallet", worker := "w1", algorithm := algorithm,
    threads := 1 }

theorem RenderedConfig.inspect_ok {r : RenderedConfig} (configFile : String)
    (htoken : ∀ piece ∈ Template.pieces r.contents.toList, piece.name? = none)
    (hvalues : ∀ v ∈ values r.format r.contents, isPlaceholder v = false) :
    r.inspect configFile = .ok r := by
  have hnone : Template.unresolved? r.contents = none := by
    rw [Template.unresolved?, chars_eq_toList, List.findSome?_eq_none_iff]
    intro piece hpiece
    rw [htoken piece hpiece, Option.map_none]
  have hfind : (values r.format r.contents).find? isPlaceholder = none :=
    List.find?_eq_none.2 fun v hv => by simp [hvalues v hv]
  simp [inspect, fault?, hnone, hfind]

theorem Backend.preview_eq_ok {b : Backend} {processors : Nat} {p : Profile} {install : Path}
    {r : RenderedConfig} : b.preview processors p install = .ok r ↔ p.check = .ok () ∧
      b.render processors p install = .ok r ∧ r.inspect b.descriptor.configFile = .ok r := by
  have hinspect {r' : RenderedConfig} (h : r'.inspect b.descriptor.configFile = .ok r) : r' = r := by
    rw [RenderedConfig.inspect] at h
    split at h
    · cases h
    · exact Except.ok.inj h
  rw [preview]
  cases hcheck : p.check with
  | error e => simp [bind, Except.bind]
  | ok _ =>
    cases hrender : b.render processors p install with
    | error e => simp [bind, Except.bind]
    | ok r' =>
      simp only [bind, Except.bind, Except.ok.injEq, true_and]
      constructor
      · intro h
        obtain rfl := hinspect h
        exact ⟨rfl, h⟩
      · rintro ⟨rfl, h⟩
        exact h

theorem Backend.path_of_render {b : Backend} {processors : Nat} {p : Profile} {install : Path}
    {c : RenderedConfig} (h : b.render processors p install = .ok c) :
    c.path = Path.join install b.descriptor.configFile := by
  unfold render at h
  cases hcontents : b.renderContents processors p install with
  | error e => simp [hcontents, Except.map] at h
  | ok contents =>
    rw [hcontents] at h
    cases h
    rfl

end RigWarden
