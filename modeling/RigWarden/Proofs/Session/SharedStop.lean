import Mathlib.Data.List.Induction
import RigWarden.Proofs.Session.Report
import RigWarden.Session.Handle

/-!
# Stopping a shared session

Threads that stop one session race for the thread of its pump. Whoever takes it waits for its end.
The others, and those who ask whether the session is finished, find it taken and do not wait: what
they are told holds only if they come late enough.
-/

namespace RigWarden

namespace HandleCall

variable {c : HandleCall} {h : Handle} {isOver : Bool}

theorem hasThread_step_of_false (ht : h.hasThread = false) :
    (c.step h isOver).2.hasThread = false := by
  cases c <;> simp [step, ht]

theorem hasThread_step_of_joining (hj : (c.step h isOver).1 = .joining) (hc : c ≠ .joining) :
    (c.step h isOver).2.hasThread = false := by
  cases c with
  | taking =>
    cases ht : h.hasThread <;> simp [step, ht] at hj ⊢
  | joining => exact absurd rfl hc
  | stopping | stopped | asking | answered => simp [step] at hj

theorem step_eq_joining (ht : h.hasThread = true) (ht' : (c.step h isOver).2.hasThread = false) :
    (c.step h isOver).1 = .joining := by
  cases c <;> simp_all [step]

theorem saysOver_step (hs : (c.step h isOver).1.saysOver = true) :
    c.saysOver = true ∨ isOver = true ∨ (c = .taking ∨ c = .asking) ∧ h.hasThread = false := by
  cases c with
  | stopping => simp [step, saysOver] at hs
  | taking =>
    cases ht : h.hasThread with
    | true => simp [step, ht, saysOver] at hs
    | false => exact .inr (.inr ⟨.inl rfl, rfl⟩)
  | joining =>
    cases isOver with
    | true => exact .inr (.inl rfl)
    | false => simp [step, saysOver] at hs
  | stopped => exact .inl rfl
  | asking =>
    cases ht : h.hasThread with
    | true => exact .inr (.inl (by simpa [step, ht, saysOver] using hs))
    | false => exact .inr (.inr ⟨.inr rfl, rfl⟩)
  | answered finished => exact .inl hs

end HandleCall

namespace SharedSession

/-- A session that has just been started, with its first handle. -/
def start (b : Backend) (program : String) (policy : RestartPolicy) (grace : Duration)
    (tailer : Log.Tailer) : SharedSession :=
  { pump := .new b program policy grace tailer }

/-- Everything is over: the thread has ended, its worker is gone, the last event was sent and
nothing can follow it. -/
structure Settled (s : SharedSession) : Prop where
  exited : s.pump.phase = .done
  gone : s.pump.supervisor.worker = none
  stopped : ∃ before, s.sent = before ++ [.control .stopped]
  final : ∀ steps, (s.run steps).sent = s.sent

/-- A caller looks for the pump's thread while another one still waits for its end. -/
def Overtaking (s : SharedSession) (a : Step) : Prop :=
  ∃ k c, a = .goOn k ∧ s.calls[k]? = some c ∧ (c = .taking ∨ c = .asking) ∧
    .joining ∈ s.calls ∧ s.pump.isOver = false

def Overtakes (s : SharedSession) (steps : List Step) : Prop :=
  ∃ before a after, steps = before ++ a :: after ∧ (s.run before).Overtaking a

/-- The pump's thread is missing exactly while somebody waits for it, up to its end. -/
structure Held (s : SharedSession) : Prop where
  taken : .joining ∈ s.calls → s.handle.hasThread = false
  waited : s.handle.hasThread = false → s.pump.isOver = false → .joining ∈ s.calls
  told : s.pump.Told True s.sent

def OnlyOver (s : SharedSession) : Prop := ∀ c ∈ s.calls, c.saysOver = true → s.pump.isOver = true

section steps

variable {s : SharedSession}

theorem run_append (s : SharedSession) (as bs : List Step) :
    s.run (as ++ bs) = (s.run as).run bs :=
  List.foldl_append

theorem run_snoc (s : SharedSession) (as : List Step) (a : Step) :
    s.run (as ++ [a]) = (s.run as).step a :=
  s.run_append as [a]

theorem step_goOn {k : Nat} {c : HandleCall} (h : s.calls[k]? = some c) :
    s.step (.goOn k) =
      { s with handle := (c.step s.handle s.pump.isOver).2,
               calls := s.calls.set k (c.step s.handle s.pump.isOver).1 } := by
  simp only [step, h]

theorem step_goOn_none {k : Nat} (h : s.calls[k]? = none) : s.step (.goOn k) = s := by
  simp only [step, h]

/-- Another call than the one that goes on stays where it is. -/
theorem mem_set_of_ne {calls : List HandleCall} {k : Nat} {c d e : HandleCall}
    (h : calls[k]? = some c) (hd : d ∈ calls) (hne : c ≠ d) : d ∈ calls.set k e := by
  obtain ⟨j, hj⟩ := List.mem_iff_getElem?.1 hd
  have hjk : k ≠ j := by
    rintro rfl
    exact hne (Option.some.inj (h.symm.trans hj))
  exact List.mem_iff_getElem?.2 ⟨j, by rw [List.getElem?_set_ne hjk, hj]⟩

theorem mem_set_self {calls : List HandleCall} {k : Nat} {c e : HandleCall}
    (h : calls[k]? = some c) : e ∈ calls.set k e := by
  obtain ⟨hk, _⟩ := List.getElem?_eq_some_iff.1 h
  exact List.mem_iff_getElem?.2 ⟨k, by simp [hk]⟩

theorem isOver_step (h : s.pump.isOver = true) (a : Step) :
    (s.step a).pump = s.pump ∧ (s.step a).sent = s.sent := by
  cases a with
  | pump o => simp [step, Pump.step_of_isOver h]
  | callStop => exact ⟨rfl, rfl⟩
  | callIsFinished => exact ⟨rfl, rfl⟩
  | goOn k =>
    cases hc : s.calls[k]? with
    | none => rw [step_goOn_none hc]; exact ⟨rfl, rfl⟩
    | some c => rw [step_goOn hc]; exact ⟨rfl, rfl⟩

theorem isOver_run (h : s.pump.isOver = true) (steps : List Step) :
    (s.run steps).sent = s.sent := by
  induction steps generalizing s with
  | nil => rfl
  | cons a steps ih =>
    obtain ⟨hp, hs⟩ := isOver_step h a
    rw [run_cons, ih (hp ▸ h), hs]

theorem Held.goOn (h : s.Held) {k : Nat} {c : HandleCall} (hc : s.calls[k]? = some c) :
    (s.step (.goOn k)).Held := by
  rw [step_goOn hc]
  refine ⟨fun hj => ?_, fun ht hover => ?_, h.told⟩
  · by_cases hold : .joining ∈ s.calls
    · exact HandleCall.hasThread_step_of_false (h.taken hold)
    · have hne : c ≠ .joining := by
        rintro rfl
        exact hold (List.mem_of_getElem? hc)
      rcases List.mem_or_eq_of_mem_set hj with hmem | heq
      · exact absurd hmem hold
      · exact HandleCall.hasThread_step_of_joining heq.symm hne
  · cases hthread : s.handle.hasThread with
    | true =>
      rw [HandleCall.step_eq_joining hthread ht]
      exact mem_set_self hc
    | false =>
      by_cases hj : c = .joining
      · subst hj
        change s.pump.isOver = false at hover
        simp only [HandleCall.step, hover]
        exact mem_set_self hc
      · exact mem_set_of_ne hc (h.waited hthread hover) hj

theorem Held.step (h : s.Held) (a : Step) : (s.step a).Held := by
  cases a with
  | pump o =>
    refine ⟨h.taken, fun ht hover => h.waited ht ?_, h.told.step fun _ => trivial⟩
    by_contra hn
    rw [(isOver_step (by simpa using hn) (.pump o)).1] at hover
    exact hn hover
  | callStop =>
    exact ⟨by simpa [SharedSession.step] using h.taken,
      by simpa [SharedSession.step] using h.waited, h.told⟩
  | callIsFinished =>
    exact ⟨by simpa [SharedSession.step] using h.taken,
      by simpa [SharedSession.step] using h.waited, h.told⟩
  | goOn k =>
    cases hc : s.calls[k]? with
    | none => rwa [step_goOn_none hc]
    | some c => exact h.goOn hc

theorem Held.run (h : s.Held) (steps : List Step) : (s.run steps).Held := by
  induction steps generalizing s with
  | nil => exact h
  | cons a steps ih => exact ih (h.step a)

/-- As long as nobody overtakes, only the end of the pump is told. -/
theorem OnlyOver.step (h : s.OnlyOver) (hh : s.Held) {a : Step} (hn : ¬ s.Overtaking a) :
    (s.step a).OnlyOver := by
  cases a with
  | pump o =>
    intro c hc hs
    have hover := h c hc hs
    rwa [(isOver_step hover (.pump o)).1]
  | callStop =>
    intro c hc hs
    rcases List.mem_append.1 hc with hc | hc
    · exact h c hc hs
    · rw [List.mem_singleton.1 hc] at hs
      cases hs
  | callIsFinished =>
    intro c hc hs
    rcases List.mem_append.1 hc with hc | hc
    · exact h c hc hs
    · rw [List.mem_singleton.1 hc] at hs
      cases hs
  | goOn k =>
    cases hk : s.calls[k]? with
    | none => rwa [step_goOn_none hk]
    | some c =>
      rw [step_goOn hk]
      intro d hd hs
      change s.pump.isOver = true
      rcases List.mem_or_eq_of_mem_set hd with hmem | rfl
      · exact h d hmem hs
      · rcases HandleCall.saysOver_step hs with hc | hover | ⟨hc, ht⟩
        · exact h c (List.mem_of_getElem? hk) hc
        · exact hover
        · by_contra hover
          rw [Bool.not_eq_true] at hover
          exact hn ⟨k, c, rfl, hk, hc, hh.waited ht hover, hover⟩

theorem Held.settled (h : s.Held) (hp : s.pump.phase = .done) : s.Settled := by
  obtain ⟨exits, _, _, ht⟩ := h.told
  simp only [Pump.ToldAfter, hp] at ht
  obtain ⟨x, before, hr, _, hs, _⟩ := ht
  exact ⟨hp, hr.worker, ⟨before, hs⟩, isOver_run (Pump.isOver_iff.2 (.inl hp))⟩

/-- Until somebody overtakes, only the end of the pump is told. -/
theorem OnlyOver.run (h : s.OnlyOver) (hh : s.Held) {steps : List Step}
    (hn : ¬ s.Overtakes steps) : (s.run steps).OnlyOver := by
  induction steps using List.reverseRecOn with
  | nil => exact h
  | append_singleton steps a ih =>
    rw [run_snoc]
    refine (ih ?_).step (hh.run steps) fun ho => hn ⟨steps, a, [], rfl, ho⟩
    rintro ⟨before, x, after, rfl, hx⟩
    exact hn ⟨before, x, after ++ [a], by simp, hx⟩

end steps

end SharedSession
end RigWarden
