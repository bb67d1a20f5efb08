import Mathlib.Data.List.Induction
import RigWarden.Peer.Connection
import RigWarden.Proofs.Session.Hosting

/-!
# Who answers for a session

The slot of a connection is taken while a start is under way and while a session runs for its peer.
A session that was started is in the slot, or with a task that stops it or lets go of it last, until
it is over. Each step of a connection keeps this, unless it loses a start to a deadline beyond the
clock: then nobody gives the slot back.
-/

namespace RigWarden.Peer

namespace Slot

theorem finished_cases (slot : Slot) (s : Nat) :
    slot = active s ∧ slot.finished s = empty ∨ slot ≠ active s ∧ slot.finished s = slot := by
  by_cases h : slot = active s
  · exact .inl ⟨h, by rw [h, finished_active]⟩
  · exact .inr ⟨h, finished_of_ne h⟩

theorem started_none (slot : Slot) : (slot.started none).2 = empty := by cases slot <;> rfl

/-- A start that succeeds is taken over by a slot that waits for it, and by no other. -/
theorem started_cases {slot : Slot} (h : slot.isPending = true) (s : Nat) :
    slot = starting ∧ slot.started (some s) = (none, active s) ∨
    slot = cancelled ∧ slot.started (some s) = (some s, empty) := by
  cases slot <;> simp_all [isPending, started]

theorem release_cases (slot : Slot) :
    (∃ s, slot = active s ∧ slot.release = (some s, empty)) ∨
    slot = empty ∧ slot.release = (none, empty) ∨
    slot.isPending = true ∧ slot.release = (none, cancelled) := by
  cases slot <;> simp [release, isPending]

end Slot

namespace Connection

/-- The slot or a task has the handle of a session. -/
def Holds (c : Connection) (s : Nat) : Prop :=
  c.slot = .active s ∨ ∃ t ∈ c.tasks, t.session? = some s

/-- The reader takes no more messages, and has given the slot up. -/
def hasLeft (c : Connection) : Bool :=
  match c.reader with
  | .awaiting _ => true
  | .closed => true
  | _ => false

/-- A step in which a start ends neither with a session nor with an error. -/
def Loses (m : Machine) (c : Connection) (a : Step) : Prop :=
  ∃ k env profile b, a = .task k env ∧ c.tasks[k]? = some (.starting profile b) ∧
    (c.host.start m env profile b).1 = .error .overflow

def LosesStart (m : Machine) (defaults : Defaults) (c : Connection) (steps : List Step) : Prop :=
  ∃ before a after, steps = before ++ a :: after ∧ Loses m (run m defaults c before) a

/-- What every step keeps, for the sessions from `base` on. -/
structure Managed (base : Nat) (c : Connection) : Prop where
  starters : c.tasks.countP Task.isStarter = if c.slot.isPending then 1 else 0
  known : ∀ s, c.Holds s → s < c.host.sessions.length
  held : ∀ s, base ≤ s → s < c.host.sessions.length → c.Holds s ∨ c.host.isFinished s = true
  confirmed : ∀ s, .confirming s ∈ c.tasks → c.host.isFinished s = true
  left : c.hasLeft = true → c.slot = .empty ∨ c.slot = .cancelled

section steps

variable {base : Nat} {c d : Connection} {k s : Nat} {t u : Task}

theorem mem_set_or_eq {l : List Task} (ht : l[k]? = some t) {v : Task} (hv : v ∈ l) :
    v = t ∨ v ∈ l.set k u := by
  obtain ⟨j, hj⟩ := List.mem_iff_getElem?.1 hv
  by_cases hjk : k = j
  · subst hjk
    exact .inl (Option.some.inj (hj.symm.trans ht))
  · exact .inr (List.mem_iff_getElem?.2 ⟨j, by rw [List.getElem?_set_ne hjk, hj]⟩)

theorem mem_set_self {l : List Task} (ht : l[k]? = some t) : u ∈ l.set k u :=
  List.mem_iff_getElem?.2 ⟨k, by simp [(List.getElem?_eq_some_iff.1 ht).1]⟩

theorem countP_set (p : Task → Bool) {l : List Task} (ht : l[k]? = some t) :
    (l.set k u).countP p + (if p t then 1 else 0) = l.countP p + (if p u then 1 else 0) := by
  obtain ⟨hk, hl⟩ := List.getElem?_eq_some_iff.1 ht
  have hpos : (if p t then 1 else 0) ≤ l.countP p := by
    split
    · exact List.countP_pos_iff.2 ⟨t, List.mem_of_getElem? ht, ‹_›⟩
    · exact Nat.zero_le _
  rw [List.countP_set hk, hl]
  omega

theorem Holds.of_task (h : t ∈ c.tasks) (hs : t.session? = some s) : c.Holds s := .inr ⟨t, h, hs⟩

/-- A task goes on as another one. It may take what the slot held, give its session to the slot, or
let go of a session that others hold or that is over. -/
theorem Managed.replace (h : c.Managed base) (ht : c.tasks[k]? = some t)
    (htasks : d.tasks = c.tasks.set k u) (hreader : d.hasLeft = c.hasLeft)
    (hhost : c.host.Continues d.host)
    (hnew : ∀ s, c.host.sessions.length ≤ s → s < d.host.sessions.length → u.session? = some s)
    (hstarter : u.isStarter = t.isStarter ∧ d.slot.isPending = c.slot.isPending ∨
      t.isStarter = true ∧ u.isStarter = false ∧ d.slot.isPending = false)
    (hsource : ∀ s, d.slot = .active s ∨ u.session? = some s →
      c.Holds s ∨ s < d.host.sessions.length)
    (hslot : ∀ s, c.slot = .active s → d.slot = .active s ∨ u.session? = some s)
    (htask : ∀ s, t.session? = some s → u.session? = some s ∨ d.Holds s ∨
      d.host.isFinished s = true)
    (hconfirmed : ∀ s, u = .confirming s → d.host.isFinished s = true)
    (hleft : c.hasLeft = true → d.slot = .empty ∨ d.slot = .cancelled) : d.Managed base := by
  have hu : u ∈ d.tasks := htasks ▸ mem_set_self ht
  refine ⟨?_, fun s hs => ?_, fun s hb hs => ?_, fun s hs => ?_, fun hl => hleft (hreader ▸ hl)⟩
  · have hcount := countP_set Task.isStarter (u := u) ht
    rw [h.starters] at hcount
    rw [htasks]
    rcases hstarter with ⟨hst, hp⟩ | ⟨hst, hsu, hp⟩
    · rw [hst] at hcount
      rw [hp]
      exact Nat.add_right_cancel hcount
    · simp only [hst, hsu, if_true, Bool.false_eq_true, if_false] at hcount
      rw [hp]
      split at hcount
      · simpa using hcount
      · omega
  · have hold : c.Holds s ∨ s < d.host.sessions.length := by
      rcases hs with hs | ⟨v, hv, hvs⟩
      · exact hsource s (.inl hs)
      · rw [htasks] at hv
        rcases List.mem_or_eq_of_mem_set hv with hmem | rfl
        · exact .inl (.of_task hmem hvs)
        · exact hsource s (.inr hvs)
    rcases hold with hc | hlt
    · exact Nat.lt_of_lt_of_le (h.known s hc) hhost.length_le
    · exact hlt
  · rcases Nat.lt_or_ge s c.host.sessions.length with hlt | hge
    · rcases h.held s hb hlt with (hc | ⟨v, hv, hvs⟩) | hf
      · rcases hslot s hc with hd | hus
        · exact .inl (.inl hd)
        · exact .inl (.of_task hu hus)
      · rcases mem_set_or_eq (u := u) ht hv with rfl | hmem
        · rcases htask s hvs with hus | hd | hf
          · exact .inl (.of_task hu hus)
          · exact .inl hd
          · exact .inr hf
        · exact .inl (.of_task (htasks ▸ hmem) hvs)
      · exact .inr (hhost.finished s hlt hf)
    · exact .inl (.of_task hu (hnew s hge hs))
  · rw [htasks] at hs
    rcases List.mem_or_eq_of_mem_set hs with hmem | heq
    · exact hhost.finished s (h.known s (.of_task hmem rfl)) (h.confirmed s hmem)
    · exact hconfirmed s heq.symm

/-- A task goes on with what it has. -/
theorem Managed.goOn (h : c.Managed base) (ht : c.tasks[k]? = some t)
    (htasks : d.tasks = c.tasks.set k u) (hreader : d.hasLeft = c.hasLeft) (hslot : d.slot = c.slot)
    (hhost : c.host.Continues d.host)
    (hlength : d.host.sessions.length = c.host.sessions.length)
    (hsession : u.session? = t.session?) (hstarter : u.isStarter = t.isStarter)
    (hconfirmed : ∀ s, u = .confirming s → d.host.isFinished s = true) : d.Managed base := by
  refine h.replace ht htasks hreader hhost (fun s hge hlt => ?_) (.inl ⟨hstarter, hslot ▸ rfl⟩)
    (fun s hs => .inl ?_) (fun s hs => .inl (hslot ▸ hs)) (fun s hs => .inl (hsession ▸ hs))
    hconfirmed (fun hl => hslot ▸ h.left hl)
  · omega
  · rcases hs with hs | hs
    · exact .inl (hslot ▸ hs)
    · exact .of_task (List.mem_of_getElem? ht) (hsession ▸ hs)

/-- A task ends. Others have its session, or the session is over. -/
theorem Managed.letGo (h : c.Managed base) (ht : c.tasks[k]? = some t)
    (htasks : d.tasks = c.tasks.set k .ended) (hreader : d.hasLeft = c.hasLeft)
    (hslot : d.slot = c.slot) (hhost : d.host = c.host) (hstarter : t.isStarter = false)
    (hgone : ∀ s, t.session? = some s → d.Holds s ∨ c.host.isFinished s = true) :
    d.Managed base := by
  refine h.replace ht htasks hreader (.of_sessions_eq (by rw [hhost])) (fun s hge hlt => ?_)
    (.inl ⟨hstarter.symm, hslot ▸ rfl⟩) (fun s hs => .inl ?_) (fun s hs => .inl (hslot ▸ hs))
    (fun s hs => .inr (hhost ▸ hgone s hs)) nofun (fun hl => hslot ▸ h.left hl)
  · rw [hhost] at hlt
    omega
  · rcases hs with hs | hs
    · exact .inl (hslot ▸ hs)
    · cases hs

/-- The slot and the tasks have not moved. -/
theorem Managed.turn (h : c.Managed base) (htasks : d.tasks = c.tasks) (hslot : d.slot = c.slot)
    (hhost : c.host.Continues d.host)
    (hlength : d.host.sessions.length = c.host.sessions.length)
    (hleft : d.hasLeft = true → c.hasLeft = true ∨ c.slot = .empty ∨ c.slot = .cancelled) :
    d.Managed base := by
  have hholds : ∀ s, d.Holds s ↔ c.Holds s := fun s => by rw [Holds, Holds, htasks, hslot]
  refine ⟨?_, fun s hs => ?_, fun s hb hs => ?_, fun s hs => ?_, fun hl => ?_⟩
  · rw [htasks, hslot, h.starters]
  · rw [hlength]
    exact h.known s ((hholds s).1 hs)
  · rw [hlength] at hs
    rw [hholds]
    exact (h.held s hb hs).imp_right (hhost.finished s hs)
  · rw [htasks] at hs
    have hlt := h.known s (.of_task hs rfl)
    exact hhost.finished s hlt (h.confirmed s hs)
  · rw [hslot]
    exact (hleft hl).elim h.left id

theorem send_cases {P : Connection → Prop} {r : Reply} {sent lost : Connection → Connection}
    (hs : P (sent { c with queue := c.queue ++ [r] })) (hl : P (lost c)) (hc : P c) :
    P (c.send r sent lost) := by
  unfold send
  split_ifs
  · exact hl
  · exact hs
  · exact hc

theorem Managed.isPending (h : c.Managed base) (ht : c.tasks[k]? = some t)
    (hs : t.isStarter = true) : c.slot.isPending = true := by
  by_contra hp
  have hcount := h.starters
  rw [if_neg hp, List.countP_eq_zero] at hcount
  exact hcount t (List.mem_of_getElem? ht) hs

theorem Managed.starting {profile : Profile} {b : Backend} (h : c.Managed base)
    (ht : c.tasks[k]? = some (.starting profile b)) {m : Machine} {env : ProvisionEnv}
    (hends : (c.host.start m env profile b).1 ≠ .error .overflow) :
    (c.start m env k profile b).Managed base := by
  rcases c.host.start_cases m env profile b with ⟨s, after, he, hs⟩ | ⟨halt, after, he, hs⟩
  · have hlength : after.sessions.length = c.host.sessions.length + 1 := by simp [hs]
    have hc : c.start m env k profile b =
        { c with host := after }.setTask k (.obtained c.host.sessions.length b) := by
      simp only [start, he]
    rw [hc]
    refine h.replace ht rfl rfl ⟨?_, fun i hi hf => ?_⟩ (fun s hge hlt => ?_) (.inl ⟨rfl, rfl⟩)
      (fun s hs => ?_) (fun s hs => .inl hs) (fun s hs => by cases hs) (fun s hs => by cases hs)
      h.left
    · exact hlength ▸ Nat.le_succ _
    · change after.isFinished i = true
      rwa [Host.isFinished, hs, List.getElem?_append_left hi]
    · change s < after.sessions.length at hlt
      exact congrArg some (by omega)
    · rcases hs with hs | hs
      · exact .inl (.inl hs)
      · cases hs
        exact .inr (hlength ▸ Nat.lt_succ_self _)
  · cases halt with
    | overflow => exact absurd (congrArg Prod.fst he) hends
    | error e =>
      have hc : c.start m env k profile b = { c with host := after }.setTask k (.failed e) := by
        simp only [start, he]
      rw [hc]
      exact h.goOn ht rfl rfl rfl (.of_sessions_eq hs) (congrArg List.length hs) rfl rfl
        fun s hs => by cases hs

/-- The slot learns what has become of the start it waits for. -/
theorem Managed.settle (h : c.Managed base) (ht : c.tasks[k]? = some t)
    (htasks : d.tasks = c.tasks.set k u) (hreader : d.hasLeft = c.hasLeft) (hhost : d.host = c.host)
    (hst : t.isStarter = true) (hsu : u.isStarter = false) (hp : d.slot.isPending = false)
    (hsource : ∀ s, d.slot = .active s ∨ u.session? = some s → t.session? = some s)
    (htask : ∀ s, t.session? = some s → u.session? = some s) (hconfirmed : ∀ s, u ≠ .confirming s)
    (hleft : c.hasLeft = true → d.slot = .empty) : d.Managed base := by
  refine h.replace ht htasks hreader (.of_sessions_eq (by rw [hhost])) (fun s hge hlt => ?_)
    (.inr ⟨hst, hsu, hp⟩) (fun s hs => .inl (.of_task (List.mem_of_getElem? ht) (hsource s hs)))
    (fun s hs => ?_) (fun s hs => .inl (htask s hs)) (fun s hs => absurd hs (hconfirmed s))
    (fun hl => .inl (hleft hl))
  · rw [hhost] at hlt
    omega
  · have hpending := h.isPending ht hst
    rw [hs] at hpending
    cases hpending

theorem Managed.failed {e : Error} (h : c.Managed base) (ht : c.tasks[k]? = some (.failed e)) :
    ({ c with slot := (c.slot.started none).2 }.setTask k (.reporting e)).Managed base := by
  rw [Slot.started_none]
  refine h.settle ht rfl rfl rfl rfl rfl rfl (fun s hs => ?_) nofun nofun (fun _ => rfl)
  rcases hs with hs | hs <;> cases hs

theorem Managed.takeEvent (h : c.Managed base) (ht : c.tasks[k]? = some (.forwarding s)) :
    (c.takeEvent k s).Managed base := by
  unfold Connection.takeEvent
  split
  · exact h.goOn ht rfl rfl rfl (.of_sessions_eq rfl) rfl rfl rfl nofun
  · next session hs =>
    have hhost := Host.continues_setChannel hs session.channel.receive.2
    have hlength := c.host.length_setSession s { session with channel := session.channel.receive.2 }
    simp only
    split
    · exact h.goOn ht rfl rfl rfl hhost hlength rfl rfl nofun
    · exact h.turn rfl rfl hhost hlength .inl
    · exact h.goOn ht rfl rfl rfl hhost hlength rfl rfl nofun

theorem Managed.releasing (h : c.Managed base) (ht : c.tasks[k]? = some (.releasing s)) :
    ({ c with slot := c.slot.finished s }.setTask k (.dropping s)).Managed base := by
  rcases c.slot.finished_cases s with ⟨hs, hf⟩ | ⟨hs, hf⟩
  · rw [hf]
    refine h.replace ht rfl rfl (.of_sessions_eq rfl) (fun i hge hlt => ?_)
      (.inl ⟨rfl, by rw [hs]; rfl⟩) (fun i hi => .inl ?_) (fun i hi => ?_) (fun i hi => .inl hi)
      nofun (fun _ => .inl rfl)
    · exact absurd hlt (Nat.not_lt.2 hge)
    · rcases hi with hi | hi <;> cases hi
      exact .inl hs
    · rw [hs] at hi
      cases hi
      exact .inr rfl
  · rw [hf]
    exact h.goOn ht rfl rfl rfl (.of_sessions_eq rfl) rfl rfl rfl nofun

theorem holds_of_isHeldElsewhere (h : c.isHeldElsewhere k s = true) :
    (c.setTask k .ended).Holds s := by
  simp only [isHeldElsewhere, Bool.or_eq_true, decide_eq_true_eq, List.any_eq_true] at h
  rcases h with h | ⟨t, ht, hs⟩
  · exact .inl h
  · obtain ⟨i, hik, hi⟩ := List.mem_eraseIdx_iff_getElem?.1 ht
    exact .of_task (List.mem_iff_getElem?.2 ⟨i, by rwa [setTask, List.getElem?_set_ne hik.symm]⟩) hs

theorem Managed.taskStep (h : c.Managed base) {m : Machine} {env : ProvisionEnv}
    (hn : ¬ Loses m c (.task k env)) : (c.taskStep m env k).Managed base := by
  cases ht : c.tasks[k]? with
  | none => simpa only [Connection.taskStep, ht] using h
  | some t =>
    simp only [Connection.taskStep, ht]
    cases t with
    | starting profile b => exact h.starting ht fun he => hn ⟨k, env, profile, b, rfl, ht, he⟩
    | failed e => exact h.failed ht
    | reporting e =>
      exact send_cases (h.letGo ht rfl rfl rfl rfl rfl nofun) (h.letGo ht rfl rfl rfl rfl rfl nofun) h
    | obtained s b =>
      have hp := h.isPending ht rfl
      rcases Slot.started_cases hp s with ⟨hs, hst⟩ | ⟨hs, hst⟩
      · simp only [hst]
        refine h.settle ht rfl rfl rfl rfl rfl rfl (fun i hi => ?_) (fun i hi => hi) nofun
          (fun hl => ?_)
        · rcases hi with hi | hi <;> cases hi <;> rfl
        · rcases h.left hl with hl | hl <;> rw [hs] at hl <;> cases hl
      · simp only [hst]
        refine h.settle ht rfl rfl rfl rfl rfl rfl (fun i hi => ?_) (fun i hi => hi) nofun
          (fun _ => rfl)
        rcases hi with hi | hi <;> cases hi
        rfl
    | abandoning s =>
      exact h.goOn ht rfl rfl rfl (c.host.continues_askStop s) (c.host.length_askStop s) rfl rfl nofun
    | awaitingAbandoned s =>
      simp only
      split
      · next hf =>
        refine h.goOn ht rfl rfl rfl (.of_sessions_eq rfl) rfl rfl rfl fun i hi => ?_
        cases hi
        exact hf
      · exact h
    | confirming s =>
      have hgone : ∀ i, (Task.confirming s).session? = some i →
          c.host.isFinished i = true := fun i hi => by
        cases hi
        exact h.confirmed s (List.mem_of_getElem? ht)
      exact send_cases (h.letGo ht rfl rfl rfl rfl rfl fun i hi => .inr (hgone i hi))
        (h.letGo ht rfl rfl rfl rfl rfl fun i hi => .inr (hgone i hi)) h
    | announcing s b =>
      exact send_cases (h.goOn ht rfl rfl rfl (.of_sessions_eq rfl) rfl rfl rfl nofun)
        (h.goOn ht rfl rfl rfl (.of_sessions_eq rfl) rfl rfl rfl nofun) h
    | forwarding s => exact h.takeEvent ht
    | relaying s e =>
      refine send_cases ?_ (h.goOn ht rfl rfl rfl (.of_sessions_eq rfl) rfl rfl rfl nofun) h
      split <;> exact h.goOn ht rfl rfl rfl (.of_sessions_eq rfl) rfl rfl rfl nofun
    | releasing s => exact h.releasing ht
    | dropping s =>
      simp only
      split
      · next hheld =>
        refine h.letGo ht rfl rfl rfl rfl rfl fun i hi => .inl ?_
        cases hi
        exact holds_of_isHeldElsewhere hheld
      · exact h.goOn ht rfl rfl rfl (.of_sessions_eq rfl) rfl rfl rfl nofun
    | stopping s =>
      exact h.goOn ht rfl rfl rfl (c.host.continues_askStop s) (c.host.length_askStop s) rfl rfl nofun
    | awaiting s =>
      simp only
      split
      · next hf =>
        refine h.letGo ht rfl rfl rfl rfl rfl fun i hi => .inr ?_
        cases hi
        exact hf
      · exact h
    | ended => exact h

/-- A task begins. It takes what the slot gives up, or the slot waits for it. -/
theorem Managed.spawn (h : c.Managed base) (htasks : d.tasks = c.tasks ++ [u])
    (hhost : d.host = c.host)
    (hstarter : c.slot.isPending = false ∧ u.isStarter = d.slot.isPending)
    (hsource : ∀ s, d.slot ≠ .active s ∧ (u.session? = some s → c.slot = .active s))
    (hslot : ∀ s, c.slot = .active s → u.session? = some s) (hconfirmed : ∀ s, u ≠ .confirming s)
    (hleft : d.hasLeft = true → d.slot = .empty) : d.Managed base := by
  have hu : u ∈ d.tasks := by simp [htasks]
  refine ⟨?_, fun s hs => ?_, fun s hb hs => ?_, fun s hs => ?_, fun hl => .inl (hleft hl)⟩
  · rw [htasks, List.countP_append, h.starters, hstarter.1, ← hstarter.2]
    simp [List.countP_singleton]
  · rw [hhost]
    rcases hs with hs | ⟨v, hv, hvs⟩
    · exact absurd hs (hsource s).1
    · rw [htasks, List.mem_append, List.mem_singleton] at hv
      rcases hv with hv | rfl
      · exact h.known s (.of_task hv hvs)
      · exact h.known s (.inl ((hsource s).2 hvs))
  · rw [hhost] at hs ⊢
    rcases h.held s hb hs with (hc | ⟨v, hv, hvs⟩) | hf
    · exact .inl (.of_task hu (hslot s hc))
    · exact .inl (.of_task (htasks ▸ List.mem_append_left _ hv) hvs)
    · exact .inr hf
  · rw [htasks, List.mem_append, List.mem_singleton] at hs
    rw [hhost]
    rcases hs with hs | rfl
    · exact h.confirmed s hs
    · exact absurd rfl (hconfirmed s)

/-- The slot gives its session up to a task that stops it. -/
theorem Managed.giveUp (h : c.Managed base) (hs : c.slot = .active s)
    (htasks : d.tasks = c.tasks ++ [.stopping s]) (hslot : d.slot = .empty)
    (hhost : d.host = c.host) : d.Managed base := by
  refine h.spawn htasks hhost ⟨by rw [hs]; rfl, by rw [hslot]; rfl⟩ (fun i => ⟨?_, fun hi => ?_⟩)
    (fun i hi => ?_) nofun (fun _ => hslot)
  · rw [hslot]
    nofun
  · cases hi
    exact hs
  · rw [hs] at hi
    cases hi
    rfl

theorem Managed.cancel (h : c.Managed base) (hp : c.slot.isPending = true)
    (htasks : d.tasks = c.tasks) (hslot : d.slot = .cancelled) (hhost : d.host = c.host) :
    d.Managed base := by
  have hholds : ∀ s, d.Holds s ↔ c.Holds s := fun s => by
    rw [Holds, Holds, htasks, hslot]
    refine or_congr_left ⟨nofun, fun hs => ?_⟩
    rw [hs] at hp
    cases hp
  refine ⟨?_, fun s hs => ?_, fun s hb hs => ?_, fun s hs => ?_, fun _ => .inr hslot⟩
  · rw [htasks, hslot, h.starters, if_pos hp]
    rfl
  · rw [hhost]
    exact h.known s ((hholds s).1 hs)
  · rw [hhost] at hs ⊢
    rw [hholds]
    exact h.held s hb hs
  · rw [hhost]
    exact h.confirmed s (htasks ▸ hs)

theorem Managed.takeRequest (h : c.Managed base) (hr : c.hasLeft = false) (defaults : Defaults)
    (r : Option Request) : (c.takeRequest defaults r).Managed base := by
  unfold Connection.takeRequest
  split
  · split
    · exact h.turn rfl rfl (.of_sessions_eq rfl) rfl nofun
    · next hslot =>
      obtain ⟨hs, rfl⟩ := Slot.reserve?_eq_some_iff.1 hslot
      refine h.spawn rfl rfl ⟨by rw [hs]; rfl, rfl⟩ (fun i => ⟨nofun, nofun⟩) (fun i hi => ?_) nofun
        (fun hl => ?_)
      · rw [hs] at hi
        cases hi
      · exact absurd (hr.symm.trans hl) nofun
  · rcases c.slot.release_cases with ⟨s, hs, hrel⟩ | ⟨hs, hrel⟩ | ⟨hs, hrel⟩ <;> simp only [hrel]
    · exact h.giveUp hs rfl rfl rfl
    · exact h.turn rfl hs.symm (.of_sessions_eq rfl) rfl .inl
    · exact h.cancel hs rfl rfl rfl
  · exact h.turn rfl rfl (.of_sessions_eq rfl) rfl nofun
  · exact h.turn rfl rfl (.of_sessions_eq rfl) rfl nofun

theorem Managed.readerStep (h : c.Managed base) : c.readerStep.Managed base := by
  unfold Connection.readerStep
  split
  · exact send_cases (h.turn rfl rfl (.of_sessions_eq rfl) rfl nofun)
      (h.turn rfl rfl (.of_sessions_eq rfl) rfl nofun) h
  · rcases c.slot.release_cases with ⟨s, hs, hrel⟩ | ⟨hs, hrel⟩ | ⟨hs, hrel⟩ <;> simp only [hrel]
    · exact h.giveUp hs rfl rfl rfl
    · exact h.turn rfl hs.symm (.of_sessions_eq rfl) rfl fun _ => .inr (.inl hs)
    · exact h.cancel hs rfl rfl rfl
  · next k hr =>
    split
    · exact h.turn rfl rfl (.of_sessions_eq rfl) rfl fun _ => .inl (by simp [hasLeft, hr])
    · exact h
  · exact h

theorem Managed.step (h : c.Managed base) {m : Machine} {defaults : Defaults} {a : Step}
    (hn : ¬ Loses m c a) : (step m defaults c a).Managed base := by
  cases a with
  | message text =>
    simp only [Connection.step, takeMessage]
    split
    · next hr => exact h.takeRequest (by simp [hasLeft, hr]) defaults _
    · exact h
  | disconnect =>
    simp only [Connection.step, disconnect]
    split
    · exact h.turn rfl rfl (.of_sessions_eq rfl) rfl nofun
    · exact h
  | reader => exact h.readerStep
  | task k env => exact h.taskStep hn
  | deliver =>
    simp only [Connection.step]
    split
    · exact h
    · exact h.turn rfl rfl (.of_sessions_eq rfl) rfl .inl
  | unreachable => exact h.turn rfl rfl (.of_sessions_eq rfl) rfl .inl
  | pump s now clock =>
    exact h.turn rfl rfl (c.host.continues_pumpStep m now clock s)
      (c.host.length_pumpStep m now clock s) .inl
  | worker w => exact h.turn rfl rfl (.of_sessions_eq rfl) rfl .inl

theorem not_loses_of_not_losesStart {m : Machine} {defaults : Defaults} {a : Step}
    {steps : List Step} (hn : ¬ LosesStart m defaults c (a :: steps)) : ¬ Loses m c a :=
  fun ha => hn ⟨[], a, steps, rfl, ha⟩

theorem not_losesStart_step {m : Machine} {defaults : Defaults} {a : Step} {steps : List Step}
    (hn : ¬ LosesStart m defaults c (a :: steps)) :
    ¬ LosesStart m defaults (step m defaults c a) steps := by
  rintro ⟨before, b, after, rfl, hb⟩
  exact hn ⟨a :: before, b, after, rfl, hb⟩

/-- No start is lost if every deadline can be shown by the clock. -/
theorem not_losesStart {m : Machine} {defaults : Defaults} {steps : List Step}
    (h : ∀ k env, .task k env ∈ steps → env.now.add? env.timeout ≠ none) :
    ¬ LosesStart m defaults c steps := by
  rintro ⟨before, _, after, rfl, k, env, profile, b, rfl, -, ho⟩
  exact Host.start_ne_overflow (h k env (by simp)) m _ profile b ho

/-- If the step starts a session, the clock can show its deadline. -/
def Step.isTimely : Step → Bool
  | .task _ env => (env.now.add? env.timeout).isSome
  | _ => true

theorem not_losesStart_of_isTimely {m : Machine} {defaults : Defaults} {steps : List Step}
    (h : steps.all Step.isTimely = true) : ¬ LosesStart m defaults c steps := by
  refine not_losesStart fun k env hmem => ?_
  exact Option.isSome_iff_ne_none.1 (List.all_eq_true.1 h _ hmem)

theorem Managed.run (h : c.Managed base) {m : Machine} {defaults : Defaults} {steps : List Step}
    (hn : ¬ LosesStart m defaults c steps) : (run m defaults c steps).Managed base := by
  induction steps generalizing c with
  | nil => exact h
  | cons a steps ih =>
    rw [run_cons]
    exact ih (h.step (not_loses_of_not_losesStart hn)) (not_losesStart_step hn)

theorem managed_accept (host : Host) (version : String) :
    (accept host version).Managed host.sessions.length := by
  refine ⟨rfl, fun s hs => ?_, fun s hb hs => absurd hs (Nat.not_lt.2 hb), nofun, nofun⟩
  rcases hs with hs | ⟨t, ht, -⟩
  · cases hs
  · cases ht

/-- A task changes the slot when it reports the outcome of a start, or when the session that it
passed on has ended. -/
theorem slot_taskStep (ht : c.tasks[k]? = some t) (m : Machine) (env : ProvisionEnv) :
    (c.taskStep m env k).slot = c.slot ∨ t.isStarter = true ∨
      ∃ s, t = .releasing s ∧ (c.taskStep m env k).slot = c.slot.finished s := by
  simp only [taskStep, ht]
  cases t with
  | starting | failed | obtained => exact .inr (.inl rfl)
  | reporting | confirming | announcing | relaying =>
    exact .inl (send_cases (P := fun d => d.slot = c.slot) rfl rfl rfl)
  | forwarding s =>
    refine .inl ?_
    simp only [takeEvent]
    split
    · rfl
    · split <;> rfl
  | releasing s => exact .inr (.inr ⟨s, rfl, rfl⟩)
  | awaitingAbandoned | awaiting =>
    refine .inl ?_
    simp only
    split <;> rfl
  | abandoning | dropping | stopping | ended => exact .inl rfl

end steps

/-- Every session of a connection is accounted for, and so is its slot. -/
structure Accounted (base : Nat) (c : Connection) : Prop where
  one_starter : c.tasks.countP Task.isStarter ≤ 1
  pending_iff : c.slot = .starting ∨ c.slot = .cancelled ↔ ∃ t ∈ c.tasks, t.isStarter = true
  held : ∀ s, base ≤ s → s < c.host.sessions.length →
    c.slot = .active s ∨ (∃ t ∈ c.tasks, t.session? = some s) ∨ c.host.isFinished s = true
  /-- A task takes a session out of the slot only if it has passed on the events of that one. -/
  own : ∀ m defaults k env s, c.slot = .active s →
    (step m defaults c (.task k env)).slot ≠ .active s → c.tasks[k]? = some (.releasing s)
  isOver : c.isOver = true → c.slot = .empty ∧
    ∀ s, base ≤ s → s < c.host.sessions.length → c.host.isFinished s = true

theorem Managed.own {base : Nat} {c : Connection} (h : c.Managed base) {m : Machine}
    {defaults : Defaults} {k : Nat} {env : ProvisionEnv} {s : Nat} (hs : c.slot = .active s)
    (hd : (Connection.step m defaults c (.task k env)).slot ≠ .active s) :
    c.tasks[k]? = some (.releasing s) := by
  cases ht : c.tasks[k]? with
  | none => exact absurd (by simpa only [Connection.step, Connection.taskStep, ht] using hs) hd
  | some t =>
    rcases slot_taskStep ht m env with he | hst | ⟨i, rfl, he⟩
    · exact absurd (he.trans hs) hd
    · have hp := h.isPending ht hst
      rw [hs] at hp
      cases hp
    · rcases c.slot.finished_cases i with ⟨hi, -⟩ | ⟨-, hf⟩
      · rw [hi] at hs
        cases hs
        rfl
      · exact absurd ((he.trans hf).trans hs) hd

theorem Managed.over {base : Nat} {c : Connection} (h : c.Managed base) (ho : c.isOver = true) :
    c.slot = .empty ∧
      ∀ s, base ≤ s → s < c.host.sessions.length → c.host.isFinished s = true := by
  obtain ⟨hr, hall⟩ := Bool.and_eq_true_iff.1 ho
  have hended : ∀ t ∈ c.tasks, t = .ended := fun t ht => by
    have he := List.all_eq_true.1 hall t ht
    cases t <;> first | rfl | cases he
  have hempty : c.slot = .empty := by
    refine (h.left ?_).resolve_right fun hc => ?_
    · unfold hasLeft
      split at hr <;> simp_all
    · have hcount := h.starters
      rw [hc, List.countP_eq_zero.2 fun t ht => by simp [hended t ht, Task.isStarter]] at hcount
      cases hcount
  refine ⟨hempty, fun s hb hs => (h.held s hb hs).resolve_left ?_⟩
  rintro (hc | ⟨t, ht, hts⟩)
  · rw [hempty] at hc
    cases hc
  · rw [hended t ht] at hts
    cases hts

/-- If every start of a run ends with a session or an error, the slot waits exactly while one start
is under way, every session is in the slot, with a task that still has it, or over, no task takes
another one's session out of the slot, and nothing is left behind when the connection is over. -/
theorem accounted_run (m : Machine) (defaults : Defaults) (host : Host) (version : String)
    (steps : List Step) (hends : ¬ LosesStart m defaults (accept host version) steps) :
    (run m defaults (accept host version) steps).Accounted host.sessions.length := by
  have h := (managed_accept host version).run hends
  have hcount := h.starters
  refine ⟨?_, ?_, fun s hb hs => ?_, fun _ _ _ _ _ => h.own, h.over⟩
  · rw [hcount]
    split <;> simp
  · rw [← List.countP_pos_iff, hcount]
    cases (run m defaults (accept host version) steps).slot <;> simp [Slot.isPending]
  · rcases h.held s hb hs with (hc | ht) | hf
    · exact .inl hc
    · exact .inr (.inl ht)
    · exact .inr (.inr hf)

/-! A connection whose sessions fail at once -/

/-- No program can be executed here. -/
def bareMachine : Machine where
  processors := 1
  execute := fun _ _ _ => .error .notFound
  simulate := fun _ _ => ⟨[], some []⟩

/-- The log of a session cannot be opened, so no session gets beyond its launch. -/
def bareHost : Host := .new { installRoot := "/", logFile := some "" } {}

def simulating : Defaults := ⟨.simulated, .new "p:1" "w" "w"⟩

def noFetch : ProvisionEnv where
  fetch := fun _ _ => ⟨.error .cancelled, false⟩
  now := ⟨0, 0⟩
  timeout := .zero
  looks := fun _ => ⟨⟨0, 0⟩, false⟩

def askStart : Step := .message "[\"start_session\",null,null,null,null,null,null,null]"

def askEnd : Step := .message "[\"stop_session\"]"

def look (s : Nat) : Step := .pump s ⟨0, 0⟩ ⟨0, 0⟩

/-- The peer asks for an end while the start is under way, and leaves. -/
def cancelledStart : List Step :=
  [askStart, .task 0 noFetch, askEnd, .task 0 noFetch, .task 0 noFetch] ++
    List.replicate 5 (look 0) ++ [.task 0 noFetch, .task 0 noFetch, .disconnect, .reader]

theorem accounted_cancelledStart :
    (run bareMachine simulating (accept bareHost "1") cancelledStart).isOver = true ∧
      (run bareMachine simulating (accept bareHost "1") cancelledStart).host.sessions.length = 1 ∧
      (run bareMachine simulating (accept bareHost "1") cancelledStart).Accounted 0 := by
  have hover : (run bareMachine simulating (accept bareHost "1") cancelledStart).isOver = true ∧
      (run bareMachine simulating (accept bareHost "1") cancelledStart).host.sessions.length = 1 := by
    decide +kernel
  refine ⟨hover.1, hover.2, accounted_run bareMachine simulating bareHost "1" cancelledStart ?_⟩
  refine not_losesStart fun k env h => ?_
  obtain ⟨-, rfl⟩ : k = 0 ∧ env = noFetch := by
    simpa [cancelledStart, askStart, askEnd, look] using h
  decide

end Connection
end RigWarden.Peer
