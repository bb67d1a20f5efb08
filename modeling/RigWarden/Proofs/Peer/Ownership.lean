import RigWarden.Proofs.Peer.Attribution
import RigWarden.Proofs.Peer.Chronicle

/-!
# The task of a session

Every session of a connection was started by one task, and only that task ever says anything about
it or takes events from its channel. A session in the slot has a task that serves it. After it has
reported a session as stopped, a task has nothing left to say and is about to give the slot back.
-/

namespace RigWarden.Peer

/-- The task passes on the events of a session, or is about to give its slot back. -/
def Task.serves? : Task → Option Nat
  | announcing s _ => some s
  | forwarding s => some s
  | relaying s _ => some s
  | releasing s => some s
  | _ => none

/-- The reader has put the entry down. -/
def Entry.isOfReader : Entry → Bool
  | due _ => true
  | admitted _ => true
  | asked => true
  | replied _ => true
  | _ => false

/-- The entry tells of a session that was started, or of something that a task has said. -/
def Entry.tellsOfTask : Entry → Bool
  | came _ (.ok _) => true
  | said _ _ => true
  | _ => false

namespace Task

variable {t : Task} {r : Report} {s : Nat}

theorem session?_of_report? (hr : t.report? = some r) (hs : r.session = some s) :
    t.mayReport = true ∧ t.session? = some s := by
  cases t <;> cases hr <;> first | exact ⟨rfl, hs⟩ | cases hs

theorem reported_mayReport (sent : Bool) (hr : t.report? = some r)
    (h : (t.reported sent).mayReport = true) :
    t.mayReport = true ∧ (t.reported sent).session? = t.session? := by
  cases t with
  | announcing s b => exact ⟨rfl, rfl⟩
  | relaying s e =>
    simp only [reported] at h ⊢
    split at h
    · next he => exact ⟨rfl, by rw [if_pos he]; rfl⟩
    · cases h
  | reporting | confirming => cases h
  | _ => cases hr

theorem reported_serves? (sent : Bool) (hr : t.report? = some r) (h : t.serves? = some s) :
    (t.reported sent).serves? = some s := by
  cases t with
  | announcing i b => exact h
  | relaying i e =>
    simp only [reported]
    split <;> exact h
  | _ => cases h <;> cases hr

/-- The report that a session has stopped is the last one of its task. -/
theorem reported_of_stopped (hr : t.report? = some ⟨some s, .event (.control .stopped)⟩)
    (sent : Bool) : (t.reported sent).mayReport = false := by
  cases t <;> cases hr
  · rfl
  · simp [reported, Event.isTerminal, mayReport]

theorem reported_ne_relaying (sent : Bool) (i : Nat) (e : Event) (hr : t.report? = some r) :
    t.reported sent ≠ .relaying i e := by
  cases t with
  | relaying s e =>
    simp only [reported]
    split <;> simp
  | announcing | reporting | confirming => simp [reported]
  | _ => cases hr

/-- What is reported about a session was taken from its channel, or tells of its end. -/
theorem event_of_report? {e : Event} (hr : t.report? = some ⟨some s, .event e⟩) :
    t = .relaying s e ∨ t = .confirming s ∧ e = .control .stopped := by
  cases t <;> cases hr
  · exact .inr ⟨rfl, rfl⟩
  · exact .inl rfl

end Task

namespace Connection

variable {base : Nat} {c d : Connection} {log rs : List Entry} {k s : Nat} {t u : Task}
  {m : Machine} {env : ProvisionEnv}

theorem Turns.isOfReader (h : Turns c d rs) : ∀ a ∈ rs, a.isOfReader = true := by
  intro a ha
  cases h with
  | still htasks hslot hrs =>
    rcases hrs a ha with hd | hr | ⟨rfl, -⟩
    · cases a <;> first | rfl | cases hd
    · cases a <;> first | rfl | cases hr
    · rfl
  | letIn => rw [List.mem_singleton.1 ha]; rfl
  | giveUp _ _ _ hrs => rw [hrs a ha]; rfl
  | cancel _ _ _ hrs =>
    rcases hrs with rfl | ⟨rfl, -⟩
    · rw [List.mem_singleton.1 ha]; rfl
    · cases ha

/-- Nothing is said by a task, and nothing goes into a channel or comes out of one. -/
theorem Turns.silent (h : Turns c d rs) (i : Nat) :
    saidBy i rs = [] ∧ sentBy i rs = [] ∧ takenFrom i rs = [] := by
  refine ⟨?_, ?_, ?_⟩ <;> refine List.filterMap_eq_nil_iff.2 fun a ha => ?_
  all_goals
    have hof := h.isOfReader a ha
    cases a <;> first | rfl | cases hof

/-- Who has started which session, and who may still speak of it. -/
structure Owned (c : Connection) (log : List Entry) : Prop where
  fresh : ∀ k s, .came k (.ok s) ∈ log → k < c.tasks.length ∧ s < c.host.sessions.length
  once : ∀ j k s, .came j (.ok s) ∈ log → .came k (.ok s) ∈ log → j = k
  owner : ∀ k t s, c.tasks[k]? = some t → t.mayReport = true → t.session? = some s →
    .came k (.ok s) ∈ log
  served : ∀ s, c.slot = .active s → ∃ t ∈ c.tasks, t.serves? = some s
  relayed : ∀ s e, .relaying s e ∈ c.tasks → .taken s e ∈ log
  said : ∀ k r s, .said k r ∈ log → r.session = some s → .came k (.ok s) ∈ log
  heard : ∀ k s e, .said k ⟨some s, .event e⟩ ∈ log →
    .taken s e ∈ log ∨ e = .control .stopped ∧ c.host.isFinished s = true
  spent : ∀ k s t, .said k ⟨some s, .event (.control .stopped)⟩ ∈ log → c.tasks[k]? = some t →
    t.mayReport = false

theorem owned_accept (host : Host) (version : String) : (accept host version).Owned [] := by
  have hslot : ∀ s, (accept host version).slot ≠ .active s := fun s hs => by cases hs
  refine ⟨?_, ?_, ?_, fun s hs => absurd hs (hslot s), ?_, ?_, ?_, ?_⟩ <;> intro _ _ <;>
    simp [accept]

theorem getElem?_set_cases {l : List Task} {j : Nat} {v : Task} (hv : (l.set k u)[j]? = some v) :
    j = k ∧ v = u ∨ j ≠ k ∧ l[j]? = some v := by
  by_cases hjk : k = j
  · subst hjk
    refine .inl ⟨rfl, ?_⟩
    rw [List.getElem?_set_self'] at hv
    cases hl : l[k]? with
    | none => simp [hl] at hv
    | some w => simpa [hl, eq_comm] using hv
  · rw [List.getElem?_set_ne hjk] at hv
    exact .inr ⟨fun he => hjk he.symm, hv⟩

theorem getElem?_concat_cases {l : List Task} (h : (l ++ [u])[k]? = some t) :
    l[k]? = some t ∨ k = l.length ∧ t = u := by
  rw [List.getElem?_append] at h
  split at h
  · exact .inl h
  · next hge =>
    obtain ⟨hlt, hu⟩ := List.getElem?_eq_some_iff.1 h
    rw [List.length_singleton] at hlt
    rw [List.getElem_singleton] at hu
    exact .inr ⟨by omega, hu.symm⟩

/-- A task goes on, with the same session if with one of which it may still speak. -/
theorem Owned.goOn (h : c.Owned log) (hm : c.Managed base) (ht : c.tasks[k]? = some t)
    (htasks : d.tasks = c.tasks.set k u) (hhost : c.host.Continues d.host)
    (hu : u.mayReport = true → t.mayReport = true ∧ u.session? = t.session?)
    (hserves : ∀ s, d.slot = .active s →
      u.serves? = some s ∨ c.slot = .active s ∧ t.serves? ≠ some s)
    (hcame : ∀ j s, .came j (.ok s) ∉ rs)
    (hrelayed : ∀ s e, u = .relaying s e → .taken s e ∈ rs)
    (hsaid : ∀ j r, .said j r ∈ rs → j = k ∧ t.report? = some r ∧
      ∀ s, r = ⟨some s, .event (.control .stopped)⟩ → u.mayReport = false) :
    d.Owned (log ++ rs) := by
  have hold : ∀ {j s}, .came j (.ok s) ∈ log ++ rs → .came j (.ok s) ∈ log := fun hc =>
    (List.mem_append.1 hc).resolve_right (hcame _ _)
  have hmem := List.mem_of_getElem? ht
  refine ⟨fun j s hc => ?_, fun i j s hi hj => h.once i j s (hold hi) (hold hj),
    fun j v s hv hvm hvs => ?_, fun s hs => ?_, fun s e hv => ?_, fun j r s hj hs => ?_,
    fun j s e hj => ?_, fun j s v hj hv => ?_⟩
  · obtain ⟨hj, hs⟩ := h.fresh j s (hold hc)
    rw [htasks, List.length_set]
    exact ⟨hj, Nat.lt_of_lt_of_le hs hhost.length_le⟩
  · rw [htasks] at hv
    rcases getElem?_set_cases hv with ⟨rfl, rfl⟩ | ⟨-, hv⟩
    · obtain ⟨htm, hts⟩ := hu hvm
      exact List.mem_append_left _ (h.owner j t s ht htm (hts ▸ hvs))
    · exact List.mem_append_left _ (h.owner j v s hv hvm hvs)
  · rw [htasks]
    rcases hserves s hs with hus | ⟨hcs, hts⟩
    · exact ⟨u, mem_set_self ht, hus⟩
    · obtain ⟨v, hv, hvs⟩ := h.served s hcs
      rcases mem_set_or_eq (u := u) ht hv with rfl | hin
      · exact absurd hvs hts
      · exact ⟨v, hin, hvs⟩
  · rw [htasks] at hv
    rcases List.mem_or_eq_of_mem_set hv with hv | hv
    · exact List.mem_append_left _ (h.relayed s e hv)
    · exact List.mem_append_right _ (hrelayed s e hv.symm)
  · rcases List.mem_append.1 hj with hj | hj
    · exact List.mem_append_left _ (h.said j r s hj hs)
    · obtain ⟨rfl, hr, -⟩ := hsaid j r hj
      obtain ⟨htm, hts⟩ := Task.session?_of_report? hr hs
      exact List.mem_append_left _ (h.owner j t s ht htm hts)
  · rcases List.mem_append.1 hj with hj | hj
    · have hs := (h.fresh j s (h.said j _ s hj rfl)).2
      exact (h.heard j s e hj).imp (List.mem_append_left _) fun ⟨he, hf⟩ =>
        ⟨he, hhost.finished s hs hf⟩
    · obtain ⟨-, hr, -⟩ := hsaid j _ hj
      obtain ⟨htm, hts⟩ := Task.session?_of_report? hr rfl
      have hs := (h.fresh k s (h.owner k t s ht htm hts)).2
      rcases Task.event_of_report? hr with rfl | ⟨rfl, he⟩
      · exact .inl (List.mem_append_left _ (h.relayed s e hmem))
      · exact .inr ⟨he, hhost.finished s hs (hm.confirmed s hmem)⟩
  · rw [htasks] at hv
    rcases List.mem_append.1 hj with hj | hj
    · rcases getElem?_set_cases hv with ⟨rfl, rfl⟩ | ⟨-, hv⟩
      · have htm := h.spent j s t hj ht
        by_contra hvm
        rw [(hu (by simpa using hvm)).1] at htm
        cases htm
      · exact h.spent j s v hj hv
    · obtain ⟨rfl, hr, hlast⟩ := hsaid j _ hj
      rcases getElem?_set_cases hv with ⟨-, rfl⟩ | ⟨hne, -⟩
      · exact hlast s rfl
      · exact absurd rfl hne

/-- A task goes on without a word and without an event. -/
theorem Owned.goOnSilently (h : c.Owned log) (hm : c.Managed base) (ht : c.tasks[k]? = some t)
    (htasks : d.tasks = c.tasks.set k u) (hhost : c.host.Continues d.host)
    (hu : u.mayReport = true → t.mayReport = true ∧ u.session? = t.session?)
    (hserves : ∀ s, d.slot = .active s →
      u.serves? = some s ∨ c.slot = .active s ∧ t.serves? ≠ some s)
    (hrelayed : ∀ s e, u ≠ .relaying s e)
    (hrs : ∀ a ∈ rs, a.tellsOfTask = false) : d.Owned (log ++ rs) :=
  h.goOn hm ht htasks hhost hu hserves (fun j s hj => by cases hrs _ hj)
    (fun s e hu => absurd hu (hrelayed s e)) fun j r hj => by cases hrs _ hj

/-- A task has started a session that nobody knows yet. -/
theorem Owned.obtain {b : Backend} {profile : Profile} (h : c.Owned log)
    (ht : c.tasks[k]? = some (.starting profile b)) (htasks : d.tasks = c.tasks.set k (.obtained s b))
    (hhost : c.host.Continues d.host) (hs : s = c.host.sessions.length)
    (hlength : s < d.host.sessions.length) (hslot : d.slot = c.slot) :
    d.Owned (log ++ [.came k (.ok s)]) := by
  have hnew : ∀ j, .came j (.ok s) ∉ log := fun j hj => by
    have hlt := (h.fresh j s hj).2
    omega
  have hsaid : ∀ {j r}, .said j r ∈ log ++ [.came k (.ok s)] → .said j r ∈ log := by
    intro j r hj
    simpa using hj
  refine ⟨fun j i hc => ?_, fun i j r hi hj => ?_, fun j v r hv hvm hvs => ?_, fun r hr => ?_,
    fun r e hv => ?_, fun j r i hj hi => List.mem_append_left _ (h.said j r i (hsaid hj) hi),
    fun j i e hj => ?_, fun j i v hj hv => ?_⟩
  · rw [htasks, List.length_set]
    simp only [List.mem_append, List.mem_singleton, Entry.came.injEq, Except.ok.injEq] at hc
    rcases hc with hc | ⟨rfl, rfl⟩
    · obtain ⟨hj, hi⟩ := h.fresh j i hc
      exact ⟨hj, Nat.lt_of_lt_of_le hi hhost.length_le⟩
    · exact ⟨(List.getElem?_eq_some_iff.1 ht).1, hlength⟩
  · simp only [List.mem_append, List.mem_singleton, Entry.came.injEq, Except.ok.injEq] at hi hj
    rcases hi with hi | ⟨rfl, rfl⟩ <;> rcases hj with hj | ⟨rfl, hrs⟩
    · exact h.once i j r hi hj
    · subst hrs
      exact absurd hi (hnew i)
    · exact absurd hj (hnew j)
    · rfl
  · rw [htasks] at hv
    rcases getElem?_set_cases hv with ⟨rfl, rfl⟩ | ⟨-, hv⟩
    · cases hvs
      exact List.mem_append_right _ (List.mem_singleton.2 rfl)
    · exact List.mem_append_left _ (h.owner j v r hv hvm hvs)
  · obtain ⟨v, hv, hvs⟩ := h.served r (hslot ▸ hr)
    rw [htasks]
    rcases mem_set_or_eq (u := .obtained s b) ht hv with rfl | hin
    · cases hvs
    · exact ⟨v, hin, hvs⟩
  · rw [htasks] at hv
    rcases List.mem_or_eq_of_mem_set hv with hv | hv
    · exact List.mem_append_left _ (h.relayed r e hv)
    · cases hv
  · have hi := (h.fresh j i (h.said j _ i (hsaid hj) rfl)).2
    exact (h.heard j i e (hsaid hj)).imp (List.mem_append_left _) fun ⟨he, hf⟩ =>
      ⟨he, hhost.finished i hi hf⟩
  · rw [htasks] at hv
    rcases getElem?_set_cases hv with ⟨rfl, rfl⟩ | ⟨-, hv⟩
    · have hover := h.spent j i _ (hsaid hj) ht
      cases hover
    · exact h.spent j i v (hsaid hj) hv

/-- No task moves, though one may begin. -/
theorem Owned.turn (h : c.Owned log) (htasks : d.tasks = c.tasks ∨ d.tasks = c.tasks ++ [u])
    (hu : u.mayReport = false ∨ u.session? = none)
    (hrelayed : ∀ s e, u ≠ .relaying s e) (hhost : c.host.Continues d.host)
    (hslot : ∀ s, d.slot = .active s → c.slot = .active s)
    (hrs : ∀ a ∈ rs, a.tellsOfTask = false) : d.Owned (log ++ rs) := by
  have hcame : ∀ {j s}, .came j (.ok s) ∈ log ++ rs → .came j (.ok s) ∈ log := fun hc =>
    (List.mem_append.1 hc).resolve_right fun hc => by cases hrs _ hc
  have hsaid : ∀ {j r}, .said j r ∈ log ++ rs → .said j r ∈ log := fun hc =>
    (List.mem_append.1 hc).resolve_right fun hc => by cases hrs _ hc
  have hlength : c.tasks.length ≤ d.tasks.length := by
    rcases htasks with he | he <;> rw [he]
    exact List.length_append ▸ Nat.le_add_right _ _
  have hsub : ∀ {v}, v ∈ c.tasks → v ∈ d.tasks := fun hv => by
    rcases htasks with he | he <;> rw [he]
    · exact hv
    · exact List.mem_append_left _ hv
  have hcases : ∀ {j v}, d.tasks[j]? = some v → c.tasks[j]? = some v ∨
      c.tasks.length ≤ j ∧ v = u := by
    intro j v hv
    rcases htasks with he | he <;> rw [he] at hv
    · exact .inl hv
    · exact (getElem?_concat_cases hv).imp_right fun ⟨hj, hv⟩ => ⟨hj.ge, hv⟩
  refine ⟨fun j s hc => ?_, fun i j s hi hj => h.once i j s (hcame hi) (hcame hj),
    fun j v s hv hvm hvs => ?_, fun s hs => ?_, fun s e hv => ?_,
    fun j r s hj hs => List.mem_append_left _ (h.said j r s (hsaid hj) hs),
    fun j s e hj => ?_, fun j s v hj hv => ?_⟩
  · obtain ⟨hj, hs⟩ := h.fresh j s (hcame hc)
    exact ⟨Nat.lt_of_lt_of_le hj hlength, Nat.lt_of_lt_of_le hs hhost.length_le⟩
  · rcases hcases hv with hv | ⟨-, rfl⟩
    · exact List.mem_append_left _ (h.owner j v s hv hvm hvs)
    · rcases hu with hu | hu
      · rw [hu] at hvm
        cases hvm
      · rw [hu] at hvs
        cases hvs
  · obtain ⟨v, hv, hvs⟩ := h.served s (hslot s hs)
    exact ⟨v, hsub hv, hvs⟩
  · obtain ⟨j, hj⟩ := List.mem_iff_getElem?.1 hv
    rcases hcases hj with hj | ⟨-, hj⟩
    · exact List.mem_append_left _ (h.relayed s e (List.mem_of_getElem? hj))
    · exact absurd hj.symm (hrelayed s e)
  · have hs := (h.fresh j s (h.said j _ s (hsaid hj) rfl)).2
    exact (h.heard j s e (hsaid hj)).imp (List.mem_append_left _) fun ⟨he, hf⟩ =>
      ⟨he, hhost.finished s hs hf⟩
  · rcases hcases hv with hv | ⟨hge, -⟩
    · exact h.spent j s v (hsaid hj) hv
    · have hlt := (h.fresh j s (h.said j _ s (hsaid hj) rfl)).1
      omega

theorem continues_of_start {m : Machine} {env : ProvisionEnv} {profile : Profile} {b : Backend}
    {h host : Host} {r : Except Halt Nat} (hstart : h.start m env profile b = (r, host)) :
    h.Continues host ∧ ∀ s, r = .ok s → s = h.sessions.length ∧ s < host.sessions.length := by
  rcases h.start_cases m env profile b with ⟨new, after, he, hs⟩ | ⟨halt, after, he, hs⟩ <;>
    rw [he] at hstart <;> cases hstart
  · have hlength : host.sessions.length = h.sessions.length + 1 := by simp [hs]
    refine ⟨⟨by omega, fun i hi hf => ?_⟩, fun s hr => ?_⟩
    · rwa [Host.isFinished, hs, List.getElem?_append_left hi]
    · cases hr
      exact ⟨rfl, by omega⟩
  · exact ⟨.of_sessions_eq hs, fun s hr => by cases hr⟩

theorem Owned.moves (h : c.Owned log) (hm : c.Managed base) (ht : c.tasks[k]? = some t)
    (hmoves : Moves m c k env t d rs) : d.Owned (log ++ rs) := by
  have hsame : c.host.Continues c.host := .of_sessions_eq rfl
  have hslot : ∀ {u : Task}, (∀ s, t.serves? = some s → u.serves? = some s) →
      ∀ s, c.slot = .active s → u.serves? = some s ∨ c.slot = .active s ∧ t.serves? ≠ some s :=
    fun {u} hu s hs => (Decidable.em (t.serves? = some s)).imp (hu s) fun hn => ⟨hs, hn⟩
  have hnone : ∀ a ∈ ([] : List Entry), a.tellsOfTask = false :=
    fun a ha => absurd ha List.not_mem_nil
  have hone : ∀ {b : Entry}, b.tellsOfTask = false → ∀ a ∈ [b], a.tellsOfTask = false :=
    fun hb a ha => List.mem_singleton.1 ha ▸ hb
  cases hmoves with
  | obtain hstart =>
    obtain ⟨hhost, hnew⟩ := continues_of_start hstart
    obtain ⟨hs, hlt⟩ := hnew _ rfl
    exact h.obtain ht rfl hhost hs hlt rfl
  | fail hstart =>
    exact h.goOnSilently hm ht rfl (continues_of_start hstart).1 nofun (hslot nofun) nofun
      (hone rfl)
  | overflow hstart =>
    exact h.goOnSilently hm ht rfl (continues_of_start hstart).1 nofun (hslot nofun) nofun hnone
  | regret => exact h.goOnSilently hm ht rfl hsame nofun nofun nofun (hone rfl)
  | keep hstarting =>
    refine h.goOnSilently hm ht rfl hsame (fun _ => ⟨rfl, rfl⟩) (fun s hs => .inl ?_) nofun (hone rfl)
    cases hs
    rfl
  | abandon hslot' =>
    exact h.goOnSilently hm ht rfl hsame (fun _ => ⟨rfl, rfl⟩) nofun nofun (hone rfl)
  | say hr hroom =>
    refine h.goOn hm ht rfl hsame (Task.reported_mayReport true hr)
      (hslot fun s => Task.reported_serves? true hr) (fun j s hj => by simp at hj)
      (fun s e hu => absurd hu (Task.reported_ne_relaying true s e hr)) fun j r hj => ?_
    simp only [List.mem_singleton, Entry.said.injEq] at hj
    obtain ⟨rfl, rfl⟩ := hj
    refine ⟨rfl, hr, fun s hs => ?_⟩
    subst hs
    exact Task.reported_of_stopped hr true
  | lose hr hsends =>
    exact h.goOnSilently hm ht rfl hsame (Task.reported_mayReport false hr)
      (hslot fun s => Task.reported_serves? false hr)
      (fun s e => Task.reported_ne_relaying false s e hr) hnone
  | wait hwait => rwa [List.append_nil]
  | stopAbandoned =>
    exact h.goOnSilently hm ht rfl (c.host.continues_askStop _) (fun _ => ⟨rfl, rfl⟩)
      (hslot nofun) nofun hnone
  | abandoned hover =>
    exact h.goOnSilently hm ht rfl hsame (fun _ => ⟨rfl, rfl⟩) (hslot nofun) nofun hnone
  | take hs hq =>
    refine h.goOn hm ht rfl (Host.continues_setChannel hs _) (fun _ => ⟨rfl, rfl⟩)
      (hslot fun s hs => hs) (fun j s hj => by simp at hj) (fun s e hu => ?_)
      fun j r hj => by simp at hj
    cases hu
    exact List.mem_singleton.2 rfl
  | drain hend => exact h.goOnSilently hm ht rfl hsame nofun (hslot fun s hs => hs) nofun hnone
  | release =>
    next i =>
    refine h.goOnSilently hm ht rfl hsame nofun (fun s hs => .inr ?_) nofun hnone
    change c.slot.finished i = .active s at hs
    rcases c.slot.finished_cases i with ⟨-, hf⟩ | ⟨hne, hf⟩
    · rw [hf] at hs
      cases hs
    · rw [hf] at hs
      refine ⟨hs, fun hi => hne ?_⟩
      cases hi
      exact hs
  | drop hu =>
    rcases hu with rfl | rfl <;>
      exact h.goOnSilently hm ht rfl hsame nofun (hslot nofun) nofun hnone
  | stop =>
    exact h.goOnSilently hm ht rfl (c.host.continues_askStop _) nofun (hslot nofun) nofun hnone
  | finish hover => exact h.goOnSilently hm ht rfl hsame nofun (hslot nofun) nofun hnone

theorem Owned.turns (h : c.Owned log) (hsessions : d.host.sessions = c.host.sessions)
    (hturns : Turns c d rs) : d.Owned (log ++ rs) := by
  have hrs : ∀ a ∈ rs, a.tellsOfTask = false := by
    intro a ha
    have hof := hturns.isOfReader a ha
    cases a <;> first | rfl | cases hof
  have hhost : c.host.Continues d.host := .of_sessions_eq hsessions
  cases hturns with
  | still htasks hslot _ =>
    exact h.turn (u := .ended) (.inl htasks) (.inl rfl) nofun hhost (fun s hs => hslot ▸ hs) hrs
  | letIn hempty htasks hslot =>
    refine h.turn (.inr htasks) (.inr rfl) nofun hhost (fun s hs => ?_) hrs
    rw [hslot] at hs
    cases hs
  | giveUp hactive htasks hslot _ =>
    refine h.turn (.inr htasks) (.inl rfl) nofun hhost (fun s hs => ?_) hrs
    rw [hslot] at hs
    cases hs
  | cancel hpending htasks hslot _ =>
    refine h.turn (u := .ended) (.inl htasks) (.inl rfl) nofun hhost (fun s hs => ?_) hrs
    rw [hslot] at hs
    cases hs

theorem Owned.step {defaults : Defaults} (h : c.Owned log) (hm : c.Managed base) (a : Step) :
    (step m defaults c a).Owned (log ++ c.entries m defaults a) := by
  rcases step_cases m defaults c a with ⟨k, env, t, rfl, ht, hmoves⟩ |
    ⟨s, now, clock, rfl, hstep, hentries⟩ | ⟨hsessions, hturns⟩
  · exact h.moves hm ht hmoves
  · rw [hstep, hentries]
    refine h.turn (u := .ended) (.inl rfl) (.inl rfl) nofun (c.host.continues_pumpStep m now clock s)
      (fun s hs => hs) fun a ha => ?_
    obtain ⟨e, -, rfl⟩ := List.mem_map.1 ha
    rfl
  · exact h.turns hsessions hturns

theorem Owned.run {defaults : Defaults} (h : c.Owned log) (hm : c.Managed base) {steps : List Step}
    (hends : ¬ LosesStart m defaults c steps) :
    (run m defaults c steps).Owned (log ++ chronicle m defaults c steps) := by
  induction steps generalizing c log with
  | nil => simpa [chronicle] using h
  | cons a steps ih =>
    rw [run_cons, chronicle, ← List.append_assoc]
    exact ih (h.step hm a) (hm.step (not_loses_of_not_losesStart hends))
      (not_losesStart_step hends)

/-- Once the session in the slot was reported to have stopped, its task is giving the slot back. -/
theorem Owned.releasing_of_stopped (h : c.Owned log) (hs : c.slot = .active s)
    (hstopped : .said k ⟨some s, .event (.control .stopped)⟩ ∈ log) : .releasing s ∈ c.tasks := by
  obtain ⟨t, ht, hserves⟩ := h.served s hs
  obtain ⟨j, hj⟩ := List.mem_iff_getElem?.1 ht
  have hsilent : t.mayReport = true → False := fun hmay => by
    have hsession : t.session? = some s := by
      cases t <;> first | exact hserves | cases hserves
    have hjk := h.once j k s (h.owner j t s hj hmay hsession) (h.said k _ s hstopped rfl)
    subst hjk
    rw [h.spent j s t hstopped hj] at hmay
    cases hmay
  cases t with
  | releasing i =>
    cases hserves
    exact ht
  | announcing | forwarding | relaying => exact (hsilent rfl).elim
  | _ => cases hserves

/-- Every session from `base` on has `P` with what went into its channel and came out of it. -/
structure Passing (P : Session → List Event → List Event → Prop) (base : Nat) (c : Connection)
    (log : List Entry) : Prop where
  each : ∀ i s, base ≤ i → c.host.sessions[i]? = some s → P s (sentBy i log) (takenFrom i log)
  unborn : ∀ i, c.host.sessions.length ≤ i → sentBy i log = [] ∧ takenFrom i log = []

section passing

variable {P : Session → List Event → List Event → Prop}

theorem passing_accept (P : Session → List Event → List Event → Prop) (host : Host)
    (version : String) : Passing P host.sessions.length (accept host version) [] := by
  refine ⟨fun i s hi hs => ?_, fun i _ => ⟨rfl, rfl⟩⟩
  have hlt := (List.getElem?_eq_some_iff.1 hs).1
  exact absurd hlt (Nat.not_lt.2 hi)

/-- Nothing happens to the events of any session. -/
theorem Passing.frame (h : Passing P base c log) (hsessions : d.host.sessions = c.host.sessions)
    (hrs : ∀ i, sentBy i rs = [] ∧ takenFrom i rs = []) : Passing P base d (log ++ rs) := by
  refine ⟨fun i s hi hs => ?_, fun i hi => ?_⟩
  · rw [hsessions] at hs
    simpa [hrs i] using h.each i s hi hs
  · rw [hsessions] at hi
    simpa [hrs i] using h.unborn i hi

/-- Something happens to one session. -/
theorem Passing.change {i : Nat} {x y : Session} (h : Passing P base c log)
    (hx : c.host.sessions[i]? = some x) (hsessions : d.host.sessions = c.host.sessions.set i y)
    (hy : base ≤ i → P y (sentBy i (log ++ rs)) (takenFrom i (log ++ rs)))
    (hrs : ∀ j, j ≠ i → sentBy j rs = [] ∧ takenFrom j rs = []) :
    Passing P base d (log ++ rs) := by
  have hi := (List.getElem?_eq_some_iff.1 hx).1
  refine ⟨fun j s hj hs => ?_, fun j hj => ?_⟩
  · rw [hsessions] at hs
    by_cases hij : i = j
    · subst hij
      rw [List.getElem?_set_self hi] at hs
      cases hs
      exact hy hj
    · rw [List.getElem?_set_ne hij] at hs
      simpa [hrs j fun he => hij he.symm] using h.each j s hj hs
  · rw [hsessions, List.length_set] at hj
    have hne : j ≠ i := by omega
    simpa [hrs j hne] using h.unborn j hj

theorem Passing.askStop (h : Passing P base c log) (hP : Session.Lasting P) (i : Nat)
    (hhost : d.host = c.host.askStop i) : Passing P base d (log ++ []) := by
  rcases c.host.sessions_askStop i with hsame | ⟨s, hs, hset⟩
  · exact h.frame (by rw [hhost, hsame]) fun _ => ⟨rfl, rfl⟩
  · refine h.change hs (by rw [hhost, hset]) (fun hi => ?_) fun _ _ => ⟨rfl, rfl⟩
    rw [List.append_nil]
    exact hP.asked s _ _ (h.each i s hi hs)

theorem Passing.start {profile : Profile} {b : Backend} {host : Host} {r : Except Halt Nat}
    (h : Passing P base c log) (hP : Session.Lasting P)
    (hstart : c.host.start m env profile b = (r, host)) (hhost : d.host = host)
    (hrs : ∀ i, sentBy i rs = [] ∧ takenFrom i rs = []) : Passing P base d (log ++ rs) := by
  rcases c.host.start_cases m env profile b with ⟨_, after, he, -⟩ | ⟨halt, after, he, hs⟩
  · obtain ⟨s, -, -, hsessions, -, -, hfresh, -⟩ := Host.start_ok (congrArg Prod.fst he)
    rw [hstart] at hsessions
    refine ⟨fun i x hi hx => ?_, fun i hi => ?_⟩
    · rw [hhost, hsessions, List.getElem?_append] at hx
      split at hx
      · simpa [hrs i] using h.each i x hi hx
      · next hge =>
        obtain rfl := List.mem_singleton.1 (List.mem_of_getElem? hx)
        obtain ⟨hsent, htaken⟩ := h.unborn i (Nat.le_of_not_lt hge)
        simpa [hrs i, hsent, htaken] using hP.fresh x hfresh
    · rw [hhost, hsessions, List.length_append] at hi
      simpa [hrs i] using h.unborn i (Nat.le_of_add_right_le hi)
  · rw [he] at hstart
    cases hstart
    exact h.frame (by rw [hhost, hs]) hrs

theorem Passing.moves (h : Passing P base c log) (hP : Session.Lasting P)
    (hmoves : Moves m c k env t d rs) : Passing P base d (log ++ rs) := by
  cases hmoves with
  | obtain hstart | fail hstart | overflow hstart =>
    exact h.start hP hstart rfl fun _ => ⟨rfl, rfl⟩
  | stopAbandoned | stop => exact h.askStop hP _ rfl
  | take hs hq =>
    next i session e rest =>
    refine h.change hs rfl (fun hi => ?_) fun j hj => ⟨rfl, ?_⟩
    · have htake := hP.take session _ _ e rest hq (h.each i session hi hs)
      have hsent : sentBy i [.taken i e] = [] := rfl
      rwa [sentBy_append, hsent, List.append_nil, takenFrom_concat]
    · simp [takenFrom, Entry.takenFrom?, hj.symm]
  | regret | keep | abandon | say | lose | wait | abandoned | drain | release | drop | finish =>
    exact h.frame rfl fun _ => ⟨rfl, rfl⟩

theorem sentBy_map_sent (s : Nat) (es : List Event) : sentBy s (es.map (.sent s)) = es := by
  rw [sentBy, List.filterMap_map]
  have hsome : Entry.sentBy? s ∘ Entry.sent s = some := funext fun e => by simp [Entry.sentBy?]
  rw [hsome, List.filterMap_some]

theorem sentBy_map_sent_of_ne {i s : Nat} (hne : i ≠ s) (es : List Event) :
    sentBy i (es.map (.sent s)) = [] := by
  refine filterMap_map_sent (fun e => ?_) es
  simp [Entry.sentBy?, hne.symm]

theorem takenFrom_map_sent (i s : Nat) (es : List Event) :
    takenFrom i (es.map (.sent s)) = [] := filterMap_map_sent (fun _ => rfl) es

/-- The step of a pump keeps `P` of its session. -/
def KeepsPumped (P : Session → List Event → List Event → Prop) (m : Machine) (c : Connection)
    (a : Step) : Prop :=
  ∀ i now clock s o sent taken, a = .pump i now clock → c.host.sessions[i]? = some s →
    s.pump.isOver = false →
    (c.host.pumpStep m now clock i).sessions = c.host.sessions.set i (s.pumped o) →
    c.host.sends m now clock i = (s.pump.step o).2 →
    P s sent taken → P (s.pumped o) (sent ++ (s.pump.step o).2) taken

theorem keepsPumped_passes (m : Machine) (c : Connection) (a : Step) :
    KeepsPumped Session.Passes m c a := by
  intro i now clock s o sent taken _ _ hover _ _ h
  exact h.pumped hover o

theorem Passing.step {defaults : Defaults} (h : Passing P base c log) (hP : Session.Lasting P)
    {a : Step} (hpump : KeepsPumped P m c a) :
    Passing P base (step m defaults c a) (log ++ c.entries m defaults a) := by
  rcases step_cases m defaults c a with ⟨k, env, t, rfl, ht, hmoves⟩ |
    ⟨i, now, clock, rfl, hstep, hentries⟩ | ⟨hsessions, hturns⟩
  · exact h.moves hP hmoves
  · rw [hstep, hentries]
    rcases c.host.pumpStep_cases m now clock i with ⟨hsame, hnone⟩ | ⟨s, o, hs, hover, hset, hsends⟩
    · rw [hnone]
      exact h.frame hsame fun _ => ⟨rfl, rfl⟩
    · rw [hsends]
      refine h.change hs hset (fun hi => ?_) fun j hj =>
        ⟨sentBy_map_sent_of_ne hj _, takenFrom_map_sent _ _ _⟩
      rw [sentBy_append, sentBy_map_sent, takenFrom_append, takenFrom_map_sent, List.append_nil]
      exact hpump i now clock s o _ _ rfl hs hover hset hsends (h.each i s hi hs)
  · exact h.frame hsessions fun i => (hturns.silent i).2

theorem Passing.run (h : Passing Session.Passes base c log) (m : Machine) (defaults : Defaults)
    (steps : List Step) : Passing Session.Passes base (run m defaults c steps)
      (log ++ chronicle m defaults c steps) := by
  induction steps generalizing c log with
  | nil => simpa [chronicle] using h
  | cons a steps ih =>
    rw [run_cons, chronicle, ← List.append_assoc]
    exact ih (h.step Session.lasting_passes (keepsPumped_passes m c a))

end passing

end Connection
end RigWarden.Peer
