import RigWarden.Proofs.Peer.Answer
import RigWarden.Proofs.Peer.Ownership

/-!
# Every message is answered once

The reader answers at once what it can, one message after the other. A start that is let in is
answered by its own task, and nobody else says anything. This holds as long as the peer stays, no
pump is lost, no control event is lost in a channel, and every start ends with a session or an error.
-/

namespace RigWarden.Peer

namespace Connection

variable {base k : Nat} {c d : Connection} {log rs : List Entry} {t u : Task} {m : Machine}
  {defaults : Defaults} {env : ProvisionEnv}

/-- The peer stays, no pump is lost, and no control event is lost in a channel. -/
def isCalm (m : Machine) (c : Connection) : Step → Bool
  | .disconnect => false
  | .unreachable => false
  | .pump i now clock =>
    match c.host.sessions[i]?, (c.host.pumpStep m now clock i).sessions[i]? with
    | some s, some s' =>
      (s.pump.phase = .lost || s'.pump.phase ≠ .lost) &&
        Event.controls s'.channel.queue =
          Event.controls (s.channel.queue ++ c.host.sends m now clock i)
    | _, _ => true
  | _ => true

def staysCalm (m : Machine) (defaults : Defaults) : Connection → List Step → Bool
  | _, [] => true
  | c, a :: steps => c.isCalm m a && staysCalm m defaults (step m defaults c a) steps

theorem keepsPumped_complete {a : Step} (hcalm : c.isCalm m a = true) :
    KeepsPumped Session.Complete m c a := by
  rintro i now clock s o sent taken rfl hs hover hset hsends h
  have hi := (List.getElem?_eq_some_iff.1 hs).1
  have hafter : (c.host.pumpStep m now clock i).sessions[i]? = some (s.pumped o) := by
    rw [hset, List.getElem?_set_self hi]
  simp only [isCalm, hs, hafter, hsends, Bool.and_eq_true, Bool.or_eq_true,
    decide_eq_true_eq] at hcalm
  exact h.pumped hover (hcalm.1.resolve_left h.found) hcalm.2

/-- The reader takes messages and answers them one after the other, and the peer is there. -/
structure Attentive (c : Connection) (log : List Entry) : Prop where
  sends : c.sends = true
  reader : c.reader = .reading ∨ ∃ r, c.reader = .replying r
  paid : dues log = replies log ++ (c.reader.report?.map Report.reply).toList

theorem attentive_accept (host : Host) (version : String) : (accept host version).Attentive [] :=
  ⟨rfl, .inl rfl, rfl⟩

theorem Attentive.same (h : c.Attentive log) (hsends : d.sends = c.sends)
    (hreader : d.reader = c.reader) (hdues : dues rs = []) (hreplies : replies rs = []) :
    d.Attentive (log ++ rs) := by
  refine ⟨hsends.trans h.sends, hreader ▸ h.reader, ?_⟩
  rw [dues_append, hdues, replies_append, hreplies, List.append_nil, List.append_nil, hreader]
  exact h.paid

theorem Attentive.moves (h : c.Attentive log) (hmoves : Moves m c k env t d rs) :
    d.Attentive (log ++ rs) := by
  have hsame : d.sends = c.sends ∧ d.reader = c.reader ∧ dues rs = [] ∧ replies rs = [] := by
    cases hmoves <;> exact ⟨rfl, rfl, rfl, rfl⟩
  exact h.same hsame.1 hsame.2.1 hsame.2.2.1 hsame.2.2.2

theorem Attentive.takeRequest (h : c.Attentive log) (hreading : c.reader = .reading)
    (defaults : Defaults) (r : Option Request) :
    (c.takeRequest defaults r).Attentive (log ++ c.messageEntries defaults r) := by
  have hpaid := h.paid
  simp only [hreading, Reader.report?, Option.map_none, Option.toList_none, List.append_nil] at hpaid
  -- The reader goes on reading and owes nothing, or it is about to reply what it owes.
  have hreply (r : Reply) : Attentive { c with reader := .replying r } (log ++ [.due r]) := by
    refine ⟨h.sends, .inr ⟨r, rfl⟩, ?_⟩
    have hdue : dues [.due r] = [r] := rfl
    have hnone : replies [.due r] = [] := rfl
    rw [dues_append, hdue, replies_append, hnone, List.append_nil, hpaid]
    rfl
  unfold Connection.takeRequest messageEntries
  split
  · by_cases hslot : c.slot = .empty
    · have hreserve : c.slot.reserve? = some .starting := Slot.reserve?_eq_some_iff.2 ⟨hslot, rfl⟩
      rw [if_pos hslot, hreserve]
      exact h.same rfl rfl rfl rfl
    · have hreserve : c.slot.reserve? = none := by
        cases hs : c.slot <;> first | rfl | exact absurd hs hslot
      rw [if_neg hslot, hreserve]
      exact hreply busy
  · rcases c.slot.release_cases with ⟨s, hs, hrel⟩ | ⟨hs, hrel⟩ | ⟨hs, hrel⟩ <;> simp only [hrel] <;>
      exact h.same rfl rfl rfl rfl
  · exact hreply _
  · exact hreply _

theorem Attentive.readerStep (h : c.Attentive log) :
    c.readerStep.Attentive (log ++ (c.reports .reader).map fun r => .replied r.reply) := by
  rcases h.reader with hr | ⟨r, hr⟩
  · have hsame : c.readerStep = c := by simp only [Connection.readerStep, hr]
    have hnone : c.reports .reader = [] := by simp [reports, report?, hr, Reader.report?]
    rw [hsame, hnone, List.map_nil, List.append_nil]
    exact h
  · have hpaid := h.paid
    simp only [hr, Reader.report?, Option.map_some, Option.toList_some] at hpaid
    simp only [Connection.readerStep, hr, reports, report?, Reader.report?, Option.toList_some,
      send, hasRoom, h.sends, Bool.not_true, Bool.false_eq_true, if_false, Bool.true_and,
      decide_eq_true_eq]
    split
    · refine ⟨rfl, .inl rfl, ?_⟩
      have hdue : dues [.replied r] = [] := rfl
      have hreplied : replies [.replied r] = [r] := rfl
      rw [List.map_singleton, dues_append, hdue, replies_append, hreplied, List.append_nil, hpaid]
      exact (List.append_nil _).symm
    · rw [List.map_nil, List.append_nil]
      exact h

theorem Attentive.step (h : c.Attentive log) {a : Step} (hcalm : c.isCalm m a = true) :
    (step m defaults c a).Attentive (log ++ c.entries m defaults a) := by
  cases a with
  | message text =>
    simp only [Connection.step, takeMessage, entries]
    cases hr : c.reader with
    | reading => exact h.takeRequest hr defaults _
    | replying | leaving | awaiting | closed => exact h.same rfl rfl rfl rfl
  | reader => exact h.readerStep
  | task k env =>
    cases ht : c.tasks[k]? with
    | some t => exact h.moves (moves_taskStep ht)
    | none =>
      have hsame : c.taskStep m env k = c := by simp only [taskStep, ht]
      have hnone : c.entries m defaults (.task k env) = [] := by
        simp [entries, reports, report?, ht]
      rw [Connection.step, hsame, hnone, List.append_nil]
      exact h
  | deliver =>
    simp only [Connection.step, entries]
    split <;> exact h.same rfl rfl rfl rfl
  | pump s now clock =>
    exact h.same rfl rfl (filterMap_map_sent (fun _ => rfl) _) (filterMap_map_sent (fun _ => rfl) _)
  | worker w => exact h.same rfl rfl rfl rfl
  | disconnect | unreachable => cases hcalm

/-! What a step of a task leaves as it is -/

theorem eq_of_set {l : List Task} {v : Task} (ht : l[k]? = some t)
    (hv : (l.set k v)[k]? = some u) : v = u := by
  rw [List.getElem?_set_self (List.getElem?_eq_some_iff.1 ht).1] at hv
  exact Option.some.inj hv

theorem Moves.continues (hmoves : Moves m c k env t d rs) : c.host.Continues d.host := by
  cases hmoves with
  | obtain hstart | fail hstart | overflow hstart => exact (continues_of_start hstart).1
  | stopAbandoned | stop => exact c.host.continues_askStop _
  | take hs hq => exact Host.continues_setChannel hs _
  | _ => exact .of_sessions_eq rfl

/-- The other tasks do not move, and say nothing. -/
theorem Moves.others (hmoves : Moves m c k env t d rs) {j : Nat} (hj : j ≠ k) :
    d.tasks[j]? = c.tasks[j]? ∧ saidBy j rs = [] := by
  have hset (u : Task) : (c.tasks.set k u)[j]? = c.tasks[j]? := List.getElem?_set_ne hj.symm
  cases hmoves with
  | say hr hroom => exact ⟨hset _, by simp [saidBy, Entry.saidBy?, hj.symm]⟩
  | wait => exact ⟨rfl, rfl⟩
  | _ => exact ⟨hset _, rfl⟩

theorem Moves.length_tasks (hmoves : Moves m c k env t d rs) : d.tasks.length = c.tasks.length := by
  cases hmoves with
  | wait => rfl
  | _ => exact List.length_set

/-- No start is let in, and no end is asked for. -/
theorem Moves.latest (hmoves : Moves m c k env t d rs) (log : List Entry) :
    Peer.latest (log ++ rs) = Peer.latest log := by
  refine latest_append_of fun a ha l => ?_
  cases hmoves <;> first | exact absurd ha List.not_mem_nil | rw [List.mem_singleton.1 ha]; rfl

theorem Moves.admissions (hmoves : Moves m c k env t d rs) : Peer.admissions rs = [] := by
  cases hmoves <;> rfl

/-- A task takes events from its own session. -/
theorem Moves.taken {s : Nat} {e : Event} (hmoves : Moves m c k env t d rs)
    (he : .taken s e ∈ rs) : t = .forwarding s := by
  cases hmoves with
  | take hs hq =>
    cases List.mem_singleton.1 he
    rfl
  | _ => simp at he

/-- A session that was just started is the last one of the host. -/
theorem Moves.came {j s : Nat} (hmoves : Moves m c k env t d rs) (hcame : .came j (.ok s) ∈ rs) :
    s = c.host.sessions.length := by
  cases hmoves with
  | obtain hstart =>
    cases List.mem_singleton.1 hcame
    exact ((continues_of_start hstart).2 s rfl).1
  | _ => simp at hcame

/-- What was let in is answered by its own task, and by no other. -/
structure Answering (base : Nat) (c : Connection) (log : List Entry) : Prop where
  grown : base ≤ c.host.sessions.length
  recent : ∀ k s, .came k (.ok s) ∈ log → base ≤ s
  known : ∀ k, .admitted k ∈ log → k < c.tasks.length
  ascending : (admissions log).Pairwise (· < ·)
  silent : ∀ k, c.tasks.length ≤ k → saidBy k log = []
  last : ∀ k t, c.tasks[k]? = some t → t.isStarter = true →
    latest log = some (k, decide (c.slot = .cancelled))
  stands : ∀ k t, c.tasks[k]? = some t → .admitted k ∈ log → Stands log k t
  others : ∀ k t, c.tasks[k]? = some t → .admitted k ∉ log → t.stops = true ∧ saidBy k log = []

theorem answering_accept (host : Host) (version : String) :
    (accept host version).Answering host.sessions.length [] := by
  have hnone : ∀ (k : Nat) t, (accept host version).tasks[k]? ≠ some t := fun k t ht => by cases ht
  exact ⟨Nat.le_refl _, fun k s hk => absurd hk List.not_mem_nil,
    fun k hk => absurd hk List.not_mem_nil, .nil, fun _ _ => rfl, fun k t ht => absurd ht (hnone k t),
    fun k t ht => absurd ht (hnone k t), fun k t ht => absurd ht (hnone k t)⟩

/-- The answer that a task owes goes on with the task. -/
theorem Answering.standsOn (h : c.Answering base log) (hm : c.Managed base) (ho : c.Owned log)
    (hp : Passing Session.Complete base c log) (hsends : c.sends = true)
    (ht : c.tasks[k]? = some t) (hends : ¬ Loses m c (.task k env))
    (hmoves : Moves m c k env t d rs) (hk : .admitted k ∈ log) (hu : d.tasks[k]? = some u) :
    Stands (log ++ rs) k u := by
  have hstands := h.stands k t ht hk
  have hself {v : Task} (hv : (c.tasks.set k v)[k]? = some u) : v = u := eq_of_set ht hv
  -- The task goes on without a word and without an event.
  have hsame {v : Task} (hv : (c.tasks.set k v)[k]? = some u) (hstand : Stands log k v)
      (hsaid : saidBy k rs = []) (htaken : ∀ s, takenFrom s rs = []) : Stands (log ++ rs) k u :=
    hself hv ▸ hstand.frame hsaid fun s _ => htaken s
  cases hmoves with
  | obtain hstart =>
    obtain rfl := hself hu
    obtain ⟨rfl, -⟩ := (continues_of_start hstart).2 _ rfl
    obtain ⟨-, hnothing⟩ := hp.unborn _ (Nat.le_refl _)
    refine ⟨List.mem_append_right _ List.mem_cons_self, ?_, ?_⟩
    · rw [saidBy_append, hstands]
      rfl
    · rw [takenFrom_append, hnothing]
      rfl
  | fail hstart =>
    obtain rfl := hself hu
    refine ⟨List.mem_append_right _ List.mem_cons_self, ?_⟩
    rw [saidBy_append, hstands]
    rfl
  | overflow hstart => exact absurd ⟨k, env, _, _, rfl, ht, congrArg Prod.fst hstart⟩ hends
  | regret => exact hsame hu hstands rfl fun _ => rfl
  | keep hslot =>
    obtain rfl := hself hu
    obtain ⟨hcame, hnone, hnothing⟩ := hstands
    have hlatest := h.last k _ ht rfl
    rw [hslot] at hlatest
    refine ⟨List.mem_append_left _ hcame, settled_concat hlatest, ?_, ?_⟩
    · rw [saidBy_append, hnone]
      rfl
    · rw [takenFrom_append, hnothing]
      rfl
  | abandon hslot =>
    obtain rfl := hself hu
    obtain ⟨hcame, hnone, -⟩ := hstands
    have hcancelled : c.slot = .cancelled := by
      have hpending := hm.isPending ht rfl
      cases hc : c.slot <;> simp_all [Slot.isPending]
    have hlatest := h.last k _ ht rfl
    rw [hcancelled] at hlatest
    refine ⟨List.mem_append_left _ hcame, settled_concat hlatest, ?_⟩
    rw [saidBy_append, hnone]
    rfl
  | say hr hroom => exact hself hu ▸ hstands.say hr
  | lose hr hlost => cases hsends.symm.trans hlost
  | wait hwait =>
    cases ht.symm.trans hu
    rwa [List.append_nil]
  | stopAbandoned | abandoned | release | stop | finish => exact hsame hu hstands rfl fun _ => rfl
  | take hs hq => exact hself hu ▸ hstands.take _
  | drain hend =>
    next s =>
    obtain ⟨hcame, -, b, hnot, -⟩ := hstands
    have hlt := (ho.fresh k s hcame).2
    rcases hend with hnone | ⟨session, hs, hq, hclosed⟩
    · exact absurd hlt (Nat.not_lt.2 (List.getElem?_eq_none_iff.1 hnone))
    · exact absurd ((hp.each s session (h.recent k s hcame) hs).stopped_of_drained hq hclosed) hnot
  | drop hv =>
    rcases hv with rfl | rfl <;> exact hsame hu hstands rfl fun _ => rfl

/-- A task that was not let in as a start has nothing to say. -/
theorem Moves.stops (hmoves : Moves m c k env t d rs) (ht : c.tasks[k]? = some t)
    (hstops : t.stops = true) (hu : d.tasks[k]? = some u) : u.stops = true ∧ saidBy k rs = [] := by
  have hself {v : Task} (hv : (c.tasks.set k v)[k]? = some u) : v = u := eq_of_set ht hv
  cases hmoves with
  | stop | finish =>
    obtain rfl := hself hu
    exact ⟨rfl, rfl⟩
  | wait =>
    cases ht.symm.trans hu
    exact ⟨hstops, rfl⟩
  | say hr | lose hr =>
    cases t with
    | stopping | awaiting | ended => cases hr
    | _ => cases hstops
  | _ => cases hstops

/-- A start that the slot does not know of yet was not known before. -/
theorem Moves.starter (hmoves : Moves m c k env t d rs) (ht : c.tasks[k]? = some t)
    (hu : d.tasks[k]? = some u) (hstarter : u.isStarter = true) : t.isStarter = true := by
  have hself {v : Task} (hv : (c.tasks.set k v)[k]? = some u) : v = u := eq_of_set ht hv
  cases hmoves with
  | wait =>
    cases ht.symm.trans hu
    exact hstarter
  | obtain | fail => rfl
  | say hr | lose hr =>
    obtain rfl := hself hu
    cases t with
    | relaying s e =>
      simp only [Task.reported] at hstarter
      split at hstarter <;> cases hstarter
    | reporting | confirming | announcing => cases hstarter
    | _ => cases hr
  | drop hv =>
    obtain rfl := hself hu
    rcases hv with rfl | rfl <;> cases hstarter
  | _ =>
    obtain rfl := hself hu
    cases hstarter

/-- A slot that waits has not changed. -/
theorem Moves.slot (hmoves : Moves m c k env t d rs) (hpending : d.slot.isPending = true) :
    d.slot = c.slot := by
  cases hmoves with
  | regret | keep | abandon => cases hpending
  | release =>
    next s =>
    change (c.slot.finished s).isPending = true at hpending
    change c.slot.finished s = c.slot
    rcases c.slot.finished_cases s with ⟨-, hf⟩ | ⟨-, hf⟩
    · rw [hf] at hpending
      cases hpending
    · exact hf
  | _ => rfl

theorem Answering.moves (h : c.Answering base log) (hm : c.Managed base) (ho : c.Owned log)
    (hp : Passing Session.Complete base c log) (hsends : c.sends = true)
    (ht : c.tasks[k]? = some t) (hends : ¬ Loses m c (.task k env)) (hd : d.Managed base)
    (hmoves : Moves m c k env t d rs) : d.Answering base (log ++ rs) := by
  have hold {j : Nat} (hj : .admitted j ∈ log ++ rs) : .admitted j ∈ log := by
    rw [← mem_admissions_iff, admissions_append, hmoves.admissions, List.append_nil] at hj
    exact mem_admissions_iff.1 hj
  have hk := (List.getElem?_eq_some_iff.1 ht).1
  refine ⟨h.grown.trans hmoves.continues.length_le, fun j s hj => ?_, fun j hj => ?_, ?_,
    fun j hj => ?_, fun j v hv hstarter => ?_, fun j v hv hj => ?_, fun j v hv hj => ?_⟩
  · rcases List.mem_append.1 hj with hj | hj
    · exact h.recent j s hj
    · rw [hmoves.came hj]
      exact h.grown
  · rw [hmoves.length_tasks]
    exact h.known j (hold hj)
  · rw [admissions_append, hmoves.admissions, List.append_nil]
    exact h.ascending
  · rw [hmoves.length_tasks] at hj
    rw [saidBy_append, h.silent j hj, (hmoves.others (by omega)).2]
    rfl
  · rw [hmoves.latest, hmoves.slot (hd.isPending hv hstarter)]
    by_cases hjk : j = k
    · subst hjk
      exact h.last j t ht (hmoves.starter ht hv hstarter)
    · exact h.last j v ((hmoves.others hjk).1 ▸ hv) hstarter
  · by_cases hjk : j = k
    · subst hjk
      exact h.standsOn hm ho hp hsends ht hends hmoves (hold hj) hv
    · obtain ⟨htasks, hsaid⟩ := hmoves.others hjk
      refine (h.stands j v (htasks ▸ hv) (hold hj)).frame hsaid fun s hs => ?_
      refine List.eq_nil_iff_forall_not_mem.2 fun e he => hjk ?_
      obtain rfl := hmoves.taken (mem_takenFrom_iff.1 he)
      exact ho.once j k s hs (ho.owner k _ s ht rfl rfl)
  · have hj : .admitted j ∉ log := fun hmem => hj (List.mem_append_left _ hmem)
    by_cases hjk : j = k
    · subst hjk
      obtain ⟨hstops, hnone⟩ := h.others j t ht hj
      obtain ⟨hon, hsaid⟩ := hmoves.stops ht hstops hv
      exact ⟨hon, by rw [saidBy_append, hnone, hsaid]; rfl⟩
    · obtain ⟨htasks, hsaid⟩ := hmoves.others hjk
      obtain ⟨hstops, hnone⟩ := h.others j v (htasks ▸ hv) hj
      exact ⟨hstops, by rw [saidBy_append, hnone, hsaid]; rfl⟩

/-- No task moves, though one may begin: a start if one was let in. -/
theorem Answering.turn {more : List Task} (h : c.Answering base log) (hd : d.Managed base)
    (htasks : d.tasks = c.tasks ++ more)
    (hlength : d.host.sessions.length = c.host.sessions.length)
    (hlast : d.slot.isPending = true → ∀ k t, d.tasks[k]? = some t → t.isStarter = true →
      latest (log ++ rs) = some (k, decide (d.slot = .cancelled)))
    (hmore : admissions rs = [] ∧ (∀ t ∈ more, t.stops = true) ∨
      admissions rs = [c.tasks.length] ∧ ∃ profile b, more = [.starting profile b])
    (hcame : ∀ k o, .came k o ∉ rs) (hsaid : ∀ k, saidBy k rs = [])
    (htaken : ∀ s, takenFrom s rs = []) : d.Answering base (log ++ rs) := by
  have hsame (k : Nat) : saidBy k (log ++ rs) = saidBy k log := by
    rw [saidBy_append, hsaid, List.append_nil]
  have hle : c.tasks.length ≤ d.tasks.length := by
    rw [htasks, List.length_append]
    exact Nat.le_add_right _ _
  have hold {k : Nat} (hk : k < c.tasks.length) : d.tasks[k]? = c.tasks[k]? := by
    rw [htasks, List.getElem?_append_left hk]
  have hnew {k : Nat} {t : Task} (hk : c.tasks.length ≤ k) (ht : d.tasks[k]? = some t) :
      t ∈ more := by
    rw [htasks, List.getElem?_append_right hk] at ht
    exact List.mem_of_getElem? ht
  have hstart {k : Nat} (hk : .admitted k ∈ rs) :
      k = c.tasks.length ∧ ∃ profile b, more = [.starting profile b] := by
    rw [← mem_admissions_iff] at hk
    rcases hmore with ⟨hnone, -⟩ | ⟨hone, hstarting⟩
    · rw [hnone] at hk
      cases hk
    · rw [hone, List.mem_singleton] at hk
      exact ⟨hk, hstarting⟩
  refine ⟨hlength ▸ h.grown, fun k s hk => ?_, fun k hk => ?_, ?_, fun k hk => ?_,
    fun k t ht hstarter => hlast (hd.isPending ht hstarter) k t ht hstarter,
    fun k t ht hk => ?_, fun k t ht hk => ?_⟩
  · exact h.recent k s ((List.mem_append.1 hk).resolve_right (hcame k _))
  · rcases List.mem_append.1 hk with hk | hk
    · exact (h.known k hk).trans_le hle
    · obtain ⟨rfl, profile, b, rfl⟩ := hstart hk
      rw [htasks, List.length_append]
      exact Nat.lt_succ_self _
  · rw [admissions_append, List.pairwise_append]
    refine ⟨h.ascending, ?_, fun j hj k hk => ?_⟩
    · rcases hmore with ⟨he, -⟩ | ⟨he, -⟩ <;> rw [he] <;> simp
    · rw [(hstart (mem_admissions_iff.1 hk)).1]
      exact h.known j (mem_admissions_iff.1 hj)
  · exact (hsame k).trans (h.silent k (hle.trans hk))
  · rcases List.mem_append.1 hk with hmem | hmem
    · have ht := hold (h.known k hmem) ▸ ht
      exact (h.stands k t ht hmem).frame (hsaid k) fun s _ => htaken s
    · obtain ⟨rfl, profile, b, rfl⟩ := hstart hmem
      obtain rfl := List.mem_singleton.1 (hnew (Nat.le_refl _) ht)
      exact (hsame _).trans (h.silent _ (Nat.le_refl _))
  · have hnot : .admitted k ∉ log ∧ .admitted k ∉ rs := by simpa using hk
    rcases Nat.lt_or_ge k c.tasks.length with hlt | hge
    · obtain ⟨hon, hnone⟩ := h.others k t (hold hlt ▸ ht) hnot.1
      exact ⟨hon, (hsame k).trans hnone⟩
    · refine ⟨?_, (hsame k).trans (h.silent k hge)⟩
      rcases hmore with ⟨-, hstops⟩ | ⟨hone, profile, b, rfl⟩
      · exact hstops t (hnew hge ht)
      · rcases getElem?_concat_cases (htasks ▸ ht) with hlt | ⟨rfl, -⟩
        · exact absurd (List.getElem?_eq_some_iff.1 hlt).1 (Nat.not_lt.2 hge)
        · have hmem := mem_admissions_iff.1 (hone ▸ List.mem_cons_self)
          exact absurd hmem hnot.2

theorem Answering.turns (h : c.Answering base log) (hm : c.Managed base) (hd : d.Managed base)
    (hsessions : d.host.sessions = c.host.sessions) (hstays : c.reader ≠ .leaving)
    (hturns : Turns c d rs) : d.Answering base (log ++ rs) := by
  have hlength := congrArg List.length hsessions
  have hof := hturns.isOfReader
  have hcame (k : Nat) (o : Except Error Nat) : .came k o ∉ rs := fun hk => by cases hof _ hk
  have hsaid (k : Nat) : saidBy k rs = [] := (hturns.silent k).1
  have htaken (s : Nat) : takenFrom s rs = [] := (hturns.silent s).2.2
  have hnone {t : Task} (ht : t ∈ ([] : List Task)) : t.stops = true := absurd ht List.not_mem_nil
  cases hturns with
  | still htasks hslot hrs =>
    have hadmissions : admissions rs = [] := List.filterMap_eq_nil_iff.2 fun a ha => by
      rcases hrs a ha with ha | ha | ⟨rfl, -⟩
      · cases a <;> first | rfl | cases ha
      · cases a <;> first | rfl | cases ha
      · rfl
    refine h.turn hd (htasks.trans (List.append_nil _).symm) hlength (fun hp k t ht hstarter => ?_)
      (.inl ⟨hadmissions, fun t => hnone⟩) hcame hsaid htaken
    rw [latest_append_of fun a ha l => ?_, hslot]
    · exact h.last k t (htasks ▸ ht) hstarter
    · rcases hrs a ha with ha | ha | ⟨-, hidle⟩
      · cases a <;> first | rfl | cases ha
      · cases a <;> first | rfl | cases ha
      · rw [hslot, hidle] at hp
        cases hp
  | letIn hempty htasks hslot =>
    refine h.turn hd htasks hlength (fun hp k t ht hstarter => ?_) (.inr ⟨rfl, _, _, rfl⟩) hcame
      hsaid htaken
    rcases getElem?_concat_cases (htasks ▸ ht) with ht | ⟨rfl, -⟩
    · have hp := hm.isPending ht hstarter
      rw [hempty] at hp
      cases hp
    · rw [latest_append, hslot]
      rfl
  | giveUp hactive htasks hslot hrs =>
    have hadmissions : admissions rs = [] := List.filterMap_eq_nil_iff.2 fun a ha => by
      rw [hrs a ha]
      rfl
    refine h.turn hd htasks hlength (fun hp => ?_) (.inl ⟨hadmissions, fun t ht => ?_⟩) hcame
      hsaid htaken
    · rw [hslot] at hp
      cases hp
    · rw [List.mem_singleton.1 ht]
      rfl
  | cancel hpending htasks hslot hrs =>
    obtain rfl : rs = [.asked] := hrs.resolve_right fun hr => hstays hr.2
    refine h.turn hd (htasks.trans (List.append_nil _).symm) hlength (fun _ k t ht hstarter => ?_)
      (.inl ⟨rfl, fun t => hnone⟩) hcame hsaid htaken
    rw [latest_append, h.last k t (htasks ▸ ht) hstarter, hslot]
    rfl

theorem Answering.pump (h : c.Answering base log) (s : Nat) (now : Instant) (clock : Clock)
    (hd : Managed base { c with host := c.host.pumpStep m now clock s }) (es : List Event) :
    Answering base { c with host := c.host.pumpStep m now clock s } (log ++ es.map (.sent s)) := by
  have hsent {a : Entry} (ha : a ∈ es.map (.sent s)) : ∃ e, a = .sent s e := by
    obtain ⟨e, -, rfl⟩ := List.mem_map.1 ha
    exact ⟨e, rfl⟩
  have hadmissions : admissions (es.map (.sent s)) = [] := filterMap_map_sent (fun _ => rfl) es
  refine h.turn hd (List.append_nil _).symm (c.host.length_pumpStep m now clock s)
    (fun hp k t ht hstarter => ?_) (.inl ⟨hadmissions, fun t ht => absurd ht List.not_mem_nil⟩)
    (fun k o hk => ?_) (fun k => filterMap_map_sent (fun _ => rfl) es)
    fun i => takenFrom_map_sent i s es
  · rw [latest_append_of fun a ha l => ?_]
    · exact h.last k t ht hstarter
    · obtain ⟨e, rfl⟩ := hsent ha
      rfl
  · obtain ⟨e, he⟩ := hsent hk
    cases he

theorem Answering.step {a : Step} (h : c.Answering base log) (hm : c.Managed base)
    (ho : c.Owned log) (hp : Passing Session.Complete base c log) (ha : c.Attentive log)
    (hends : ¬ Loses m c a) :
    (step m defaults c a).Answering base (log ++ c.entries m defaults a) := by
  have hd : (Connection.step m defaults c a).Managed base := hm.step hends
  rcases step_cases m defaults c a with ⟨k, env, t, rfl, ht, hmoves⟩ |
    ⟨s, now, clock, rfl, hstep, hentries⟩ | ⟨hsessions, hturns⟩
  · exact h.moves hm ho hp ha.sends ht hends hd hmoves
  · rw [hentries]
    exact h.pump s now clock hd _
  · refine h.turns hm hd hsessions (fun hl => ?_) hturns
    rcases ha.reader with hr | ⟨r, hr⟩ <;> cases hr.symm.trans hl

/-- A task that owes an answer waits for room in the queue or for its session, or it goes on. -/
theorem Moves.goesOn (hmoves : Moves m c k env t d rs) (ht : c.tasks[k]? = some t)
    (howes : t.owes = true)
    (hopen : ∀ s session, t = .forwarding s → c.host.sessions[s]? = some session →
      session.channel.sinkOpen = true → c.host.isFinished s = false) :
    d.tasks[k]? ≠ some t ∨ queueLimit ≤ c.queue.length ∨
      ∃ s, t.session? = some s ∧ c.host.isFinished s = false := by
  have hset {u : Task} (hne : u ≠ t) : (c.tasks.set k u)[k]? ≠ some t := fun hu =>
    hne (eq_of_set ht hu)
  cases hmoves with
  | wait hwait =>
    rcases hwait with ⟨-, hfull⟩ | ⟨s, rfl, session, hs, -, hsink⟩ | ⟨s, rfl | rfl, hgoing⟩ | rfl
    · exact .inr (.inl hfull)
    · exact .inr (.inr ⟨s, rfl, hopen s session rfl hs hsink⟩)
    · exact .inr (.inr ⟨s, rfl, hgoing⟩)
    · cases howes
    · cases howes
  | say hr | lose hr =>
    refine .inl (hset fun hu => ?_)
    cases t with
    | relaying s e => exact Task.reported_ne_relaying _ s e hr hu
    | reporting | confirming | announcing => cases hu
    | _ => cases hr
  | release | drop | stop | finish => cases howes
  | _ => exact .inl (hset nofun)

/-- All that a calm run keeps. -/
structure Kept (version : String) (base : Nat) (c : Connection) (log : List Entry) : Prop where
  managed : c.Managed base
  owned : c.Owned log
  passing : Passing Session.Complete base c log
  attentive : c.Attentive log
  answering : c.Answering base log
  carried : c.received ++ c.queue =
    .connected version :: (log.filterMap Entry.report?).map Report.reply

theorem kept_accept (host : Host) (version : String) :
    (accept host version).Kept version host.sessions.length [] :=
  ⟨managed_accept host version, owned_accept host version, passing_accept _ host version,
    attentive_accept host version, answering_accept host version, rfl⟩

section kept

variable {version : String}

theorem Kept.step {a : Step} (h : c.Kept version base log) (hcalm : c.isCalm m a = true)
    (hends : ¬ Loses m c a) :
    (step m defaults c a).Kept version base (log ++ c.entries m defaults a) := by
  have hattentive : (Connection.step m defaults c a).Attentive (log ++ c.entries m defaults a) :=
    h.attentive.step hcalm
  refine ⟨h.managed.step hends, h.owned.step h.managed a,
    h.passing.step Session.lasting_complete (keepsPumped_complete hcalm), hattentive,
    h.answering.step h.managed h.owned h.passing h.attentive hends, ?_⟩
  rcases carries_or_cut m defaults c a with hcarries | ⟨hcut, -⟩
  · rw [hcarries.replies, h.carried, List.filterMap_append, report?_entries, List.map_append,
      List.cons_append]
  · cases hcut.sends.symm.trans hattentive.sends

theorem Kept.run {steps : List Step} (h : c.Kept version base log)
    (hcalm : staysCalm m defaults c steps = true) (hends : ¬ LosesStart m defaults c steps) :
    (run m defaults c steps).Kept version base (log ++ chronicle m defaults c steps) := by
  induction steps generalizing c log with
  | nil => simpa [chronicle] using h
  | cons a steps ih =>
    obtain ⟨hnow, hthen⟩ := Bool.and_eq_true_iff.1 hcalm
    rw [run_cons, chronicle, ← List.append_assoc]
    exact ih (h.step hnow (not_loses_of_not_losesStart hends)) hthen (not_losesStart_step hends)

theorem Kept.goesOn (h : c.Kept version base log) (hk : .admitted k ∈ log)
    (ht : c.tasks[k]? = some t) (howes : t.owes = true) (m : Machine) (defaults : Defaults)
    (env : ProvisionEnv) :
    (Connection.step m defaults c (.task k env)).tasks[k]? ≠ some t ∨
      queueLimit ≤ c.queue.length ∨ ∃ s, t.session? = some s ∧ c.host.isFinished s = false := by
  have hmoves : Moves m c k env t (Connection.step m defaults c (.task k env))
      (c.entries m defaults (.task k env)) := moves_taskStep ht
  refine hmoves.goesOn ht howes fun s session he hs hsink => ?_
  subst he
  obtain ⟨hcame, -⟩ := h.answering.stands k _ ht hk
  have hopen := (h.passing.each s session (h.answering.recent k s hcame) hs).sinkOpen
  rw [hsink] at hopen
  rw [Host.isFinished_eq hs]
  simpa using hopen.symm

end kept

/-- What a run has answered, and what it has still to answer. -/
structure Answered (version : String) (c : Connection) (log : List Entry) : Prop where
  /-- All that was put into the queue was said by the reader or by a task. -/
  carried : c.received ++ c.queue =
    .connected version :: (log.filterMap Entry.report?).map Report.reply
  /-- The reader gives its answers in order. One may wait for room in the queue. -/
  paid : dues log = replies log ++ (c.reader.report?.map Report.reply).toList
  /-- Every start that is let in has a task of its own. -/
  ascending : (admissions log).Pairwise (· < ·)
  answers : ∀ k, .admitted k ∈ log → ∃ t, c.tasks[k]? = some t ∧
    (t.owes = false → Answer log k (saidBy k log)) ∧
    (t.owes = true → Begins log k (saidBy k log) ∧ ∀ m defaults env,
      (step m defaults c (.task k env)).tasks[k]? ≠ some t ∨ queueLimit ≤ c.queue.length ∨
        ∃ s, t.session? = some s ∧ c.host.isFinished s = false)
  /-- Nobody else says anything. -/
  others : ∀ k, .admitted k ∉ log → saidBy k log = []
  /-- No two starts have the same session. -/
  once : ∀ j k s, .came j (.ok s) ∈ log → .came k (.ok s) ∈ log → j = k
  /-- What is passed on are the events of the session in order, with all control events when the last
  one was taken. -/
  events : ∀ k s, .came k (.ok s) ∈ log → (takenFrom s log).Sublist (sentBy s log) ∧
    (.control .stopped ∈ takenFrom s log →
      Event.controls (takenFrom s log) = Event.controls (sentBy s log))

theorem Kept.answered {version : String} (h : c.Kept version base log) :
    c.Answered version log := by
  refine ⟨h.carried, h.attentive.paid, h.answering.ascending, fun k hk => ?_, fun k hk => ?_,
    h.owned.once, fun k s hcame => ?_⟩
  · have ht := List.getElem?_eq_getElem (h.answering.known k hk)
    have hstands := h.answering.stands k _ ht hk
    exact ⟨_, ht, hstands.answer, fun howes => ⟨hstands.begins howes, h.goesOn hk ht howes⟩⟩
  · rcases Nat.lt_or_ge k c.tasks.length with hlt | hge
    · exact (h.answering.others k _ (List.getElem?_eq_getElem hlt) hk).2
    · exact h.answering.silent k hge
  · have hs := List.getElem?_eq_getElem (h.owned.fresh k s hcame).2
    have hcomplete := h.passing.each s _ (h.answering.recent k s hcame) hs
    exact ⟨(List.sublist_append_left _ _).trans hcomplete.order, hcomplete.controls_of_stopped⟩

theorem chronicle_append (m : Machine) (defaults : Defaults) (c : Connection)
    (steps more : List Step) : chronicle m defaults c (steps ++ more) =
      chronicle m defaults c steps ++ chronicle m defaults (run m defaults c steps) more := by
  induction steps generalizing c with
  | nil => rfl
  | cons a steps ih => rw [List.cons_append, chronicle, chronicle, ih, List.append_assoc, run_cons]

/-- A start message is let in with a task of its own, or it is owed a refusal. -/
theorem entries_start {text : String} {o : Overrides} (hreading : c.reader = .reading)
    (hread : Request.read? text = some (.start o)) (m : Machine) (defaults : Defaults) :
    c.entries m defaults (.message text) =
      if c.slot = .empty then [.admitted c.tasks.length] else [.due busy] := by
  simp only [entries, hreading, hread, messageEntries]

/-- If the peer stays, no pump is lost, no control event is lost and every start ends with a session
or an error, then every start message is either refused once by the reader, or let in and answered
once by its task: with the error of the start, with one end if it was cancelled, or with the
announcement, the events and the one end of the session. -/
theorem answered_run (m : Machine) (defaults : Defaults) (host : Host) (version : String)
    (steps : List Step)
    (hcalm : staysCalm m defaults (accept host version) steps = true)
    (hends : ¬ LosesStart m defaults (accept host version) steps) :
    (run m defaults (accept host version) steps).Answered version
        (chronicle m defaults (accept host version) steps) ∧
      ∀ before text after o, steps = before ++ .message text :: after →
        Request.read? text = some (.start o) →
        (run m defaults (accept host version) before).reader = .reading →
        ∃ later, chronicle m defaults (accept host version) steps =
          chronicle m defaults (accept host version) before ++
            (if (run m defaults (accept host version) before).slot = .empty then
              [.admitted (run m defaults (accept host version) before).tasks.length]
            else [.due busy]) ++ later := by
  have hkept := (kept_accept host version).run hcalm hends
  rw [List.nil_append] at hkept
  refine ⟨hkept.answered, fun before text after o hsteps hread hreading => ?_⟩
  rw [hsteps, chronicle_append, chronicle, entries_start hreading hread, ← List.append_assoc]
  exact ⟨_, rfl⟩

/-- A second start is refused while the first one is under way, whose session then fails at once. -/
def refusedStart : List Step :=
  [askStart, askStart, .reader] ++ List.replicate 3 (.task 0 noFetch) ++
    List.replicate 5 (look 0) ++ List.replicate 5 (.task 0 noFetch)

theorem answered_run_refusedStart :
    let log := chronicle bareMachine simulating (accept bareHost "1") refusedStart
    dues log = replies log ∧ (replies log).length = 1 ∧ admissions log = [0] ∧
      Answer log 0 (saidBy 0 log) ∧ (saidBy 0 log).length = 3 := by
  intro log
  have hrun : staysCalm bareMachine simulating (accept bareHost "1") refusedStart = true ∧
      (run bareMachine simulating (accept bareHost "1") refusedStart).reader.report?.isNone = true ∧
      (run bareMachine simulating (accept bareHost "1") refusedStart).tasks[0]?.map Task.owes =
        some false ∧
      (replies log).length = 1 ∧ admissions log = [0] ∧ (saidBy 0 log).length = 3 := by
    decide +kernel
  obtain ⟨hcalm, hreading, howes, hreplied, hadmitted, hsaid⟩ := hrun
  obtain ⟨hanswered, -⟩ := answered_run bareMachine simulating bareHost "1" refusedStart hcalm
    (not_losesStart_of_isTimely (by decide))
  have hadmitted0 : .admitted 0 ∈ log := mem_admissions_iff.1 (hadmitted ▸ List.mem_cons_self)
  obtain ⟨t, ht, hanswer, -⟩ := hanswered.answers 0 hadmitted0
  rw [ht, Option.map_some, Option.some.injEq] at howes
  have hpaid := hanswered.paid
  rw [Option.isNone_iff_eq_none.1 hreading] at hpaid
  exact ⟨hpaid.trans (List.append_nil _), hreplied, hadmitted, hanswer howes, hsaid⟩

/-- The deadline of this start lies beyond what the clock can show. -/
def distant : ProvisionEnv :=
  { noFetch with now := ⟨1, 0⟩, timeout := .ofSecs (Number.limit63 - 1) }

/-- A start whose deadline the clock cannot show is let in and never answered. -/
theorem not_always_answered : ¬ ∀ (m : Machine) (defaults : Defaults) (host : Host)
    (version : String) (steps : List Step),
    staysCalm m defaults (accept host version) steps = true →
    ∀ k t, .admitted k ∈ chronicle m defaults (accept host version) steps →
      (run m defaults (accept host version) steps).tasks[k]? = some t → t.owes = false →
      Answer (chronicle m defaults (accept host version) steps) k
        (saidBy k (chronicle m defaults (accept host version) steps)) := by
  intro h
  have hrun : staysCalm bareMachine ⟨.xmrig, simulating.profile⟩ (accept bareHost "1")
        [askStart, .task 0 distant] = true ∧
      admissions (chronicle bareMachine ⟨.xmrig, simulating.profile⟩ (accept bareHost "1")
        [askStart, .task 0 distant]) = [0] ∧
      ((run bareMachine ⟨.xmrig, simulating.profile⟩ (accept bareHost "1")
        [askStart, .task 0 distant]).tasks[0]?.map Task.owes) = some false ∧
      (saidBy 0 (chronicle bareMachine ⟨.xmrig, simulating.profile⟩ (accept bareHost "1")
        [askStart, .task 0 distant])).isEmpty = true := by
    decide +kernel
  obtain ⟨hcalm, hadmitted, howes, hsilent⟩ := hrun
  obtain ⟨t, ht, howes⟩ := Option.map_eq_some_iff.1 howes
  have hanswer := h bareMachine ⟨.xmrig, simulating.profile⟩ bareHost "1"
    [askStart, .task 0 distant] hcalm 0 t
    (mem_admissions_iff.1 (hadmitted ▸ List.mem_cons_self)) ht howes
  rw [List.isEmpty_iff.1 hsilent] at hanswer
  cases hanswer

end Connection
end RigWarden.Peer
