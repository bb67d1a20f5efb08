import RigWarden.Proofs.Peer.Chronicle

/-!
# The answer to a start

A start that was let in is answered with the error of a start that has failed, with one end if an end
was asked for before the session was there, or with an announcement, the events of the session and
its end. With each step of its task the answer is as far as the task is.
-/

namespace RigWarden.Peer

/-- The answers that the reader owes, in the order of the messages. -/
def dues (log : List Entry) : List Reply := log.filterMap Entry.due?

/-- The answers that the reader has given. -/
def replies (log : List Entry) : List Reply := log.filterMap Entry.replied?

def Entry.admitted? : Entry → Option Nat
  | admitted k => some k
  | _ => none

/-- The starts that were let in, by their tasks. -/
def admissions (log : List Entry) : List Nat := log.filterMap Entry.admitted?

/-- The start that was let in last, and whether an end was asked for after that. -/
def Entry.latest (l : Option (Nat × Bool)) : Entry → Option (Nat × Bool)
  | admitted k => some (k, false)
  | asked => l.map fun p => (p.1, true)
  | _ => l

def latest (log : List Entry) : Option (Nat × Bool) := log.foldl Entry.latest none

/-- When the slot learned what had become of start `k`, that start was the last one, and an end was
asked for after it or not. -/
def Settled (log : List Entry) (k : Nat) (cancelled : Bool) : Prop :=
  ∃ before after, log = before ++ .settled k :: after ∧ latest before = some (k, cancelled)

def Reply.started (s : Nat) (b : Backend) : Reply :=
  .sessionStarted ("session-" ++ Number.decimal s) b

def Reply.stopped : Reply := .event (.control .stopped)

/-- The whole answer to start `k`. -/
inductive Answer (log : List Entry) (k : Nat) : List Reply → Prop
  | failed {e : Error} (hcame : .came k (.error e) ∈ log) : Answer log k [.ofError e]
  | cancelled {s : Nat} (hcame : .came k (.ok s) ∈ log) (hsettled : Settled log k true) :
      Answer log k [.stopped]
  | ran {s : Nat} {b : Backend} {es : List Event} (hcame : .came k (.ok s) ∈ log)
      (hsettled : Settled log k false) (hes : .control .stopped ∉ es)
      (htaken : takenFrom s log = es ++ [.control .stopped]) :
      Answer log k (.started s b :: (es.map .event ++ [.stopped]))

/-- The answer is empty so far, or has begun with the announcement of a session. -/
def Begins (log : List Entry) (k : Nat) (answer : List Reply) : Prop :=
  answer = [] ∨ ∃ s b es, .came k (.ok s) ∈ log ∧ Settled log k false ∧ .control .stopped ∉ es ∧
    es <+: takenFrom s log ∧ answer = .started s b :: es.map .event

/-- The answer of the task is not complete. -/
def Task.owes : Task → Bool
  | releasing _ => false
  | dropping _ => false
  | stopping _ => false
  | awaiting _ => false
  | ended => false
  | _ => true

/-- The task stops a session that others have started, or has nothing left to do. -/
def Task.stops : Task → Bool
  | stopping _ => true
  | awaiting _ => true
  | ended => true
  | _ => false

/-- How far the answer to start `k` has come with its task. -/
def Stands (log : List Entry) (k : Nat) : Task → Prop
  | .starting _ _ => saidBy k log = []
  | .failed e => .came k (.error e) ∈ log ∧ saidBy k log = []
  | .reporting e => .came k (.error e) ∈ log ∧ saidBy k log = []
  | .obtained s _ => .came k (.ok s) ∈ log ∧ saidBy k log = [] ∧ takenFrom s log = []
  | .abandoning s => .came k (.ok s) ∈ log ∧ Settled log k true ∧ saidBy k log = []
  | .awaitingAbandoned s => .came k (.ok s) ∈ log ∧ Settled log k true ∧ saidBy k log = []
  | .confirming s => .came k (.ok s) ∈ log ∧ Settled log k true ∧ saidBy k log = []
  | .announcing s _ =>
    .came k (.ok s) ∈ log ∧ Settled log k false ∧ saidBy k log = [] ∧ takenFrom s log = []
  | .forwarding s =>
    .came k (.ok s) ∈ log ∧ Settled log k false ∧ ∃ b, .control .stopped ∉ takenFrom s log ∧
      saidBy k log = .started s b :: (takenFrom s log).map .event
  | .relaying s e =>
    .came k (.ok s) ∈ log ∧ Settled log k false ∧ ∃ b es, .control .stopped ∉ es ∧
      takenFrom s log = es ++ [e] ∧ saidBy k log = .started s b :: es.map .event
  | _ => Answer log k (saidBy k log)

variable {log rs : List Entry} {k : Nat} {t : Task}

@[simp] theorem dues_append (log rs : List Entry) : dues (log ++ rs) = dues log ++ dues rs :=
  List.filterMap_append

@[simp] theorem replies_append (log rs : List Entry) :
    replies (log ++ rs) = replies log ++ replies rs := List.filterMap_append

@[simp] theorem admissions_append (log rs : List Entry) :
    admissions (log ++ rs) = admissions log ++ admissions rs := List.filterMap_append

theorem mem_admissions_iff : k ∈ admissions log ↔ .admitted k ∈ log := by
  simp only [admissions, List.mem_filterMap]
  constructor
  · rintro ⟨a, ha, hk⟩
    cases a <;> simp_all [Entry.admitted?]
  · intro h
    exact ⟨_, h, rfl⟩

theorem latest_append (log rs : List Entry) :
    latest (log ++ rs) = rs.foldl Entry.latest (latest log) := List.foldl_append

theorem latest_append_of (hrs : ∀ a ∈ rs, ∀ l, Entry.latest l a = l) :
    latest (log ++ rs) = latest log := by
  rw [latest_append]
  generalize latest log = l
  induction rs with
  | nil => rfl
  | cons a rs ih =>
    rw [List.foldl_cons, hrs a List.mem_cons_self]
    exact ih fun b hb => hrs b (List.mem_cons_of_mem a hb)

theorem Settled.append {cancelled : Bool} (h : Settled log k cancelled) (rs : List Entry) :
    Settled (log ++ rs) k cancelled := by
  obtain ⟨before, after, rfl, hlatest⟩ := h
  exact ⟨before, after ++ rs, by simp, hlatest⟩

theorem settled_concat {cancelled : Bool} (h : latest log = some (k, cancelled)) :
    Settled (log ++ [.settled k]) k cancelled := ⟨log, [], rfl, h⟩

theorem Answer.append {answer : List Reply} (h : Answer log k answer)
    (hnone : ∀ s, .came k (.ok s) ∈ log → takenFrom s rs = []) : Answer (log ++ rs) k answer := by
  cases h with
  | failed hcame => exact .failed (List.mem_append_left _ hcame)
  | cancelled hcame hsettled =>
    exact .cancelled (List.mem_append_left _ hcame) (hsettled.append rs)
  | ran hcame hsettled hes htaken =>
    refine .ran (List.mem_append_left _ hcame) (hsettled.append rs) hes ?_
    rw [takenFrom_append, hnone _ hcame, List.append_nil]
    exact htaken

/-- Nothing is put down that has to do with start `k`. -/
theorem Stands.frame (h : Stands log k t) (hsaid : saidBy k rs = [])
    (htaken : ∀ s, .came k (.ok s) ∈ log → takenFrom s rs = []) : Stands (log ++ rs) k t := by
  have hsame : saidBy k (log ++ rs) = saidBy k log := by rw [saidBy_append, hsaid, List.append_nil]
  have htook : ∀ {s}, .came k (.ok s) ∈ log → takenFrom s (log ++ rs) = takenFrom s log :=
    fun hs => by rw [takenFrom_append, htaken _ hs, List.append_nil]
  cases t with
  | starting => exact hsame.trans h
  | failed | reporting => exact ⟨List.mem_append_left _ h.1, hsame.trans h.2⟩
  | obtained =>
    obtain ⟨hcame, hnone, hnothing⟩ := h
    exact ⟨List.mem_append_left _ hcame, hsame.trans hnone, (htook hcame).trans hnothing⟩
  | abandoning | awaitingAbandoned | confirming =>
    obtain ⟨hcame, hsettled, hnone⟩ := h
    exact ⟨List.mem_append_left _ hcame, hsettled.append rs, hsame.trans hnone⟩
  | announcing =>
    obtain ⟨hcame, hsettled, hnone, hnothing⟩ := h
    exact ⟨List.mem_append_left _ hcame, hsettled.append rs, hsame.trans hnone,
      (htook hcame).trans hnothing⟩
  | forwarding =>
    obtain ⟨hcame, hsettled, b, hnot, hs⟩ := h
    refine ⟨List.mem_append_left _ hcame, hsettled.append rs, b, ?_, ?_⟩ <;> rw [htook hcame]
    · exact hnot
    · exact hsame.trans hs
  | relaying =>
    obtain ⟨hcame, hsettled, b, es, hnot, hes, hs⟩ := h
    exact ⟨List.mem_append_left _ hcame, hsettled.append rs, b, es, hnot, (htook hcame).trans hes,
      hsame.trans hs⟩
  | releasing | dropping | stopping | awaiting | ended =>
    have hanswer : Answer log k (saidBy k log) := h
    change Answer (log ++ rs) k (saidBy k (log ++ rs))
    rw [hsame]
    exact hanswer.append htaken

/-- Once a task has nothing left to say its answer is complete. -/
theorem Stands.answer (h : Stands log k t) (ht : t.owes = false) : Answer log k (saidBy k log) := by
  cases t <;> first | exact h | cases ht

theorem Stands.begins (h : Stands log k t) (ht : t.owes = true) : Begins log k (saidBy k log) := by
  cases t with
  | starting => exact .inl h
  | failed | reporting => exact .inl h.2
  | obtained => exact .inl h.2.1
  | abandoning | awaitingAbandoned | confirming => exact .inl h.2.2
  | announcing => exact .inl h.2.2.1
  | forwarding s =>
    obtain ⟨hcame, hsettled, b, hnot, hs⟩ := h
    exact .inr ⟨s, b, _, hcame, hsettled, hnot, List.prefix_refl _, hs⟩
  | relaying s e =>
    obtain ⟨hcame, hsettled, b, es, hnot, hes, hs⟩ := h
    exact .inr ⟨s, b, es, hcame, hsettled, hnot, hes ▸ List.prefix_append es [e], hs⟩
  | releasing | dropping | stopping | awaiting | ended => cases ht

theorem eq_stopped_of_isTerminal {e : Event} (h : e.isTerminal = true) : e = .control .stopped := by
  cases e with
  | metrics r => cases h
  | control x => cases x <;> first | rfl | cases h

/-- A task says what it has to say next. -/
theorem Stands.say {r : Report} (h : Stands log k t) (hr : t.report? = some r) :
    Stands (log ++ [.said k r]) k (t.reported true) := by
  have hsaid := saidBy_concat k log r
  have htook (s : Nat) : takenFrom s (log ++ [.said k r]) = takenFrom s log := by
    rw [takenFrom_append]
    exact List.append_nil _
  cases t with
  | reporting e =>
    cases hr
    change Answer _ k (saidBy k _)
    rw [hsaid, h.2]
    exact .failed (List.mem_append_left _ h.1)
  | confirming s =>
    cases hr
    obtain ⟨hcame, hsettled, hnone⟩ := h
    change Answer _ k (saidBy k _)
    rw [hsaid, hnone]
    exact .cancelled (List.mem_append_left _ hcame) (hsettled.append _)
  | announcing s b =>
    cases hr
    obtain ⟨hcame, hsettled, hnone, hnothing⟩ := h
    refine ⟨List.mem_append_left _ hcame, hsettled.append _, b, ?_, ?_⟩
    · rw [htook, hnothing]
      exact List.not_mem_nil
    · rw [hsaid, hnone, htook, hnothing]
      rfl
  | relaying s e =>
    cases hr
    obtain ⟨hcame, hsettled, b, es, hnot, htaken, hs⟩ := h
    by_cases he : e.isTerminal = true
    · obtain rfl := eq_stopped_of_isTerminal he
      change Answer _ k (saidBy k _)
      rw [hsaid, hs]
      exact .ran (List.mem_append_left _ hcame) (hsettled.append _) hnot
        ((htook s).trans htaken)
    · have hreported : (Task.relaying s e).reported true = .forwarding s := by
        simp [Task.reported, he]
      rw [hreported]
      refine ⟨List.mem_append_left _ hcame, hsettled.append _, b, ?_, ?_⟩
      · rw [htook, htaken, List.mem_append, List.mem_singleton]
        rintro (hmem | rfl)
        · exact hnot hmem
        · exact he rfl
      · rw [hsaid, hs, htook, htaken, List.map_append]
        rfl
  | _ => cases hr

/-- A task takes an event. -/
theorem Stands.take {s : Nat} (h : Stands log k (.forwarding s)) (e : Event) :
    Stands (log ++ [.taken s e]) k (.relaying s e) := by
  obtain ⟨hcame, hsettled, b, hnot, hs⟩ := h
  refine ⟨List.mem_append_left _ hcame, hsettled.append _, b, takenFrom s log, hnot,
    takenFrom_concat s log e, ?_⟩
  rw [saidBy_append, hs]
  exact List.append_nil _

end RigWarden.Peer
