import RigWarden.Proofs.Peer.Ownership

/-!
# A start after the last session has stopped

A peer that has heard the end of its session may ask for another one at once. The end is told before
the task of the old session has given the slot back and before its pump has let go of the lock, so
the new start can still be refused: in these two moments, and in no others.
-/

namespace RigWarden.Peer

/-- The session that a report says to have stopped. -/
def Report.stopped? (r : Report) : Option Nat :=
  match r.reply with
  | .event (.control .stopped) => r.session
  | _ => none

theorem Report.eq_of_stopped? {r : Report} {s : Nat} (h : r.stopped? = some s) :
    r = ⟨some s, .event (.control .stopped)⟩ := by
  obtain ⟨session, reply⟩ := r
  unfold stopped? at h
  split at h
  · next he =>
    cases he
    cases h
    rfl
  · cases h

def Reader.isReading : Reader → Bool
  | .reading => true
  | _ => false

theorem Reader.eq_reading {r : Reader} (h : r.isReading = true) : r = .reading := by
  cases r <;> first | rfl | cases h

def Task.failure? : Task → Option Error
  | .failed e => some e
  | _ => none

theorem Task.eq_failed {t : Task} {e : Error} (h : t.failure? = some e) : t = .failed e := by
  cases t <;> cases h
  rfl

namespace Connection

variable {m : Machine} {defaults : Defaults} {c : Connection} {steps : List Step} {s : Nat}
  {host : Host} {version text : String}

/-- The peer has heard that a session has stopped. -/
def HearsEnd (m : Machine) (defaults : Defaults) (c : Connection) (steps : List Step) (s : Nat) :
    Prop :=
  ⟨some s, .event (.control .stopped)⟩ ∈ heard m defaults c steps

theorem hearsEnd_of_getElem? {i : Nat}
    (h : (heard m defaults c steps)[i]?.bind Report.stopped? = some s) :
    HearsEnd m defaults c steps s := by
  obtain ⟨r, hr, hs⟩ := Option.bind_eq_some_iff.1 h
  rw [HearsEnd, ← Report.eq_of_stopped? hs]
  exact List.mem_of_getElem? hr

/-- What is heard of a session was said by a task. -/
theorem HearsEnd.said (h : HearsEnd m defaults c steps s) :
    ∃ k, .said k ⟨some s, .event (.control .stopped)⟩ ∈ chronicle m defaults c steps := by
  have hmem := List.mem_of_mem_take h
  rw [← report?_chronicle, List.mem_filterMap] at hmem
  obtain ⟨a, ha, hr⟩ := hmem
  cases a with
  | said k r =>
    cases hr
    exact ⟨k, ha⟩
  | _ => cases hr

theorem run_append (m : Machine) (defaults : Defaults) (c : Connection) (steps more : List Step) :
    run m defaults c (steps ++ more) = run m defaults (run m defaults c steps) more :=
  List.foldl_append

theorem run_message (m : Machine) (defaults : Defaults) (c : Connection) (steps : List Step)
    (text : String) : run m defaults c (steps ++ [.message text]) =
      step m defaults (run m defaults c steps) (.message text) :=
  run_append m defaults c steps [.message text]

theorem not_losesStart_append {more : List Step}
    (hends : ¬ LosesStart m defaults c (steps ++ more)) : ¬ LosesStart m defaults c steps := by
  rintro ⟨before, a, after, rfl, ha⟩
  exact hends ⟨before, a, after ++ more, by simp, ha⟩

/-- A session whose end was told is over, or its pump has only to end. -/
theorem phase_of_hearsEnd (hends : ¬ LosesStart m defaults (accept host version) steps)
    {session : Session} (hs : host.sessions.length ≤ s)
    (hsession : (run m defaults (accept host version) steps).host.sessions[s]? = some session)
    (hheard : HearsEnd m defaults (accept host version) steps s) :
    session.pump.isOver = true ∨ session.pump.phase = .closing := by
  have howned := (owned_accept host version).run (managed_accept host version) hends
  have hpassing := (passing_accept Session.Passes host version).run m defaults steps
  rw [List.nil_append] at howned hpassing
  obtain ⟨k, hsaid⟩ := hheard.said
  rcases howned.heard k s _ hsaid with htaken | ⟨-, hfinished⟩
  · have hphase := (hpassing.each s session hs hsession).phase_of_stopped
      (mem_takenFrom_iff.2 htaken)
    rcases hphase with hphase | hphase
    · exact .inr hphase
    · exact .inl (by simp [Pump.isOver, hphase])
  · exact .inl (by rwa [Host.isFinished_eq hsession] at hfinished)

/-- A start message is refused by the reader exactly if the slot is taken. -/
theorem takeMessage_start (defaults : Defaults) {o : Overrides} (hreading : c.reader = .reading)
    (hread : Request.read? text = some (.start o)) :
    c.slot ≠ .empty ∧ (c.takeMessage defaults text).reader = .replying busy ∨
    c.slot = .empty ∧ (c.takeMessage defaults text).reader = .reading ∧
      (c.takeMessage defaults text).slot = .starting ∧
      (c.takeMessage defaults text).tasks = c.tasks ++
        [.starting (o.profile defaults.profile) (o.backend.getD defaults.backend)] := by
  simp only [takeMessage, hreading, hread, takeRequest]
  cases hs : c.slot with
  | empty =>
    simp only [Slot.reserve?]
    exact .inr ⟨trivial, rfl, rfl, rfl⟩
  | starting | cancelled | active => exact .inl ⟨by simp, rfl⟩

/-- A start fails as the start on the host does. -/
theorem taskStep_failed_iff {k : Nat} {profile : Profile} {b : Backend} {env : ProvisionEnv}
    {e : Error} (ht : c.tasks[k]? = some (.starting profile b)) :
    (c.taskStep m env k).tasks[k]? = some (.failed e) ↔
      (c.host.start m env profile b).1 = .error (.error e) := by
  have hk := (List.getElem?_eq_some_iff.1 ht).1
  simp only [taskStep, ht, Connection.start]
  rcases c.host.start m env profile b with ⟨(x | _) | s, after⟩ <;> simp [setTask, hk]

/-- The peer asks for a start while none is under way, and it has heard the end of the session in the
slot. -/
structure AsksAgain (m : Machine) (defaults : Defaults) (c : Connection) (steps : List Step)
    (text : String) (o : Overrides) : Prop where
  start : Request.read? text = some (.start o)
  reading : (run m defaults c steps).reader = .reading
  idle : (run m defaults c steps).slot.isPending = false
  heard : ∀ s, (run m defaults c steps).slot = .active s → HearsEnd m defaults c steps s

/-- All sessions that ran before are over, and the peer has heard the end of all others that are
not. -/
def OthersOver (m : Machine) (defaults : Defaults) (c : Connection) (steps : List Step) : Prop :=
  ∀ j, j < (run m defaults c steps).host.sessions.length →
    (run m defaults c steps).host.isFinished j = true ∨
      c.host.sessions.length ≤ j ∧ HearsEnd m defaults c steps j

/-- The slot is taken only while the task of a session of which the peer has heard the end has still to
give it back. -/
theorem AsksAgain.releasing {o : Overrides}
    (hasks : AsksAgain m defaults (accept host version) steps text o)
    (hends : ¬ LosesStart m defaults (accept host version) steps)
    (htaken : (run m defaults (accept host version) steps).slot ≠ .empty) :
    ∃ s, (run m defaults (accept host version) steps).slot = .active s ∧
      .releasing s ∈ (run m defaults (accept host version) steps).tasks := by
  have howned := (owned_accept host version).run (managed_accept host version) hends
  rw [List.nil_append] at howned
  have hidle := hasks.idle
  cases hs : (run m defaults (accept host version) steps).slot with
  | empty => exact absurd hs htaken
  | starting | cancelled =>
    rw [hs] at hidle
    cases hidle
  | active s =>
    obtain ⟨k, hsaid⟩ := (hasks.heard s hs).said
    exact ⟨s, rfl, howned.releasing_of_stopped hs hsaid⟩

/-- If all others are over, a lock is held exactly by a session of which only the pump has still to
end. -/
theorem OthersOver.isLocked_iff
    (hothers : OthersOver m defaults (accept host version) steps)
    (hends : ¬ LosesStart m defaults (accept host version) steps) (lock : Nat) :
    (run m defaults (accept host version) steps).host.isLocked lock = true ↔
      ∃ session ∈ (run m defaults (accept host version) steps).host.sessions,
        session.lock = lock ∧ session.pump.phase = .closing := by
  rw [Host.isLocked, List.any_eq_true]
  refine exists_congr fun session => and_congr_right fun hmem => ?_
  simp only [Bool.and_eq_true, decide_eq_true_eq, Session.holdsLock, Bool.not_eq_true']
  refine and_congr_right fun _ => ⟨fun hgoing => ?_, fun hclosing => ?_⟩
  · obtain ⟨j, hj⟩ := List.mem_iff_getElem?.1 hmem
    have hnot : (run m defaults (accept host version) steps).host.isFinished j ≠ true := by
      rw [Host.isFinished_eq hj, hgoing]
      exact Bool.false_ne_true
    obtain ⟨hnew, htold⟩ := (hothers j (List.getElem?_eq_some_iff.1 hj).1).resolve_left hnot
    refine (phase_of_hearsEnd hends hnew hj htold).resolve_left fun hover => ?_
    rw [hgoing] at hover
    cases hover
  · simp [Pump.isOver, hclosing]

/-- A start that a peer asks for after it has heard the end of its session is refused by the reader
exactly if the task of that session has still to give the slot back. If it is let in, it finds the
install path locked exactly if the lock is held by a session of which only the pump has still to
end. -/
theorem busy_after_stopped_iff (m : Machine) (defaults : Defaults) (host : Host)
    (version text : String) (steps more : List Step) (o : Overrides)
    (hends : ¬ LosesStart m defaults (accept host version) (steps ++ .message text :: more))
    (hasks : AsksAgain m defaults (accept host version) steps text o) :
    let c := run m defaults (accept host version) steps
    let d := step m defaults c (.message text)
    let e := run m defaults (accept host version) (steps ++ .message text :: more)
    (d.reader = .replying busy ↔ ∃ s, c.slot = .active s ∧ .releasing s ∈ c.tasks) ∧
    (d.reader ≠ .replying busy → d.slot = .starting ∧ d.tasks = c.tasks ++
      [.starting (o.profile defaults.profile) (o.backend.getD defaults.backend)]) ∧
    ∀ env profile b path, env.FetchesUnlocked →
      OthersOver m defaults (accept host version) (steps ++ .message text :: more) →
      e.tasks[c.tasks.length]? = some (.starting profile b) →
      ((step m defaults e (.task c.tasks.length env)).tasks[c.tasks.length]? =
          some (.failed (.sessionBusy path)) ↔
        ∃ d lock d' session, e.host.Opens env profile b path d lock d' ∧
          session ∈ e.host.sessions ∧ session.lock = lock ∧ session.pump.phase = .closing) := by
  intro c d e
  have htaken := takeMessage_start defaults hasks.reading hasks.start
  refine ⟨⟨fun hbusy => ?_, ?_⟩, fun hfree => ?_, ?_⟩
  · rcases htaken with ⟨hslot, -⟩ | ⟨-, hr, -⟩
    · exact hasks.releasing (not_losesStart_append hends) hslot
    · cases hr.symm.trans hbusy
  · rintro ⟨s, hs, -⟩
    rcases htaken with ⟨-, hbusy⟩ | ⟨hempty, -⟩
    · exact hbusy
    · cases hs.symm.trans hempty
  · rcases htaken with ⟨-, hbusy⟩ | ⟨-, -, hslot, htasks⟩
    · exact absurd hbusy hfree
    · exact ⟨hslot, htasks⟩
  · intro env profile b path hfetch hothers hstarter
    rw [step, taskStep_failed_iff hstarter, Host.start_busy_iff hfetch]
    constructor
    · rintro ⟨d, lock, d', hopens, hlocked⟩
      obtain ⟨session, hmem, hlock, hclosing⟩ := (hothers.isLocked_iff hends lock).1 hlocked
      exact ⟨d, lock, d', session, hopens, hmem, hlock, hclosing⟩
    · rintro ⟨d, lock, d', session, hopens, hmem, hlock, hclosing⟩
      exact ⟨d, lock, d', hopens,
        (hothers.isLocked_iff hends lock).2 ⟨session, hmem, hlock, hclosing⟩⟩

/-! A session that fails at once -/

def startText : String := "[\"start_session\",null,null,null,null,null,null,null]"

/-- The end of the first session is heard. Its pump has made some steps, and its task some after the
announcement. -/
def afterEnd (looks acts : Nat) : List Step :=
  [.message startText] ++ List.replicate 3 (.task 0 noFetch) ++ List.replicate looks (look 0) ++
    List.replicate acts (.task 0 noFetch) ++ List.replicate 3 .deliver

def ended (looks acts : Nat) : Connection :=
  run bareMachine simulating (accept bareHost "1") (afterEnd looks acts)

/-- The connection when the peer has asked for another session. -/
def askedAgain (looks acts : Nat) : Connection :=
  run bareMachine simulating (accept bareHost "1") (afterEnd looks acts ++ [.message startText])

theorem not_losesStart_afterEnd (looks acts : Nat) : ¬ LosesStart bareMachine simulating
    (accept bareHost "1") (afterEnd looks acts ++ [.message startText]) := by
  refine not_losesStart_of_isTimely ?_
  have htimely : (noFetch.now.add? noFetch.timeout).isSome = true := by decide
  simp [afterEnd, look, Step.isTimely, htimely]

theorem fetchesUnlocked_noFetch : noFetch.FetchesUnlocked := by
  intro url deadline path h
  cases h

theorem asksAgain_afterEnd {looks acts : Nat} (hreading : (ended looks acts).reader.isReading = true)
    (hslot : (ended looks acts).slot = .empty ∨ (ended looks acts).slot = .active 0)
    (hheard : (heard bareMachine simulating (accept bareHost "1")
      (afterEnd looks acts))[2]?.bind Report.stopped? = some 0) :
    AsksAgain bareMachine simulating (accept bareHost "1") (afterEnd looks acts) startText {} := by
  refine ⟨by decide +kernel, Reader.eq_reading hreading, ?_, fun s hs => ?_⟩
  · change (ended looks acts).slot.isPending = false
    rcases hslot with hslot | hslot <;> rw [hslot] <;> rfl
  · change (ended looks acts).slot = .active s at hs
    rcases hslot with hslot | hslot <;> rw [hslot] at hs <;> cases hs
    exact hearsEnd_of_getElem? hheard

/-- The slot was given back and the pump has ended. -/
theorem ended_facts : (ended 5 5).reader.isReading = true ∧ (ended 5 5).slot = .empty ∧
    (heard bareMachine simulating (accept bareHost "1") (afterEnd 5 5))[2]?.bind
      Report.stopped? = some 0 ∧
    (askedAgain 5 5).host.sessions.all (fun s => s.pump.phase = .done) = true := by
  decide +kernel

theorem busy_after_stopped_iff_let_in :
    HearsEnd bareMachine simulating (accept bareHost "1") (afterEnd 5 5) 0 ∧
    (step bareMachine simulating (ended 5 5) (.message startText)).reader ≠ .replying busy ∧
    ∀ path, (step bareMachine simulating (askedAgain 5 5)
      (.task (ended 5 5).tasks.length noFetch)).tasks[(ended 5 5).tasks.length]? ≠
        some (.failed (.sessionBusy path)) := by
  obtain ⟨hreading, hslot, hheard, hdone⟩ := ended_facts
  have hasks := asksAgain_afterEnd hreading (.inl hslot) hheard
  unfold askedAgain ended at *
  simp only [List.all_eq_true, decide_eq_true_eq] at hdone
  obtain ⟨hslot_iff, hlet, hlock⟩ := busy_after_stopped_iff bareMachine simulating bareHost "1"
    startText (afterEnd 5 5) [] {} (not_losesStart_afterEnd 5 5) hasks
  simp only [hslot, reduceCtorEq, false_and, exists_false, iff_false] at hslot_iff
  refine ⟨hearsEnd_of_getElem? hheard, hslot_iff, fun path hbusy => ?_⟩
  have hover : OthersOver bareMachine simulating (accept bareHost "1")
      (afterEnd 5 5 ++ [.message startText]) := by
    intro j hj
    refine .inl ?_
    rw [Host.isFinished_eq (List.getElem?_eq_getElem hj), Pump.isOver,
      hdone _ (List.getElem_mem hj)]
    rfl
  obtain ⟨-, htasks⟩ := hlet hslot_iff
  obtain ⟨-, -, -, s, -, hs, -, hclosing⟩ := (hlock noFetch _ _ path fetchesUnlocked_noFetch hover
    (by rw [run_message, htasks, List.getElem?_concat_length])).1 hbusy
  rw [hdone s hs] at hclosing
  cases hclosing

/-- The end of the session has been told, but its task still has the slot. -/
theorem unreleased_facts : (ended 5 4).reader.isReading = true ∧ (ended 5 4).slot = .active 0 ∧
    (heard bareMachine simulating (accept bareHost "1") (afterEnd 5 4))[2]?.bind
      Report.stopped? = some 0 := by
  decide +kernel

/-- The end of the session has been told, but its pump still has the lock. -/
theorem unlocked_facts : (ended 3 5).reader.isReading = true ∧ (ended 3 5).slot = .empty ∧
    (heard bareMachine simulating (accept bareHost "1") (afterEnd 3 5))[2]?.bind
      Report.stopped? = some 0 ∧
    (askedAgain 3 5).host.sessions.length = 1 ∧
    (heard bareMachine simulating (accept bareHost "1")
      (afterEnd 3 5 ++ [.message startText]))[2]?.bind Report.stopped? = some 0 ∧
    ((step bareMachine simulating (askedAgain 3 5)
      (.task (ended 3 5).tasks.length noFetch)).tasks[(ended 3 5).tasks.length]?).bind
        Task.failure? = some (.sessionBusy "/simulated") := by
  decide +kernel

/-- A start can be refused after the end of the last session was heard, by the slot and by the
lock. -/
theorem not_always_welcome :
    (¬ ∀ (m : Machine) (defaults : Defaults) (host : Host) (version text : String)
      (steps : List Step) (o : Overrides),
      ¬ LosesStart m defaults (accept host version) (steps ++ [.message text]) →
      AsksAgain m defaults (accept host version) steps text o →
      (step m defaults (run m defaults (accept host version) steps) (.message text)).reader ≠
        .replying busy) ∧
    ¬ ∀ (m : Machine) (defaults : Defaults) (host : Host) (version text : String)
      (steps : List Step) (o : Overrides) (env : ProvisionEnv) (path : Path),
      ¬ LosesStart m defaults (accept host version) (steps ++ [.message text]) →
      AsksAgain m defaults (accept host version) steps text o →
      OthersOver m defaults (accept host version) (steps ++ [.message text]) →
      env.FetchesUnlocked →
      (step m defaults (run m defaults (accept host version) (steps ++ [.message text]))
        (.task (run m defaults (accept host version) steps).tasks.length env)).tasks[
          (run m defaults (accept host version) steps).tasks.length]? ≠
        some (.failed (.sessionBusy path)) := by
  refine ⟨fun hall => ?_, fun hall => ?_⟩
  · obtain ⟨hreading, hslot, hheard⟩ := unreleased_facts
    have hasks := asksAgain_afterEnd hreading (.inr hslot) hheard
    unfold ended at *
    refine hall bareMachine simulating bareHost "1" startText (afterEnd 5 4) {}
      (not_losesStart_afterEnd 5 4) hasks ?_
    rcases takeMessage_start simulating hasks.reading hasks.start with ⟨-, hbusy⟩ |
      ⟨hempty, -⟩
    · exact hbusy
    · cases hslot.symm.trans hempty
  · obtain ⟨hreading, hslot, hheard, hone, hstill, hfailure⟩ := unlocked_facts
    have hasks := asksAgain_afterEnd hreading (.inl hslot) hheard
    unfold askedAgain ended at *
    obtain ⟨t, ht, hfailed⟩ := Option.bind_eq_some_iff.1 hfailure
    rw [Task.eq_failed hfailed] at ht
    refine hall bareMachine simulating bareHost "1" startText (afterEnd 3 5) {} noFetch
      "/simulated" (not_losesStart_afterEnd 3 5) hasks
      (fun j hj => .inr ⟨Nat.zero_le j, ?_⟩) fetchesUnlocked_noFetch ht
    rw [hone, Nat.lt_one_iff] at hj
    rw [hj]
    exact hearsEnd_of_getElem? hstill

end Connection
end RigWarden.Peer
