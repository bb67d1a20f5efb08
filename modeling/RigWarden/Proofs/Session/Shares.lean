import RigWarden.Proofs.Log.Lines
import RigWarden.Proofs.Log.Totals
import RigWarden.Proofs.Session.PumpStep

/-!
# Share totals of a session

A pump follows a log that only its own workers write to, one after the other, in pieces of any kind
between any two steps of the pump. Whatever the schedule, it has heard the lines that each worker
completed by the time of its end, and its totals are the sums of what they counted.
-/

namespace RigWarden

open Log Text

/-- A pump, what its workers wrote, and the events passed on so far. -/
structure LoggedSession where
  /-- What the log held at the start. -/
  before : Bytes
  pump : Pump
  earlier : List Bytes := []
  current : Bytes := []
  /-- The current worker may still write. -/
  writing : Bool := false
  sent : List Event := []

namespace LoggedSession

inductive Step where
  | write (bytes : Bytes)
  /-- The pump makes a step, and reads the log if it looks at it. -/
  | pump (o : Observation)

def start (b : Backend) (program : String) (policy : RestartPolicy) (grace : Duration)
    (before : Bytes) : LoggedSession :=
  { before := before, pump := .new b program policy grace (.fromEnd (.content before)) }

/-- What each worker wrote. One that could not be started wrote nothing. -/
def outputs (s : LoggedSession) : List Bytes := s.earlier ++ [s.current]

def log (s : LoggedSession) : Bytes := s.before ++ s.outputs.flatten

/-- Whether a worker may write after the pump went from one phase to another. One that was killed
may go on until the last look at the log. -/
def mayWrite (writing : Bool) (o : Observation) : Phase → Phase → Bool
  | .launching _, .draining => true
  | .polling, .settling _ => false
  | .terminating _ _, .finishing => writing && o.ended.isNone
  | .finishing, _ => false
  | _, _ => writing

/-- The pump has made a step. When it is about to start the next worker, a new output begins. -/
def advance (s : LoggedSession) (o : Observation) (p : Pump) (es : List Event) : LoggedSession :=
  let writing := mayWrite s.writing o s.pump.phase p.phase
  match s.pump.phase, p.phase with
  | .backingOff _, .launching _ =>
    { s with pump := p, earlier := s.outputs, current := [], writing := writing,
             sent := s.sent ++ es }
  | _, _ => { s with pump := p, writing := writing, sent := s.sent ++ es }

def look (s : LoggedSession) (o : Observation) : Observation := { o with log := .content s.log }

def step (s : LoggedSession) : Step → LoggedSession
  | .write bytes => if s.writing then { s with current := s.current ++ bytes } else s
  | .pump o =>
    let (p, es) := s.pump.step (s.look o)
    s.advance o p es

theorem step_write (s : LoggedSession) (bytes : Bytes) :
    s.step (.write bytes) =
      if s.writing then { s with current := s.current ++ bytes } else s := rfl

def run (s : LoggedSession) (steps : List Step) : LoggedSession := steps.foldl step s

@[simp] theorem run_nil (s : LoggedSession) : s.run [] = s := rfl

theorem run_cons (s : LoggedSession) (a : Step) (steps : List Step) :
    s.run (a :: steps) = (s.step a).run steps := rfl

/-- No worker writes in such a phase. -/
def Unwritten : Phase → Prop
  | .launching _ | .settling _ | .backingOff _ | .closing | .done => True
  | _ => False

/-- The whole log is read in such a phase. -/
def CaughtUp : Phase → Prop
  | .launching _ | .backingOff _ | .closing | .done => True
  | _ => False

theorem CaughtUp.unwritten {phase : Phase} (h : CaughtUp phase) : Unwritten phase := by
  cases phase <;> trivial

/-- The pump has read some of the current output, and said what follows from the lines so far. -/
structure FollowedTo (s : LoggedSession) (seen unread : Bytes) : Prop where
  current : s.current = seen ++ unread
  tailer : s.pump.tailer =
    ⟨(s.before ++ s.earlier.flatten ++ seen).length, unfinished (s.earlier.flatten ++ seen)⟩
  said : ((Event.readings s.sent).map Reading.figures, s.pump.tally) =
    followEach s.pump.backend (heard (s.earlier ++ [seen]))
  unwritten : Unwritten s.pump.phase → s.writing = false
  caughtUp : CaughtUp s.pump.phase → unread = []

def Followed (s : LoggedSession) : Prop := ∃ seen unread, s.FollowedTo seen unread

section steps

variable {s : LoggedSession} {seen unread : Bytes} {o : Observation}

theorem FollowedTo.write (h : s.FollowedTo seen unread) (hw : s.writing = true) (bytes : Bytes) :
    FollowedTo { s with current := s.current ++ bytes } seen (unread ++ bytes) where
  current := by rw [h.current, List.append_assoc]
  tailer := h.tailer
  said := h.said
  unwritten := h.unwritten
  caughtUp hc := by
    have hn := h.unwritten hc.unwritten
    simp [hw] at hn

theorem FollowedTo.unseen {p : Pump} {es : List Event} {writing : Bool}
    (h : s.FollowedTo seen unread) (ht : p.tailer = s.pump.tailer) (hy : p.tally = s.pump.tally)
    (hb : p.backend = s.pump.backend) (he : Event.readings es = [])
    (hw : Unwritten p.phase → writing = false) (hc : CaughtUp p.phase → unread = []) :
    FollowedTo { s with pump := p, writing := writing, sent := s.sent ++ es } seen unread where
  current := h.current
  tailer := ht.trans h.tailer
  said := by simpa [hy, hb, he] using h.said
  unwritten := hw
  caughtUp := hc

theorem FollowedTo.goOn {p : Pump} {es : List Event} {writing : Bool}
    (h : s.FollowedTo seen unread) (ht : p.tailer = s.pump.tailer) (hy : p.tally = s.pump.tally)
    (hb : p.backend = s.pump.backend) (he : Event.readings es = []) (hn : ¬ Unwritten p.phase) :
    Followed { s with pump := p, writing := writing, sent := s.sent ++ es } :=
  ⟨seen, unread, h.unseen ht hy hb he (fun hu => absurd hu hn) fun hc => absurd hc.unwritten hn⟩

/-- A look at the log, which finds all that was written so far. -/
theorem FollowedTo.read (h : s.FollowedTo seen unread) (o : Observation) :
    ∃ tailer tally, ∃ rs : List Reading,
      s.pump.drain (s.look o) =
        ({ s.pump with tailer := tailer, tally := tally }, rs.map .metrics) ∧
      ∀ {p : Pump} {es : List Event} {writing : Bool}, p.tailer = tailer → p.tally = tally →
        p.backend = s.pump.backend → Event.readings es = rs →
        (Unwritten p.phase → writing = false) →
        Followed { s with pump := p, writing := writing, sent := s.sent ++ es } := by
  have hlog : s.log = (s.before ++ s.earlier.flatten ++ seen) ++ unread := by
    simp [log, outputs, h.current]
  have hpending : s.pump.tailer.pending = unfinished (s.earlier.flatten ++ seen) :=
    congrArg Tailer.pending h.tailer
  have hpoll := Tailer.poll_append (congrArg Tailer.position h.tailer) unread
  rw [← hlog, hpending] at hpoll
  have hfollow := s.pump.tally.ingestAll_eq_follow s.pump.backend o.now
    (completeLines (unfinished (s.earlier.flatten ++ seen) ++ unread))
  refine ⟨_, _, _, by simp only [Pump.drain, look, hpoll]; rfl, ?_⟩
  intro p es writing ht hy hb he hw
  refine ⟨s.current, [], (List.append_nil _).symm, ?_, ?_, hw, fun _ => rfl⟩
  · rw [ht, h.current, hlog, ← unfinished_append]
    simp
  · have hlast := followEach_snoc_append s.pump.backend (heard s.earlier)
      (completeLines (unfinished s.earlier.flatten ++ seen))
      (completeLines (unfinished (s.earlier.flatten ++ seen) ++ unread))
    rw [← heard_snoc_append, ← heard_snoc, ← h.said, ← h.current, ← hfollow] at hlast
    rw [hy, hb, Event.readings_append, he, List.map_append]
    exact hlast.symm

/-- The next worker begins once all that the last one wrote is read. -/
theorem FollowedTo.restart {p : Pump} {writing : Bool} (h : s.FollowedTo seen [])
    (ht : p.tailer = s.pump.tailer) (hy : p.tally = s.pump.tally.restarted)
    (hb : p.backend = s.pump.backend) (hw : writing = false) :
    FollowedTo { s with pump := p, earlier := s.outputs, current := [], writing := writing,
                        sent := s.sent ++ [] } [] [] where
  current := rfl
  tailer := by
    rw [ht, h.tailer]
    simp [outputs, h.current]
  said := by
    have hcurrent : s.current = seen := by simp [h.current]
    have hnil : completeLines (unfinished s.outputs.flatten ++ []) = [] := by
      rw [List.append_nil, completeLines_eq, rawLines_of_notMem (lineFeed_notMem_unfinished _)]
      rfl
    rw [heard_snoc, hnil, followEach_snoc_nil, outputs, hcurrent, hb, ← h.said, hy]
    simp
  unwritten _ := hw
  caughtUp _ := rfl

theorem step_pump (s : LoggedSession) (o : Observation) :
    s.step (.pump o) =
      s.advance o (s.pump.step (s.look o)).1 (s.pump.step (s.look o)).2 := rfl

theorem advance_of_ne {p : Pump} {es : List Event} (h : ∀ n, s.pump.phase ≠ .backingOff n) :
    s.advance o p es =
      { s with pump := p, writing := mayWrite s.writing o s.pump.phase p.phase,
               sent := s.sent ++ es } := by
  unfold advance
  split
  next n _ hp _ => exact absurd hp (h n)
  next => rfl

theorem FollowedTo.launching (h : s.FollowedTo seen unread) {n : Nat}
    (hp : s.pump.phase = .launching n) : (s.step (.pump o)).Followed := by
  obtain ⟨_, _, phase, cs, hl, hphase⟩ := s.pump.launch_cases (s.look o) n
  rw [step_pump, advance_of_ne (by simp [hp]), Pump.step_launching hp, hl]
  refine h.goOn rfl rfl rfl (by simp) ?_
  rcases hphase with rfl | rfl <;> exact id

theorem FollowedTo.draining (h : s.FollowedTo seen unread) (hp : s.pump.phase = .draining) :
    (s.step (.pump o)).Followed := by
  obtain ⟨tailer, tally, rs, hdrain, hread⟩ := h.read o
  rw [step_pump, advance_of_ne (by simp [hp]), Pump.step_draining hp, hdrain]
  exact hread rfl rfl rfl (by simp) False.elim

theorem FollowedTo.polling (h : s.FollowedTo seen unread) (hp : s.pump.phase = .polling) :
    (s.step (.pump o)).Followed := by
  obtain ⟨_, _, phase, hl, hphase⟩ := Pump.step_polling_cases hp (s.look o)
  rw [step_pump, advance_of_ne (by simp [hp]), hl]
  rcases hphase with rfl | ⟨e, rfl⟩
  · exact h.goOn rfl rfl rfl (by simp) id
  · refine ⟨seen, unread, h.unseen rfl rfl rfl (by simp) (fun _ => ?_) False.elim⟩
    simp only [hp, mayWrite]

theorem FollowedTo.settling (h : s.FollowedTo seen unread) {e : WorkerExit}
    (hp : s.pump.phase = .settling e) : (s.step (.pump o)).Followed := by
  obtain ⟨tailer, tally, rs, hdrain, hread⟩ := h.read o
  obtain ⟨phase, c, ha, hphase⟩ := (s.pump.drain (s.look o)).1.afterExit_cases e
  have hw : s.writing = false := h.unwritten (by rw [hp]; trivial)
  rw [step_pump, advance_of_ne (by simp [hp]), Pump.step_settling hp, ha, hdrain]
  refine hread rfl rfl rfl (by simp) fun _ => ?_
  rcases hphase with rfl | ⟨n, rfl⟩ <;> simpa only [hp, mayWrite, Pump.goTo] using hw

theorem FollowedTo.backingOff (h : s.FollowedTo seen unread) {n : Nat}
    (hp : s.pump.phase = .backingOff n) : (s.step (.pump o)).Followed := by
  have hw : s.writing = false := h.unwritten (by rw [hp]; trivial)
  have hu : unread = [] := h.caughtUp (by rw [hp]; trivial)
  subst hu
  rw [step_pump]
  cases ha : (s.look o).stopAsked with
  | true =>
    rw [Pump.step_backingOff_asked hp ha]
    simp only [advance, hp, Pump.goTo]
    exact h.goOn rfl rfl rfl (by simp) id
  | false =>
    rw [Pump.step_backingOff hp ha]
    simp only [advance, hp, Pump.goTo]
    exact ⟨[], [], h.restart rfl rfl rfl hw⟩

theorem FollowedTo.waiting (h : s.FollowedTo seen unread) (hp : s.pump.phase = .waiting) :
    (s.step (.pump o)).Followed := by
  rw [step_pump, advance_of_ne (by simp [hp])]
  cases ha : (s.look o).stopAsked with
  | true =>
    rw [Pump.step_waiting_asked hp ha]
    exact h.goOn rfl rfl rfl (by simp) id
  | false =>
    rw [Pump.step_waiting hp ha]
    exact h.goOn rfl rfl rfl (by simp) id

theorem FollowedTo.stopping (h : s.FollowedTo seen unread) (hp : s.pump.phase = .stopping) :
    (s.step (.pump o)).Followed := by
  obtain ⟨_, _, phase, hl, hphase⟩ := s.pump.beginStop_cases (s.look o)
  rw [step_pump, advance_of_ne (by simp [hp]), Pump.step_stopping hp, hl]
  refine h.goOn rfl rfl rfl (by simp) ?_
  rcases hphase with rfl | ⟨w, deadline, rfl⟩ | rfl <;> exact id

theorem FollowedTo.terminating (h : s.FollowedTo seen unread) {w : Nat} {deadline : Clock}
    (hp : s.pump.phase = .terminating w deadline) : (s.step (.pump o)).Followed := by
  rw [step_pump, advance_of_ne (by simp [hp]), Pump.step_terminating hp]
  rcases s.pump.terminate_cases (s.look o) deadline with ht | ⟨e, ht⟩
  · rw [ht]
    exact h.goOn rfl rfl rfl (by simp) (by rw [hp]; exact id)
  · rw [ht]
    exact h.goOn rfl rfl rfl (by simp) id

theorem FollowedTo.finishing (h : s.FollowedTo seen unread) (hp : s.pump.phase = .finishing) :
    (s.step (.pump o)).Followed := by
  obtain ⟨tailer, tally, rs, hdrain, hread⟩ := h.read o
  rw [step_pump, advance_of_ne (by simp [hp]), Pump.step_finishing hp, hdrain]
  refine hread rfl rfl rfl (by simp) fun _ => ?_
  simp only [hp, mayWrite]

theorem FollowedTo.ending (h : s.FollowedTo seen unread)
    (hp : s.pump.phase = .closing ∨ s.pump.phase = .done) : (s.step (.pump o)).Followed := by
  have hw : s.writing = false := h.unwritten (by rcases hp with hp | hp <;> rw [hp] <;> trivial)
  have hu : unread = [] := h.caughtUp (by rcases hp with hp | hp <;> rw [hp] <;> trivial)
  rcases hp with hp | hp
  · rw [step_pump, advance_of_ne (by simp [hp]), Pump.step_closing hp]
    refine ⟨seen, unread, h.unseen rfl rfl rfl (by simp) (fun _ => ?_) fun _ => hu⟩
    simpa only [hp, mayWrite] using hw
  · rw [step_pump, advance_of_ne (by simp [hp]), Pump.step_done hp]
    refine ⟨seen, unread, h.unseen rfl rfl rfl (by simp) (fun _ => ?_) fun _ => hu⟩
    simpa only [hp, mayWrite] using hw

theorem FollowedTo.lost (h : s.FollowedTo seen unread) (hp : s.pump.phase = .lost) :
    (s.step (.pump o)).Followed := by
  rw [step_pump, advance_of_ne (by simp [hp]), Pump.step_lost hp]
  exact h.goOn rfl rfl rfl (by simp) (by rw [hp]; exact id)

theorem FollowedTo.pump (h : s.FollowedTo seen unread) (o : Observation) :
    (s.step (.pump o)).Followed := by
  cases hp : s.pump.phase with
  | launching n => exact h.launching hp
  | draining => exact h.draining hp
  | polling => exact h.polling hp
  | settling e => exact h.settling hp
  | backingOff n => exact h.backingOff hp
  | waiting => exact h.waiting hp
  | stopping => exact h.stopping hp
  | terminating w deadline => exact h.terminating hp
  | finishing => exact h.finishing hp
  | closing => exact h.ending (.inl hp)
  | done => exact h.ending (.inr hp)
  | lost => exact h.lost hp

theorem Followed.step (h : s.Followed) (a : Step) : (s.step a).Followed := by
  obtain ⟨seen, unread, h⟩ := h
  cases a with
  | write bytes =>
    rw [step_write]
    split
    next hw => exact ⟨seen, unread ++ bytes, h.write hw bytes⟩
    next => exact ⟨seen, unread, h⟩
  | pump o => exact h.pump o

theorem Followed.run (h : s.Followed) (steps : List Step) : (s.run steps).Followed := by
  induction steps generalizing s with
  | nil => exact h
  | cons a steps ih => exact ih (h.step a)

theorem pump_advance (s : LoggedSession) (o : Observation) (p : Pump) (es : List Event) :
    (s.advance o p es).pump = p := by
  unfold advance
  split <;> rfl

theorem settings_step (s : LoggedSession) (a : Step) :
    (s.step a).pump.settings = s.pump.settings := by
  cases a with
  | write bytes =>
    rw [step_write]
    split <;> rfl
  | pump o => exact (congrArg Pump.settings (s.pump_advance o _ _)).trans (s.pump.settings_step _)

theorem settings_run (s : LoggedSession) (steps : List Step) :
    (s.run steps).pump.settings = s.pump.settings := by
  induction steps generalizing s with
  | nil => rfl
  | cons a steps ih => exact (ih (s.step a)).trans (s.settings_step a)

end steps

/-- The reports so far, without their times. -/
def reports (s : LoggedSession) : List Figures := (Event.readings s.sent).map Reading.figures

/-- All that the workers wrote has been read when the pump is done. -/
theorem Followed.reports_of_done {s : LoggedSession} (h : s.Followed) (hp : s.pump.phase = .done) :
    s.reports = (followEach s.pump.backend (heard s.outputs)).1 := by
  obtain ⟨seen, unread, h⟩ := h
  have hu : unread = [] := h.caughtUp (by rw [hp]; trivial)
  have hcurrent : s.current = seen := by rw [h.current, hu, List.append_nil]
  rw [outputs, hcurrent, ← h.said, reports]

end LoggedSession
end RigWarden
