import Mathlib.Data.List.Chain
import RigWarden.Proofs.Log.Digest
import RigWarden.Proofs.Simulator.Written
import RigWarden.Simulator.Rehearsal

/-!
# The log of a simulated run, read back

Every tick of a run adds a share at most, and the readings made of its log are the counters of the
ticks whose lines were written. A write that fails ends the run.
-/

namespace RigWarden.Simulator

open Text Number

/-! Ticks -/

namespace Counters

def shares (c : Counters) : Nat × Nat := (c.accepted, c.rejected)

/-- From the one to the other there is at most one share more. -/
structure Raises (a b : Counters) : Prop where
  accepted : a.accepted ≤ b.accepted
  rejected : a.rejected ≤ b.rejected
  total : b.accepted + b.rejected ≤ a.accepted + a.rejected + 1

theorem Raises.refl (c : Counters) : c.Raises c := ⟨Nat.le_refl _, Nat.le_refl _, Nat.le_succ _⟩

theorem tick_cases (c : Counters) (shareProbability : Float) (d : Draw) :
    (c.tick shareProbability d).shares ∈
      [c.shares, (c.accepted + 1, c.rejected), (c.accepted, c.rejected + 1)] := by
  simp only [tick, shares]
  cases decide (d.share < shareProbability) <;> cases decide (d.reject < rejectRatio) <;> simp

theorem raises_tick (c : Counters) (shareProbability : Float) (d : Draw) :
    c.Raises (c.tick shareProbability d) := by
  have hcases := tick_cases c shareProbability d
  simp only [shares, List.mem_cons, Prod.mk.injEq, List.not_mem_nil, or_false] at hcases
  exact ⟨by omega, by omega, by omega⟩

/-- Both counters fit their words. -/
def Fits (c : Counters) : Prop := c.accepted < limit64 ∧ c.rejected < limit64

end Counters

/-- A tick whose line was written. -/
structure Mark where
  now : Instant
  counters : Counters

def Mark.line (m : Mark) : String := speedLine m.now m.counters

namespace Run

section steps

variable (settings : Settings) (r : Run)

def run (steps : List Step) : Run := steps.foldl (step settings) r

/-- The tick of a step, if its line was written, with the counters that the run then has. -/
def mark? (s : Step) : Option Mark :=
  match s with
  | .tick _ now _ true _ =>
    if r.exit.isSome then none else some ⟨now, (r.step settings s).counters⟩
  | .tick _ _ _ false _ => none
  | .stop _ _ => none

def marks (r : Run) : List Step → List Mark
  | [] => []
  | s :: steps => (r.mark? settings s).toList ++ (r.step settings s).marks steps

/-- A write of the step fails. -/
def Loses : Step → Prop
  | .tick _ _ elapsed writes closes =>
    r.exit = none ∧ (writes = false ∨ settings.duration.total ≤ elapsed.total ∧ closes = false)
  | .stop _ closes => r.exit = none ∧ closes = false

@[simp] theorem run_nil : r.run settings [] = r := rfl

@[simp] theorem run_cons (s : Step) (steps : List Step) :
    r.run settings (s :: steps) = (r.step settings s).run settings steps := rfl

theorem run_append (steps more : List Step) :
    r.run settings (steps ++ more) = (r.run settings steps).run settings more :=
  List.foldl_append

variable {settings r}

theorem close_of_exit (h : r.exit.isSome) (elapsed : Duration) (succeeds : Bool) :
    r.close elapsed succeeds = r := by
  simp [close, write, finish, h]

theorem step_of_exit (h : r.exit.isSome) (s : Step) : r.step settings s = r := by
  cases s with
  | tick draw now elapsed writes closes =>
    have htick : r.tick settings.shareProbability draw now writes = r := if_pos h
    simp only [step, htick, close_of_exit h, ite_self]
  | stop elapsed closes => exact close_of_exit h elapsed closes

theorem run_of_exit (h : r.exit.isSome) (steps : List Step) : r.run settings steps = r := by
  induction steps with
  | nil => rfl
  | cons s steps ih => rw [run_cons, step_of_exit h, ih]

theorem marks_of_exit (h : r.exit.isSome) (steps : List Step) : r.marks settings steps = [] := by
  induction steps with
  | nil => rfl
  | cons s steps ih =>
    have hmark : r.mark? settings s = none := by
      cases s with
      | tick draw now elapsed writes closes => cases writes <;> simp [mark?, h]
      | stop elapsed closes => rfl
    rw [marks, hmark, step_of_exit h, ih]
    rfl

/-- Whatever a run writes last when it ends. -/
def IsEnding (lines : List String) : Prop := lines = [] ∨ ∃ elapsed, lines = [lastLine elapsed]

theorem close_live (h : r.exit = none) (elapsed : Duration) (closes : Bool) :
    r.close elapsed closes =
      if closes then { r with written := r.written ++ [lastLine elapsed], exit := some .success }
      else { r with exit := some lostLog } := by
  cases closes <;> simp [close, write, finish, h]

theorem counters_close (r : Run) (elapsed : Duration) (closes : Bool) :
    (r.close elapsed closes).counters = r.counters := by
  cases he : r.exit with
  | some exit => rw [close_of_exit (by simp [he])]
  | none =>
    rw [close_live he]
    cases closes <;> rfl

/-- The run with one more tick and its line. -/
def ticked (settings : Settings) (r : Run) (draw : Draw) (now : Instant) : Run :=
  { r with
    written := r.written ++ [speedLine now (r.counters.tick settings.shareProbability draw)]
    counters := r.counters.tick settings.shareProbability draw }

theorem step_tick_true (h : r.exit = none) (draw : Draw) (now : Instant) (elapsed : Duration)
    (closes : Bool) :
    r.step settings (.tick draw now elapsed true closes) =
      if settings.duration.total ≤ elapsed.total then (r.ticked settings draw now).close elapsed closes
      else r.ticked settings draw now := by
  have htick : r.tick settings.shareProbability draw now true = r.ticked settings draw now := by
    simp [tick, write, ticked, h]
  rw [step, htick]

theorem mark?_tick_true (h : r.exit = none) (draw : Draw) (now : Instant) (elapsed : Duration)
    (closes : Bool) :
    r.mark? settings (.tick draw now elapsed true closes) =
      some ⟨now, (r.ticked settings draw now).counters⟩ := by
  have hcounters : (r.step settings (.tick draw now elapsed true closes)).counters =
      (r.ticked settings draw now).counters := by
    rw [step_tick_true h]
    split
    · exact counters_close _ elapsed closes
    · rfl
  simp only [mark?, h, Option.isSome_none, Bool.false_eq_true, if_false, hcounters]

theorem step_tick_false (h : r.exit = none) (draw : Draw) (now : Instant) (elapsed : Duration)
    (closes : Bool) :
    r.step settings (.tick draw now elapsed false closes) =
      { r with
        counters := r.counters.tick settings.shareProbability draw
        exit := some lostLog } := by
  have htick : r.tick settings.shareProbability draw now false =
      { r with
        counters := r.counters.tick settings.shareProbability draw
        exit := some lostLog } := by
    simp [tick, write, h]
  rw [step, htick, close_of_exit rfl, ite_self]

/-- What a step of a run that goes on does. -/
structure Stepped (r r' : Run) (mark : Option Mark) : Prop where
  raises : r.counters.Raises r'.counters
  counters : ∀ m ∈ mark, m.counters = r'.counters
  unmarked : mark = none → r'.exit.isSome
  written : ∃ ending, IsEnding ending ∧ (r'.exit = none → ending = []) ∧
    r'.written = r.written ++ mark.toList.map Mark.line ++ ending

theorem stepped_close (h : r.exit = none) (elapsed : Duration) (closes : Bool) :
    Stepped r (r.close elapsed closes) none := by
  rw [close_live h]
  cases closes with
  | true =>
    exact ⟨.refl _, nofun, fun _ => rfl, [lastLine elapsed], .inr ⟨elapsed, rfl⟩, nofun, by simp⟩
  | false => exact ⟨.refl _, nofun, fun _ => rfl, [], .inl rfl, fun _ => rfl, by simp⟩

theorem stepped (settings : Settings) (h : r.exit = none) (s : Step) :
    Stepped r (r.step settings s) (r.mark? settings s) := by
  cases s with
  | stop elapsed closes => exact stepped_close h elapsed closes
  | tick draw now elapsed writes closes =>
    have hraises := r.counters.raises_tick settings.shareProbability draw
    cases writes with
    | false =>
      rw [step_tick_false h]
      exact ⟨hraises, nofun, fun _ => rfl, [], .inl rfl, fun _ => rfl, by simp [mark?]⟩
    | true =>
      have hwritten : (r.ticked settings draw now).written =
          r.written ++ [speedLine now (r.ticked settings draw now).counters] := rfl
      rw [step_tick_true h, mark?_tick_true h]
      split
      · obtain ⟨-, -, hended, ending, hending, hlive, hclosed⟩ :=
          stepped_close (r := r.ticked settings draw now) h elapsed closes
        refine ⟨?_, ?_, nofun, ending, hending, hlive, ?_⟩
        · rw [counters_close]
          exact hraises
        · rw [counters_close]
          simp
        · simp [hclosed, hwritten, Mark.line]
      · exact ⟨hraises, by simp, nofun, [], .inl rfl, fun _ => rfl, by simp [hwritten, Mark.line]⟩

theorem raises_step (settings : Settings) (r : Run) (s : Step) :
    r.counters.Raises (r.step settings s).counters := by
  cases he : r.exit with
  | none => exact (stepped settings he s).raises
  | some exit =>
    rw [step_of_exit (by simp [he])]
    exact .refl _

/-- A run writes the lines of its marks in order, and then at most a last one. -/
theorem written_run (h : r.exit = none) (steps : List Step) :
    ∃ ending, IsEnding ending ∧
      (r.run settings steps).written = r.written ++ (r.marks settings steps).map Mark.line ++ ending := by
  induction steps generalizing r with
  | nil => exact ⟨[], .inl rfl, by simp [marks]⟩
  | cons s steps ih =>
    obtain ⟨first, hfirst, hlive, hstep⟩ := (stepped settings h s).written
    rw [run_cons, marks]
    cases he : (r.step settings s).exit with
    | none =>
      obtain ⟨ending, hending, hrun⟩ := ih he
      exact ⟨ending, hending, by rw [hrun, hstep, hlive he]; simp⟩
    | some exit =>
      have hsome : (r.step settings s).exit.isSome := by simp [he]
      exact ⟨first, hfirst, by rw [run_of_exit hsome, marks_of_exit hsome, hstep]; simp⟩

/-- Each mark follows the one before it. -/
theorem raises_marks (h : r.exit = none) (steps : List Step) :
    List.IsChain Counters.Raises (r.counters :: (r.marks settings steps).map Mark.counters) := by
  induction steps generalizing r with
  | nil => exact List.isChain_singleton _
  | cons s steps ih =>
    have hs := stepped settings h s
    rw [marks]
    cases hm : r.mark? settings s with
    | none =>
      rw [marks_of_exit (hs.unmarked hm)]
      exact List.isChain_singleton _
    | some m =>
      have hcounters : m.counters = (r.step settings s).counters := hs.counters m hm
      have hfirst : r.counters.Raises m.counters := hcounters ▸ hs.raises
      cases he : (r.step settings s).exit with
      | none =>
        have hrest := ih he
        rw [← hcounters] at hrest
        exact List.isChain_cons_cons.2 ⟨hfirst, hrest⟩
      | some exit =>
        rw [marks_of_exit (by simp [he])]
        exact List.isChain_cons_cons.2 ⟨hfirst, List.isChain_singleton _⟩

/-- A write that fails ends the run; what the step has written before it are the lines of ticks. -/
theorem step_of_loses {s : Step} (h : r.Loses settings s) :
    (r.step settings s).exit = some lostLog ∧
      (r.step settings s).written = r.written ++ (r.mark? settings s).toList.map Mark.line := by
  cases s with
  | stop elapsed closes =>
    obtain ⟨he, rfl⟩ := h
    have hstep : r.step settings (.stop elapsed false) = { r with exit := some lostLog } :=
      close_live he elapsed false
    rw [hstep]
    exact ⟨rfl, by simp [mark?]⟩
  | tick draw now elapsed writes closes =>
    obtain ⟨he, hfails⟩ := h
    cases writes with
    | false =>
      rw [step_tick_false he]
      exact ⟨rfl, by simp [mark?]⟩
    | true =>
      obtain ⟨hlasted, rfl⟩ := hfails.resolve_left Bool.noConfusion
      rw [step_tick_true he, mark?_tick_true he, if_pos hlasted,
        close_live (r := r.ticked settings draw now) he]
      exact ⟨rfl, by simp [ticked, Mark.line]⟩

end steps

end Run

/-! Reading the log -/

open Log

/-- The counters that a figure shows. -/
def sharesOf (f : Figures) : Nat × Nat := (f.accepted, f.rejected)

/-- A tally that has heard of some counters, and of no worker before. -/
structure Heard (t : Tally) (c : Counters) : Prop where
  accepted : t.accepted = c.accepted
  rejected : t.rejected = c.rejected
  baseAccepted : t.baseAccepted = 0
  baseRejected : t.baseRejected = 0

theorem Heard.add {t : Tally} {a b : Counters} (h : Heard t a) (hraises : a.Raises b) {s : Sample}
    (haccepted : s.accepted = some b.accepted) (hrejected : s.rejected = some b.rejected) :
    Heard (t.add s) b where
  accepted := by
    simp only [Tally.add, Tally.raise, haccepted, h.accepted, h.baseAccepted, Nat.zero_add]
    exact Nat.max_eq_right hraises.accepted
  rejected := by
    simp only [Tally.add, Tally.raise, hrejected, h.rejected, h.baseRejected, Nat.zero_add]
    exact Nat.max_eq_right hraises.rejected
  baseAccepted := h.baseAccepted
  baseRejected := h.baseRejected

theorem follow_marks {t : Tally} {c : Counters} (h : Heard t c) {ms : List Mark}
    (hraises : List.IsChain Counters.Raises (c :: ms.map Mark.counters))
    (hfits : ∀ m ∈ ms, m.counters.Fits) :
    (t.follow .simulated (ms.map fun m => m.line.toList)).1.map sharesOf =
      ms.map (·.counters.shares) := by
  induction ms generalizing t c with
  | nil => rfl
  | cons m ms ih =>
    obtain ⟨hfirst, hrest⟩ := List.isChain_cons_cons.1 hraises
    obtain ⟨hm, hms⟩ := List.forall_mem_cons.1 hfits
    obtain ⟨s, hread, haccepted, hrejected⟩ := read_speedLine m.now hm.1 hm.2
    have hline : Backend.simulated.readLine m.line.toList = some s := hread
    have hadd := h.add hfirst haccepted hrejected
    have hhead : sharesOf ((t.add s).figures s.status) = m.counters.shares :=
      Prod.ext hadd.accepted hadd.rejected
    rw [List.map_cons, Tally.follow_cons_some t .simulated hline, List.map_cons, hhead,
      ih hadd hrest hms, List.map_cons]

/-- Lines that say nothing are passed over. -/
theorem follow_quiet (t : Tally) {lines : List Chars}
    (h : ∀ line ∈ lines, Log.Simulated.read line = none) : t.follow .simulated lines = ([], t) := by
  induction lines with
  | nil => rfl
  | cons line lines ih =>
    obtain ⟨hline, hlines⟩ := List.forall_mem_cons.1 h
    rw [Tally.follow_cons_none t .simulated hline, ih hlines]

theorem Run.IsEnding.quiet {ending : List String} (h : Run.IsEnding ending) :
    ∀ line ∈ ending.map String.toList, Log.Simulated.read line = none := by
  obtain rfl | ⟨elapsed, rfl⟩ := h
  · exact nofun
  · simpa using read_lastLine elapsed

theorem Run.IsEnding.loggable {ending : List String} (h : Run.IsEnding ending) :
    ∀ line ∈ ending, Loggable line.toList := by
  obtain rfl | ⟨elapsed, rfl⟩ := h
  · exact nofun
  · simpa using loggable_lastLine elapsed

/-- What is read of a log: nothing of its opening and its end, and the counters of every mark. -/
theorem follow_written {opening ending : List String} {ms : List Mark} {c : Counters} {torn : Bytes}
    (hopening : ∀ line ∈ opening, Loggable line.toList ∧ Log.Simulated.read line.toList = none)
    (hending : Run.IsEnding ending) (hnew : Heard {} c)
    (hraises : List.IsChain Counters.Raises (c :: ms.map Mark.counters))
    (hfits : ∀ m ∈ ms, m.counters.Fits) (htorn : lineFeed ∉ torn) :
    (Tally.follow .simulated {} (completeLines
      ((opening ++ ms.map Mark.line ++ ending).flatMap lineBytes ++ torn))).1.map sharesOf =
      ms.map (·.counters.shares) := by
  have hall : ∀ line ∈ opening ++ ms.map Mark.line ++ ending, Loggable line.toList := by
    intro line hline
    simp only [List.mem_append, List.mem_map] at hline
    obtain (hline | ⟨m, -, rfl⟩) | hline := hline
    · exact (hopening line hline).1
    · exact loggable_speedLine m.now m.counters
    · exact hending.loggable line hline
  have hquiet : ∀ line ∈ opening.map String.toList, Log.Simulated.read line = none := by
    rw [List.forall_mem_map]
    exact fun line hline => (hopening line hline).2
  rw [completeLines_lines hall htorn, List.map_append, List.map_append, Tally.follow_append,
    Tally.follow_append, follow_quiet _ hquiet, follow_quiet _ hending.quiet, List.map_map,
    List.nil_append, List.append_nil]
  exact follow_marks hnew hraises hfits

/-- The opening of a run that reads its configuration, or fails to for a known reason. -/
theorem Run.start_known {config : Except SystemError String}
    (hknown : ∀ text, config ≠ .error (.other text))
    (hbanner : ∀ text, config = .ok text →
      Log.Simulated.read (banner (KeyValue.parse text)).toList = none)
    (hashrate : Float) (opens : Bool) :
    ∀ line ∈ (Run.start config hashrate opens).written,
      Loggable line.toList ∧ Log.Simulated.read line.toList = none := by
  cases opens with
  | false => cases config <;> exact nofun
  | true =>
    cases config with
    | ok text =>
      intro line hline
      obtain rfl := List.mem_singleton.1 hline
      exact ⟨loggable_banner text, hbanner text rfl⟩
    | error cause =>
      have hcause : ∀ text, cause ≠ .other text := fun text h => hknown text (by rw [h])
      intro line hline
      obtain rfl := List.mem_singleton.1 hline
      exact ⟨loggable_unreadable hcause, read_unreadable hcause⟩

theorem Run.counters_start (config : Except SystemError String) (hashrate : Float) (opens : Bool) :
    (Run.start config hashrate opens).counters = ⟨hashrate, 0, 0⟩ := by
  cases config <;> cases opens <;> rfl

theorem Run.start_false (config : Except SystemError String) (hashrate : Float) :
    (Run.start config hashrate false).exit.isSome ∧
      (Run.start config hashrate false).written = [] := by
  cases config <;> exact ⟨rfl, rfl⟩

namespace Run

variable {settings : Settings} {r : Run}

theorem written_of_run (settings : Settings) (r : Run) (steps : List Step) :
    ∃ ending, IsEnding ending ∧
      (r.run settings steps).written = r.written ++ (r.marks settings steps).map Mark.line ++ ending := by
  cases he : r.exit with
  | none => exact written_run he steps
  | some exit =>
    have hsome : r.exit.isSome := by simp [he]
    exact ⟨[], .inl rfl, by rw [run_of_exit hsome, marks_of_exit hsome]; simp⟩

theorem raises_of_run (settings : Settings) (r : Run) (steps : List Step) :
    List.IsChain Counters.Raises (r.counters :: (r.marks settings steps).map Mark.counters) := by
  cases he : r.exit with
  | none => exact raises_marks he steps
  | some exit =>
    rw [marks_of_exit (by simp [he])]
    exact List.isChain_singleton _

/-- The shares at a mark are not more than the steps of the run. -/
theorem shares_le_of_mem_marks (settings : Settings) (r : Run) (steps : List Step) :
    ∀ m ∈ r.marks settings steps, m.counters.accepted + m.counters.rejected ≤
      r.counters.accepted + r.counters.rejected + steps.length := by
  induction steps generalizing r with
  | nil => exact nofun
  | cons s steps ih =>
    intro m hm
    have hraises := (raises_step settings r s).total
    rw [List.length_cons]
    rcases List.mem_append.1 hm with hm | hm
    · cases he : r.exit with
      | none =>
        rw [(stepped settings he s).counters m (Option.mem_toList.1 hm)]
        omega
      | some exit =>
        have hnone : r.marks settings [s] = [] := marks_of_exit (by simp [he]) [s]
        rw [marks, List.append_eq_nil_iff] at hnone
        rw [hnone.1] at hm
        cases hm
    · have hrest := ih (r.step settings s) m hm
      omega

/-- After a write that fails nothing more is written. -/
theorem run_of_loses {before after : List Step} {s : Step}
    (h : (r.run settings before).Loses settings s) :
    (r.run settings (before ++ s :: after)).exit = some lostLog ∧
      (r.run settings (before ++ s :: after)).written = (r.run settings before).written ++
        ((r.run settings before).mark? settings s).toList.map Mark.line := by
  have hstep := step_of_loses h
  rw [run_append, run_cons, run_of_exit (by simp [hstep.1])]
  exact hstep

end Run

theorem unfinished_lineBytes (line : String) : unfinished (lineBytes line) = [] := by
  have hbytes : lineBytes line = utf8 line ++ lineFeed :: [] := rfl
  rw [unfinished, hbytes, splitOn_append_sep, List.getLastD_eq_getLast?, List.getLast?_append]
  rfl

/-- A reason that is only a text is the whole log, and the run is over. -/
theorem follow_other {text : String} {torn : Bytes}
    (hother : ∀ line ∈ completeLines (lineBytes (unreadable (.other text))),
      Log.Simulated.read line = none) (htorn : lineFeed ∉ torn) (opens : Bool) (hashrate : Float) :
    (Tally.follow .simulated {} (completeLines
      ((Run.start (.error (.other text)) hashrate opens).written.flatMap lineBytes ++ torn))).1 = [] := by
  have hlines : ∀ line ∈ completeLines
      ((Run.start (.error (.other text)) hashrate opens).written.flatMap lineBytes ++ torn),
      Log.Simulated.read line = none := by
    cases opens with
    | false =>
      change ∀ line ∈ completeLines torn, _
      rw [completeLines_eq, rawLines_of_notMem htorn]
      exact nofun
    | true =>
      change ∀ line ∈ completeLines ([unreadable (.other text)].flatMap lineBytes ++ torn), _
      rw [List.flatMap_singleton, completeLines_append, unfinished_lineBytes, List.nil_append,
        completeLines_eq torn, rawLines_of_notMem htorn, List.map_nil, List.append_nil]
      exact hother
  rw [follow_quiet _ hlines]

/-- Cut into looks in any way, the log of a run is read as the counters of its ticks. -/
theorem readings_of_run (settings : Settings) (config : Except SystemError String) (hashrate : Float)
    (opens : Bool) (steps : List Step) (torn : Bytes) (looks : List Digest.Step) (now : Instant)
    (hbanner : ∀ text, config = .ok text →
      Log.Simulated.read (banner (KeyValue.parse text)).toList = none)
    (hother : ∀ text, config = .error (.other text) →
      ∀ line ∈ completeLines (lineBytes (unreadable (.other text))),
        Log.Simulated.read line = none)
    (hfits : ∀ m ∈ (Run.start config hashrate opens).marks settings steps, m.counters.Fits)
    (htorn : lineFeed ∉ torn)
    (hlooks : looks.flatMap Digest.Step.bytes =
      ((Run.start config hashrate opens).run settings steps).written.flatMap lineBytes ++ torn) :
    let start := Run.start config hashrate opens
    (∃ ending, Run.IsEnding ending ∧ (start.run settings steps).written =
      start.written ++ (start.marks settings steps).map Mark.line ++ ending) ∧
    ((({} : Digest).run .simulated looks).step .simulated (.look now .plain)).readings.map
        (fun r => (r.accepted, r.rejected)) =
      (start.marks settings steps).map (·.counters.shares) ∧
    (∀ before s, (start.run settings before).counters.Raises
      ((start.run settings before).step settings s).counters) ∧
    (opens = false → (start.run settings steps).exit.isSome ∧ (start.run settings steps).written = []) ∧
    (∀ before s after, steps = before ++ s :: after → (start.run settings before).Loses settings s →
      (start.run settings steps).exit = some Run.lostLog ∧
      (start.run settings steps).written = (start.run settings before).written ++
        ((start.run settings before).mark? settings s).toList.map Mark.line) := by
  intro start
  obtain ⟨ending, hending, hwritten⟩ := Run.written_of_run settings start steps
  have hraises := Run.raises_of_run settings start steps
  refine ⟨⟨ending, hending, hwritten⟩, ?_, fun before s => Run.raises_step settings _ s, ?_, ?_⟩
  · have hfigures := congrArg (List.map sharesOf) (Digest.figures_run .simulated looks now)
    rw [Digest.figures, List.map_map] at hfigures
    refine hfigures.trans ?_
    rw [hlooks]
    by_cases hknown : ∀ text, config ≠ .error (.other text)
    · rw [hwritten]
      refine follow_written (Run.start_known hknown hbanner hashrate opens) hending ?_ hraises hfits htorn
      rw [Run.counters_start]
      exact ⟨rfl, rfl, rfl, rfl⟩
    · obtain ⟨text, hconfig⟩ := not_forall_not.1 hknown
      subst hconfig
      have hexit : start.exit.isSome := rfl
      have hrest := follow_other (hother text rfl) htorn opens hashrate
      rw [Run.run_of_exit hexit, Run.marks_of_exit hexit, hrest]
      rfl
  · rintro rfl
    obtain ⟨hexit, hnone⟩ := Run.start_false config hashrate
    rw [Run.run_of_exit hexit]
    exact ⟨hexit, hnone⟩
  · rintro before s after rfl hloses
    exact Run.run_of_loses hloses

/-- A banner that says nothing, and two ticks. One finds a share that is accepted, the other one that
is not. A line is torn off at the end of the log. -/
def quietConfig : String := "pool = a\nworker = b\n"

def twoTicks : List Step :=
  [.tick ⟨1, 0, 0.5⟩ ⟨0, 0⟩ .zero true true, .tick ⟨1, 0, 0⟩ ⟨1, 0⟩ .zero true true,
    .stop .zero true]

def inTwoLooks (bs : Bytes) : List Digest.Step :=
  [.append (bs.take 40), .look ⟨0, 0⟩ .plain, .append (bs.drop 40)]

theorem shares_twoTicks :
    ((Run.start (.ok quietConfig) 2000 true).marks (({} : Options).settings "c") twoTicks).map
      (·.counters.shares) = [(1, 0), (1, 1)] := by
  decide +kernel

theorem readings_of_run_twoTicks :
    let settings := ({} : Options).settings "c"
    let start := Run.start (.ok quietConfig) 2000 true
    let log := (start.run settings twoTicks).written.flatMap lineBytes ++ [91]
    ((({} : Digest).run .simulated (inTwoLooks log)).step .simulated
        (.look ⟨2, 0⟩ .plain)).readings.map (fun r => (r.accepted, r.rejected)) =
      [(1, 0), (1, 1)] := by
  intro settings start log
  have hbanner : ∀ text, (.ok quietConfig : Except SystemError String) = .ok text →
      Log.Simulated.read (banner (KeyValue.parse text)).toList = none := by
    intro text htext
    obtain rfl := Except.ok.inj htext
    exact read_eq_none (search_speed_eq_none (by decide +kernel))
      (search_counters_eq_none (by decide +kernel))
  have hfits : ∀ m ∈ start.marks settings twoTicks, m.counters.Fits := by
    intro m hm
    have hle : m.counters.accepted + m.counters.rejected ≤ 0 + 0 + 3 :=
      Run.shares_le_of_mem_marks settings start twoTicks m hm
    have hlimit : 3 < limit64 := by decide
    exact ⟨by omega, by omega⟩
  have hlooks : (inTwoLooks log).flatMap Digest.Step.bytes = log := by
    simp [inTwoLooks, Digest.Step.bytes]
  obtain ⟨-, hreadings, -⟩ := readings_of_run settings (.ok quietConfig) 2000 true twoTicks [91]
    (inTwoLooks log) ⟨2, 0⟩ hbanner (by simp) hfits (by decide) hlooks
  exact hreadings.trans shares_twoTicks

end RigWarden.Simulator
