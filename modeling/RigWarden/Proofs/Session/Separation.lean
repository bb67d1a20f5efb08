import RigWarden.Proofs.Session.Moorings
import RigWarden.Proofs.Session.Replica

/-!
# Sessions that know nothing of each other

Where no other place is given for the logs, the only session of its backend sends what a pump by itself
would send that is told what happens to this session: what its own workers write, and what its pump
sees of them and of the clock. So two runs in which the same happens to it, whatever other sessions
there are and whatever their workers write, have it send the same.
-/

namespace RigWarden

open Disk Log Provision

/-- The replica of a session of `b` that is about to start. -/
def Replica.new (options : SessionOptions) (root : Path) (b : Backend) : Replica where
  pump := .new b (b.programIn (b.descriptor.installPath root)) options.restart options.gracePeriod
    .fromStart

namespace Host

def looks (m : Machine) (h : Host) (now : Instant) (clock : Clock) (i : Nat) : List Look :=
  match h.sessions[i]? with
  | none => []
  | some s => if s.pump.isOver then [] else [(h.observe s now clock (h.effect m s).1).look]

/-- The turn starts no session of `b`. -/
def Turn.Leaves (b : Backend) : Turn → Prop
  | .start _ _ b' => b' ≠ b
  | _ => True

/-- What a session is of it stays, and a new one is of the backend that the turn starts. -/
theorem backend_turn {h : Host} {m : Machine} {t : Turn} {j : Nat} {s : Session}
    (hs : (h.turn m t).sessions[j]? = some s) :
    (∃ s₀, h.sessions[j]? = some s₀ ∧ s₀.backend = s.backend) ∨ ¬ t.Leaves s.backend := by
  cases becomes_turn hs with
  | fresh env profile b d d' turn new _ _ _ _ =>
    subst turn
    change (h.start m env profile b).2.sessions[j]? = some s at hs
    rcases h.start_steps m env profile b with he | ⟨_, _, _, -, he | ⟨-, r, e, hc, he⟩⟩ <;>
      rw [he] at hs
    · exact .inl ⟨s, hs, rfl⟩
    · exact .inl ⟨s, hs, rfl⟩
    · rw [List.getElem?_append_right new.ge] at hs
      have hmem := List.mem_of_getElem? hs
      cases r with
      | error e => cases hmem
      | ok s' =>
        obtain rfl : s = s' := List.mem_singleton.1 hmem
        exact .inr fun hne => hne hc.backend.symm
  | stays s₀ was same _ _ _ => exact .inl ⟨s₀, was, by rw [same]⟩
  | steps s₀ now clock spawned was _ _ same _ =>
    rw [same]
    exact .inl ⟨s₀, was, rfl⟩

end Host

namespace Crew

open Host

/-- What happens to session `i` in a turn. -/
def ownIn (m : Machine) (i : Nat) (c : Crew) : Turn → List Own
  | .pump j now clock => if j = i then (c.host.looks m now clock i).map .looked else []
  | .worker w =>
    if c.starters[w]? = some i ∧ c.host.site.output w ≠ [] then [.wrote (c.host.site.output w)]
    else []
  | _ => []

def history (m : Machine) (i : Nat) (c : Crew) : List Turn → List Own
  | [] => []
  | t :: ts => c.ownIn m i t ++ history m i (c.turn m t) ts

/-- The log of `b` is a file, and the workers of session `i` write to it. -/
def WritesTo (c : Crew) (root : Path) (b : Backend) (i : Nat) : Prop :=
  ∀ (w : Nat) worker, c.starters[w]? = some i → c.host.site.workers[w]? = some worker →
    ∃ place file, c.host.disk.find .through (b.logPath root) = .ok (.node place (.file file)) ∧
      file.id = worker.log

/-- Session `i` is the only one of its backend, and goes as its replica does. -/
structure Apart (c : Crew) (root : Path) (R : Place) (b : Backend) (i : Nat) (r : Replica) :
    Prop where
  docked : c.Docked root R
  alone : ∀ (j : Nat) s, c.host.sessions[j]? = some s → s.backend = b → j = i
  mirrored : ∃ s t, c.host.sessions[i]? = some s ∧ s.backend = b ∧ r.pump = s.pump.mirror t ∧
    Tracks (viewLog c.host.disk (b.logPath root)) s.pump.tailer r.log t
  writes : c.WritesTo root b i

section apart

variable {c : Crew} {root : Path} {R : Place} {b : Backend} {i : Nat} {r : Replica} {m : Machine}
  {t : Turn}

theorem viewLog_congr {d e : Disk} {p : Path} (h : e.find .through p = d.find .through p) :
    viewLog e p = viewLog d p := by
  rw [viewLog, viewLog, h]

/-- The workers that were there write to the file that is the log, if it still is. -/
theorem WritesTo.old (h : c.WritesTo root b i) (hminded : c.Minded) {w : Nat} {worker : Worker}
    (hw : c.starters[w]? = some i) (hworker : (c.turn m t).host.site.workers[w]? = some worker) :
    ∃ place file, c.host.disk.find .through (b.logPath root) = .ok (.node place (.file file)) ∧
      file.id = worker.log := by
  have hlt := (List.getElem?_eq_some_iff.1 hw).1
  rw [hminded.counted] at hlt
  obtain ⟨aged, haged, hages⟩ := ages_turn m c t w _ (List.getElem?_eq_getElem hlt)
  obtain rfl : worker = aged := Option.some.inj (hworker.symm.trans haged)
  obtain ⟨place, file, hfile, hid⟩ := h w _ hw (List.getElem?_eq_getElem hlt)
  exact ⟨place, file, hfile, hid.trans hages.log.symm⟩

/-- A turn that nothing of the session has a part in. -/
theorem Apart.frame (h : c.Apart root R b i r) (hb : t.Leaves b)
    (hdocked : (c.turn m t).Docked root R) (hsame : c.SameLog (c.turn m t) root b)
    (hpump : ∀ now clock, t ≠ .pump i now clock) : (c.turn m t).Apart root R b i r := by
  have hpast := h.docked.minded.past (m := m) t
  obtain ⟨s, u, hs, hsb, hr, htracks⟩ := h.mirrored
  refine ⟨hdocked, fun j s' hs' hb' => ?_, ?_, fun w worker hw hworker => ?_⟩
  · rw [host_turn] at hs'
    rcases backend_turn hs' with ⟨s₀, hs₀, hbackend⟩ | hnew
    · exact h.alone j s₀ hs₀ (hbackend.trans hb')
    · exact absurd (hb' ▸ hb) hnew
  · obtain ⟨s', hs'⟩ := exists_turn hs m t
    rw [← host_turn] at hs'
    obtain ⟨s₀, hs₀, hbackend, -, hpumps⟩ :=
      hpast.sessions i s' hs' (List.getElem?_eq_some_iff.1 hs).1
    obtain rfl : s₀ = s := Option.some.inj (hs₀.symm.trans hs)
    rcases hpumps with hp | ⟨now, clock, he, -⟩
    · exact ⟨s', u, hs', hbackend ▸ hsb, hp ▸ hr, by rw [viewLog_congr hsame, ← hp]; exact htracks⟩
    · exact absurd he (hpump now clock)
  · rcases hpast.starters w i hw with hold | ⟨-, now, clock, _, he, -⟩
    · obtain ⟨place, file, hfile, hid⟩ := h.writes.old h.docked.minded hold hworker
      exact ⟨place, file, hsame.trans hfile, hid⟩
    · exact absurd he (hpump now clock)

theorem viewLog_of_find {d : Disk} {p : Path} {place : Place} {file : FileData}
    (h : d.find .through p = .ok (.node place (.file file))) : viewLog d p = .content file.data := by
  rw [viewLog, h]

theorem Apart.worker (h : c.Apart root R b i r) (w : Nat) :
    (c.turn m (.worker w)).Apart root R b i (r.run (c.ownIn m i (.worker w))).1 := by
  obtain ⟨hdocked, hsame⟩ := h.docked.worker (m := m) w
  have hafter : (c.turn m (.worker w)).host.disk = (c.host.site.step w).disk := rfl
  rcases c.host.site.disk_step (w := w) fun worker => h.docked.sober with
    ⟨hdisk, hout⟩ | ⟨worker, hworker, hlive, hdisk⟩
  · have hnone : c.ownIn m i (.worker w) = [] := by simp [ownIn, hout]
    rw [hnone]
    exact h.frame trivial hdocked (by rw [SameLog, hafter, hdisk]; rfl) nofun
  · by_cases hown : c.starters[w]? = some i
    · have hlog : (r.run (c.ownIn m i (.worker w))).1 =
          { r with log := r.log ++ c.host.site.output w } := by
        by_cases hout : c.host.site.output w = []
        · simp [ownIn, hout, Replica.run]
        · simp [ownIn, hown, hout, Replica.run, Replica.step]
      obtain ⟨place, file, hfile, hid⟩ := h.writes w worker hown hworker
      have hfound : (c.turn m (.worker w)).host.disk.find .through (b.logPath root) =
          .ok (.node place (.file { file with data := file.data ++ c.host.site.output w })) := by
        change c.host.site.disk.find .through (b.logPath root) = _ at hfile
        rw [hafter, hdisk, find_updateFile, hfile]
        simp [Except.map, Found.updated, Node.updated, hid]
      obtain ⟨s, u, hs, hsb, hr, htracks⟩ := h.mirrored
      rw [viewLog_of_find hfile] at htracks
      rw [hlog]
      refine ⟨hdocked, h.alone, ⟨s, u, hs, hsb, hr, ?_⟩, fun v other hv hother => ?_⟩
      · rw [viewLog_of_find hfound]
        exact htracks.append _
      · obtain ⟨place', file', hfile', hid'⟩ := h.writes.old h.docked.minded hv hother
        rw [hfile] at hfile'
        cases hfile'
        exact ⟨place, _, hfound, hid'⟩
    · have hnone : c.ownIn m i (.worker w) = [] := by simp [ownIn, hown]
      rw [hnone]
      refine h.frame trivial hdocked (hsame b ?_) nofun
      rintro ⟨j, s, hstarted, hsb, -⟩
      exact hown (h.alone j s hstarted.2 hsb ▸ hstarted.1)

/-- A step of the pump of the session opens the log or leaves it as it is. A new worker writes to
it. -/
theorem Apart.log_advance (h : c.Apart root R b i r) {s : Session}
    (hs : c.host.sessions[i]? = some s) (hsb : s.backend = b) (hover : s.pump.isOver = false) (now : Instant) (clock : Clock) :
    let d := c.turn m (.pump i now clock)
    (d.host.disk.find .through (b.logPath root) = c.host.disk.find .through (b.logPath root) ∨
      ∃ place place' file, c.host.disk.find .through (b.logPath root) = .ok (.vacant place) ∧
        d.host.disk.find .through (b.logPath root) = .ok (.node place' (.file file)) ∧
        file.data = []) ∧
    ∀ w worker, c.host.site.workers.length ≤ w → d.host.site.workers[w]? = some worker →
      ∃ place file, d.host.disk.find .through (b.logPath root) = .ok (.node place (.file file)) ∧
        file.id = worker.log := by
  intro d
  have hpath : s.logPath = b.logPath root := hsb ▸ h.docked.logPath i s hs
  obtain ⟨channel, he⟩ := pumpStep_eq hs hover m now clock
  have hsite : d.host.site = (c.host.advance m s now clock).1 := congrArg Host.site he
  have hdisk : d.host.disk = (c.host.effect m s).2.disk :=
    (congrArg Site.disk hsite).trans (disk_killIfForced _ _ _ _)
  have hnone : d.host.site.workers.length = c.host.site.workers.length →
      ∀ w worker, c.host.site.workers.length ≤ w → d.host.site.workers[w]? ≠ some worker := by
    intro hlength w worker hge
    rw [List.getElem?_eq_none (hlength ▸ hge)]
    exact nofun
  rcases c.host.effect_opens m s with ⟨n, o, hp, hopen, hcases⟩ | ⟨-, hsame, hlength⟩
  · have hworkers : d.host.site.workers = (c.host.effect m s).2.workers := by
      rw [hsite]
      simp only [advance, killIfForced, hp]
    rw [hpath] at hopen
    rw [hdisk]
    rcases find_openFile hopen with ⟨⟨cause, rfl⟩, hfind⟩ | ⟨place, file, rfl, hfound, hbefore⟩
    · refine ⟨.inl hfind, fun w worker hge hworker => ?_⟩
      rcases hcases with ⟨-, hw⟩ | ⟨_, hok, -⟩
      · exact absurd hworker (hnone (by rw [hworkers, hw]) w worker hge)
      · cases hok
    · refine ⟨?_, fun w worker hge hworker => ⟨place, file, hfound, ?_⟩⟩
      · rcases hbefore with hsame | ⟨hvacant, hempty⟩
        · exact .inl (hfound.trans hsame.symm)
        · exact .inr ⟨place, place, file, hvacant, hfound, hempty⟩
      · rcases hcases with ⟨-, hw⟩ | ⟨new, hok, -, hw, -⟩
        · exact absurd hworker (hnone (by rw [hworkers, hw]) w worker hge)
        · rw [hworkers, hw, List.getElem?_append_right hge] at hworker
          obtain rfl : worker = new := by simpa using List.mem_of_getElem? hworker
          exact Except.ok.inj hok
  · refine ⟨.inl (by rw [hdisk, hsame]), fun w worker hge hworker => ?_⟩
    refine absurd hworker (hnone ?_ w worker hge)
    rw [hsite, advance, length_killIfForced, hlength]

theorem Apart.pump (h : c.Apart root R b i r) (hm : m.IsTame) (now : Instant) (clock : Clock) :
    (c.turn m (.pump i now clock)).Apart root R b i (r.run (c.ownIn m i (.pump i now clock))).1 ∧
      c.host.sentIn m i (.pump i now clock) = (r.run (c.ownIn m i (.pump i now clock))).2 := by
  obtain ⟨s, u, hs, hsb, hr, htracks⟩ := h.mirrored
  have hdocked := (h.docked.pump hm i now clock).1
  cases hover : s.pump.isOver with
  | true =>
    have hturn : c.turn m (.pump i now clock) = c := by
      simp [Crew.turn, Host.turn, pumpStep, hs, hover]
    simp only [ownIn, looks, sentIn, sends, hs, hover, if_true, List.map_nil, hturn, Replica.run]
    exact ⟨h, trivial⟩
  | false =>
    let o := c.host.observe s now clock (c.host.effect m s).1
    have hown : c.ownIn m i (.pump i now clock) = [.looked o.look] := by
      simp [ownIn, looks, hs, hover, o]
    have hsent : c.host.sentIn m i (.pump i now clock) = (s.pump.step o).2 := by
      simp [sentIn, sends, hs, hover, o]
    have hlog : o.log = viewLog c.host.disk (b.logPath root) :=
      congrArg (viewLog c.host.disk) (hsb ▸ h.docked.logPath i s hs)
    obtain ⟨u', hstep, hnext⟩ := Pump.mirror_step (o := o) (hlog ▸ htracks)
    rw [hlog] at hnext
    obtain ⟨hview, hnew⟩ := h.log_advance hs hsb hover now clock (m := m)
    obtain ⟨channel, he⟩ := pumpStep_eq hs hover m now clock
    let s' : Session := { s with pump := (s.pump.step o).1, channel := channel }
    have hafter : (c.turn m (.pump i now clock)).host.sessions = c.host.sessions.set i s' :=
      congrArg Host.sessions he
    rw [hown, hsent]
    simp only [Replica.run, Replica.step, hr, hstep, List.append_nil, and_true]
    refine ⟨hdocked, fun j v hv hvb => ?_, ⟨s', u', ?_, hsb, rfl, ?_⟩, fun w worker hw hworker => ?_⟩
    · rw [hafter] at hv
      by_cases hij : i = j
      · exact hij.symm
      · rw [List.getElem?_set_ne hij] at hv
        exact h.alone j v hv hvb
    · rw [hafter, List.getElem?_set_self (List.getElem?_eq_some_iff.1 hs).1]
    · rcases hview with hsame | ⟨_, _, file, hvacant, hfound, hempty⟩
      · rw [viewLog_congr hsame]
        exact hnext
      · rw [viewLog, hvacant] at hnext
        rw [viewLog_of_find hfound, hempty]
        exact hnext.made
    · rcases h.docked.minded.starters_pump i now clock w i hw with hold | ⟨hge, -⟩
      · obtain ⟨place, file, hfile, hid⟩ := h.writes.old h.docked.minded hold hworker
        rcases hview with hsame | ⟨_, _, _, hvacant, -⟩
        · exact ⟨place, file, hsame.trans hfile, hid⟩
        · rw [hvacant] at hfile
          cases hfile
      · exact hnew w worker hge hworker

/-- In each turn the replica is told what happens to the session, and sends what that sends. -/
theorem Apart.turn (h : c.Apart root R b i r) (hm : m.IsTame) (ht : t.IsOwn) (hb : t.Leaves b) :
    (c.turn m t).Apart root R b i (r.run (c.ownIn m i t)).1 ∧
      c.host.sentIn m i t = (r.run (c.ownIn m i t)).2 := by
  obtain ⟨hdocked, hsame⟩ := h.docked.turn hm ht
  cases t with
  | start env profile b' =>
    exact ⟨h.frame hb hdocked (hsame b hb) (by simp), rfl⟩
  | askStop j => exact ⟨h.frame hb hdocked (hsame b id) (by simp), rfl⟩
  | pump j now clock =>
    by_cases hij : j = i
    · subst hij
      exact h.pump hm now clock
    · have hown : c.ownIn m i (.pump j now clock) = [] := if_neg hij
      have hsent : c.host.sentIn m i (.pump j now clock) = [] := if_neg hij
      rw [hown, hsent]
      refine ⟨h.frame hb hdocked (hsame b ?_) (by simp [hij]), rfl⟩
      rintro ⟨s, hs, hsb, -⟩
      exact hij (h.alone j s hs hsb)
  | worker w =>
    refine ⟨h.worker w, ?_⟩
    by_cases hw : c.starters[w]? = some i ∧ c.host.site.output w ≠ []
    · simp [ownIn, sentIn, hw, Replica.run, Replica.step]
    · simp [ownIn, sentIn, hw, Replica.run]
  | host _ _ => exact ht.elim
  | disk _ => exact ht.elim

/-- What is sent in a run is a function of what happens to the session. -/
theorem Apart.sentBy (h : c.Apart root R b i r) (hm : m.IsTame) {ts : List Turn}
    (hts : ∀ t ∈ ts, t.IsOwn ∧ t.Leaves b) : c.sentBy m i ts = (r.run (c.history m i ts)).2 := by
  induction ts generalizing c r with
  | nil => rfl
  | cons t ts ih =>
    rw [List.forall_mem_cons] at hts
    obtain ⟨hnext, hsent⟩ := h.turn hm hts.1.1 hts.1.2
    rw [Crew.sentBy, history, Replica.run_append, hsent, ih hnext hts.2]

/-- A session that is started as the only one of its backend goes as a new replica. -/
theorem apart_start (h : c.Moored root) (hm : m.IsTame) {env : ProvisionEnv} {profile : Profile}
    (horder : ∀ l, (env.order l).Perm l) (halone : ∀ s ∈ c.host.sessions, s.backend ≠ b) {n : Nat}
    (hok : (c.host.start m env profile b).1 = .ok n) :
    ∃ R, (c.turn m (.start env profile b)).Apart root R b c.host.sessions.length
      (.new c.host.options root b) := by
  obtain ⟨s, _, _, hsessions, -⟩ := start_ok hok
  change (c.turn m (.start env profile b)).host.sessions = _ at hsessions
  have hs : (c.turn m (.start env profile b)).host.sessions[c.host.sessions.length]? = some s := by
    rw [hsessions]
    simp
  have hboards := (h.adds horder m profile b).boards hs (Nat.le_refl _)
  rw [h.rooted] at hboards
  rcases h.turn hm (t := .start env profile b) horder with hunused | ⟨R, hdocked⟩
  · rw [hunused.sessions] at hs
    cases hs
  refine ⟨R, hdocked, fun j u hu hub => ?_, ⟨s, .fromStart, hs, hboards.backend, ?_, ?_⟩,
    fun w worker hw _ => ?_⟩
  · rw [hsessions, List.getElem?_append] at hu
    split at hu
    · exact absurd hub (halone u (List.mem_of_getElem? hu))
    · next hge =>
      have hlt := (List.getElem?_eq_some_iff.1 hu).1
      simp only [List.length_singleton] at hlt
      omega
  · rw [hboards.pump]
    rfl
  · rw [hboards.pump]
    exact .fromEnd _
  · exact absurd (h.minded.known _ (List.mem_of_getElem? hw)) (Nat.lt_irrefl _)

theorem options_turn (ht : t.IsOwn) : (c.turn m t).host.options = c.host.options := by
  cases t with
  | start env profile b => exact (c.host.start_leaves m env profile b).2.1
  | askStop i => exact (c.host.askStop_leaves i).2.1
  | pump i now clock => exact (c.host.pumpStep_leaves m now clock i).1
  | worker w => rfl
  | host _ _ => exact ht.elim
  | disk _ => exact ht.elim

/-- Where no turn starts a session of `b`, there is none. -/
theorem turns_leaving {ts : List Turn} (hts : ∀ t ∈ ts, t.IsOwn ∧ t.Leaves b)
    (hnone : ∀ s ∈ c.host.sessions, s.backend ≠ b) :
    (c.turns m ts).host.options = c.host.options ∧
      ∀ s ∈ (c.turns m ts).host.sessions, s.backend ≠ b := by
  induction ts generalizing c with
  | nil => exact ⟨rfl, hnone⟩
  | cons t ts ih =>
    rw [List.forall_mem_cons] at hts
    obtain ⟨hoptions, hrest⟩ := ih (c := c.turn m t) hts.2 fun s hs hsb => by
      obtain ⟨j, hj⟩ := List.mem_iff_getElem?.1 hs
      rw [host_turn] at hj
      rcases backend_turn hj with ⟨s₀, hs₀, hbackend⟩ | hnew
      · exact hnone s₀ (List.mem_of_getElem? hs₀) (hbackend.trans hsb)
      · exact hnew (hsb ▸ hts.1.2)
    exact ⟨hoptions.trans (options_turn hts.1.1), hrest⟩

end apart

end Crew

open Host Crew Text

/-- A run of a host in which one session of `b` is started. The root is in good order at first, and
nobody but the host, its sessions and their workers touches the disk, from which no worker removes
files. -/
structure SoleRun (options : SessionOptions) (b : Backend) where
  machine : Machine
  disk : Disk
  before : List Turn
  env : ProvisionEnv
  profile : Profile
  after : List Turn
  tame : machine.IsTame
  tidy : Tidy disk options.installRoot Backend.Home
  numbered : disk.Numbered
  order : ∀ l, (env.order l).Perm l
  own : ∀ t ∈ before ++ after, t.IsOwn ∧ t.Leaves b
  started : ∃ n, (((Crew.mk (.new options disk) []).turns machine before).host.start machine env
    profile b).1 = .ok n

namespace SoleRun

variable {options : SessionOptions} {b : Backend} (x y : SoleRun options b)

/-- The host when the session is about to be started. -/
def eve : Crew := (Crew.mk (.new options x.disk) []).turns x.machine x.before

def session : Nat := x.eve.host.sessions.length

def outset : Crew := x.eve.turn x.machine (.start x.env x.profile b)

/-- What happens to the session. -/
def history : List Own := x.outset.history x.machine x.session x.after

def sent : List Event := x.outset.sentBy x.machine x.session x.after

/-- The session sends what its replica sends. -/
theorem sent_eq_run (hlog : options.logFile = none) :
    x.sent = ((Replica.new options options.installRoot b).run x.history).2 := by
  have hbefore : ∀ t ∈ x.before, t.IsOwn ∧ t.Leaves b := fun t ht =>
    x.own t (List.mem_append_left _ ht)
  have hmoored : x.eve.Moored options.installRoot :=
    (Crew.moored_new hlog x.tidy x.numbered).turns x.tame fun t ht => (hbefore t ht).1
  obtain ⟨hoptions, halone⟩ := Crew.turns_leaving (m := x.machine)
    (c := Crew.mk (.new options x.disk) []) hbefore (by simp [Host.new])
  obtain ⟨n, hok⟩ := x.started
  obtain ⟨R, hapart⟩ := Crew.apart_start hmoored x.tame x.order halone hok
  have hsame : x.eve.host.options = options := hoptions
  rw [hsame] at hapart
  exact hapart.sentBy x.tame fun t ht => x.own t (List.mem_append_right _ ht)

/-- Where each session has its log in its install directory, two runs send the same events from the
session if the same happens to it: its workers write the same, and its pump finds the same of them, of
the clock and of the wish to stop. When other sessions are started and what their workers write makes
no difference. -/
theorem sent_eq_of_history_eq (hlog : options.logFile = none) (hhistory : x.history = y.history) :
    x.sent = y.sent := by
  rw [x.sent_eq_run hlog, y.sent_eq_run hlog, hhistory]

/-- The simulator finds five shares, and any other worker seven. -/
def counting : Machine where
  processors := 1
  execute := fun _ _ _ => .ok ⟨[.write (encodeUtf8 "accepted=7 rejected=0\n".toList)], none⟩
  simulate := fun _ _ => ⟨[.write (encodeUtf8 "accepted=5 rejected=0\n".toList)], none⟩

theorem isTame_counting : counting.IsTame := by
  refine ⟨fun program data n b hb => ?_, fun settings text => ⟨by simp [counting], by simp [counting]⟩⟩
  obtain rfl := Except.ok.inj hb
  exact ⟨by simp, by simp⟩

def loggingTo (logFile : Option Path) : SessionOptions := { installRoot := "/r", logFile := logFile }

def simulating (logFile : Option Path) : Except Halt Nat × Host :=
  (Host.new (loggingTo logFile) {}).start counting (delivering []) (.sample "randomx") .simulated

/-- A session of the simulator on an empty disk. -/
def ofSimulator (logFile : Option Path) (after : List Turn)
    (hstarted : (simulating logFile).1 = .ok 0)
    (hown : ∀ t ∈ after, t.IsOwn ∧ t.Leaves .simulated) :
    SoleRun (loggingTo logFile) .simulated where
  machine := counting
  disk := {}
  before := []
  env := delivering []
  profile := .sample "randomx"
  after := after
  tame := isTame_counting
  tidy := tidy_nothing _
  numbered := ⟨List.nodup_nil, by simp [Disk.ids]⟩
  order := fun _ => .refl _
  own := hown
  started := ⟨0, hstarted⟩

/-- The session reads its log after its worker has written. -/
def alone : List Turn := [look 0, .worker 0, look 0]

/-- In the meantime another session is started, and its worker writes. -/
def accompanied : List Turn :=
  [look 0, .start (delivering [packed "v/SRBMiner-MULTI" .file ""]) (.sample "randomx") .srbMiner,
    look 1, .worker 1, .worker 0, look 0]

theorem own_alone : ∀ t ∈ alone, t.IsOwn ∧ t.Leaves .simulated := by
  simp [alone, Crew.look, Turn.IsOwn, Turn.Leaves]

theorem own_accompanied : ∀ t ∈ accompanied, t.IsOwn ∧ t.Leaves .simulated := by
  simp [accompanied, Crew.look, Turn.IsOwn, Turn.Leaves, delivering]

/-- The accepted shares in the readings of a run. -/
def accepted {options : SessionOptions} {b : Backend} (x : SoleRun options b) : List Nat :=
  (Event.readings x.sent).map (·.accepted)

theorem started_apart : (simulating none).1 = .ok 0 := by decide +kernel

theorem started_sharing : (simulating (some "/shared.log")).1 = .ok 0 := by decide +kernel

theorem history_apart :
    (ofSimulator none alone started_apart own_alone).history =
        (ofSimulator none accompanied started_apart own_accompanied).history ∧
      (ofSimulator none alone started_apart own_alone).accepted = [5] := by
  decide +kernel

theorem sent_eq_accompanied :
    (ofSimulator none alone started_apart own_alone).accepted = [5] ∧
      (ofSimulator none alone started_apart own_alone).sent =
        (ofSimulator none accompanied started_apart own_accompanied).sent :=
  ⟨history_apart.2, sent_eq_of_history_eq _ _ rfl history_apart.1⟩

theorem history_sharing :
    (ofSimulator (some "/shared.log") alone started_sharing own_alone).history =
        (ofSimulator (some "/shared.log") accompanied started_sharing own_accompanied).history ∧
      (ofSimulator (some "/shared.log") alone started_sharing own_alone).accepted = [5] ∧
      (ofSimulator (some "/shared.log") accompanied started_sharing own_accompanied).accepted =
        [7, 7] := by
  decide +kernel

/-- In one log for all sessions each reads the lines of the workers of the others. -/
theorem not_always_separate : ¬ ∀ (options : SessionOptions) (b : Backend) (x y : SoleRun options b),
    x.history = y.history → x.sent = y.sent := by
  intro hall
  obtain ⟨hhistory, halone, haccompanied⟩ := history_sharing
  have hsent := hall _ _ _ _ hhistory
  rw [accepted, hsent, ← accepted, haccompanied] at halone
  cases halone

end SoleRun

end RigWarden
