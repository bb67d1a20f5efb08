import Mathlib.Data.List.Induction
import RigWarden.Worker.Site

/-!
# Workers grow older

Whatever happens at a site, a worker that has ended stays ended, and one that takes no request to end
any more never will again. A request finds a worker that has ended or leaves one that takes no other,
and to be killed ends every worker but a thread of the simulator.
-/

namespace RigWarden

/-- No file is removed, neither now nor after a request to end. -/
structure Behaviour.IsTame (b : Behaviour) : Prop where
  acts : ∀ p, .remove p ∉ b.acts
  onRequest : ∀ acts, b.onRequest = some acts → ∀ p, .remove p ∉ acts

/-- The worker removes no files, and does nothing at all once it has ended. -/
structure Worker.IsSober (w : Worker) : Prop where
  tame : w.behaviour.IsTame
  retired : w.exit.isSome = true → w.behaviour.acts = []

/-- What can become of a worker. -/
structure Worker.Ages (before after : Worker) : Prop where
  kind : after.isSimulator = before.isSimulator
  log : after.log = before.log
  ended : before.exit.isSome = true → after.exit.isSome = true
  deaf : before.behaviour.onRequest = none → after.behaviour.onRequest = none
  sober : before.IsSober → after.IsSober

theorem Worker.Ages.refl (w : Worker) : w.Ages w := ⟨rfl, rfl, id, id, id⟩

theorem Worker.Ages.trans {u v w : Worker} (h : u.Ages v) (h' : v.Ages w) : u.Ages w :=
  ⟨h'.kind.trans h.kind, h'.log.trans h.log, fun he => h'.ended (h.ended he),
    fun hd => h'.deaf (h.deaf hd), fun hs => h'.sober (h.sober hs)⟩

/-- A worker does the first of its acts. -/
theorem Worker.ages_act {w : Worker} {act : Act} {acts : List Act}
    (h : w.behaviour.acts = act :: acts) :
    w.Ages { w with behaviour := { w.behaviour with acts := acts } } := by
  refine ⟨rfl, rfl, id, id, fun hs => ⟨⟨fun p hp => ?_, hs.tame.onRequest⟩, fun he => ?_⟩⟩
  · exact hs.tame.acts p (h ▸ List.mem_cons_of_mem act hp)
  · rw [hs.retired he] at h
    cases h

/-- A worker ends, or is to end in its own way. -/
theorem Worker.ages_last {w : Worker} {acts : List Act} {exit : Option WorkerExit}
    (hacts : w.behaviour.IsTame → ∀ p, .remove p ∉ acts)
    (hexit : w.exit.isSome = true → exit.isSome = true) (hend : exit.isSome = true → acts = []) :
    w.Ages { w with behaviour := ⟨acts, none⟩, exit := exit } :=
  ⟨rfl, rfl, hexit, fun _ => rfl, fun hs => ⟨⟨hacts hs.tame, nofun⟩, hend⟩⟩

namespace Site

variable {s t u : Site} {w : Nat} {worker : Worker}

/-- All workers are still there, some of them older, and others may have come. -/
def Ages (s t : Site) : Prop :=
  ∀ (w : Nat) (worker : Worker), s.workers[w]? = some worker →
    ∃ after, t.workers[w]? = some after ∧ worker.Ages after

/-- The worker has ended, or no request to end makes a difference to it. -/
def Deaf (s : Site) (w : Nat) : Prop :=
  ∀ worker, s.workers[w]? = some worker →
    worker.exit.isSome = true ∨ worker.behaviour.onRequest = none

/-- A thread of the simulator that has taken the request to end. -/
def IsRunaway (s : Site) (w : Nat) : Prop :=
  ∃ worker, s.workers[w]? = some worker ∧ worker.isSimulator = true ∧
    worker.behaviour.onRequest = none

theorem isAlive_iff : s.isAlive w = true ↔ ∃ worker, s.workers[w]? = some worker ∧
    worker.exit = none := by
  unfold isAlive
  cases s.workers[w]? with
  | none => simp
  | some worker => simp

theorem isAlive_of_length_le (h : s.workers.length ≤ w) : s.isAlive w = false := by
  rw [isAlive, List.getElem?_eq_none h]
  rfl

theorem isAlive_of_exit? {e : WorkerExit} (h : s.exit? w = some e) : s.isAlive w = false := by
  obtain ⟨worker, hw, he⟩ := Option.bind_eq_some_iff.1 h
  simp [isAlive, hw, he]

theorem Ages.refl (s : Site) : s.Ages s := fun _ worker h => ⟨worker, h, .refl worker⟩

theorem Ages.of_workers_eq (h : t.workers = s.workers) : s.Ages t := by
  intro w worker hw
  exact ⟨worker, h ▸ hw, .refl worker⟩

theorem Ages.trans (h : s.Ages t) (h' : t.Ages u) : s.Ages u := by
  intro w worker hw
  obtain ⟨v, hv, hwv⟩ := h w worker hw
  obtain ⟨x, hx, hvx⟩ := h' w v hv
  exact ⟨x, hx, hwv.trans hvx⟩

theorem Ages.length_le (h : s.Ages t) : s.workers.length ≤ t.workers.length := by
  by_contra hlt
  obtain ⟨worker, hw⟩ : ∃ worker, s.workers[t.workers.length]? = some worker :=
    ⟨_, List.getElem?_eq_getElem (by omega)⟩
  obtain ⟨after, hafter, -⟩ := h _ worker hw
  simp at hafter

/-- Who lives has lived before, or is new. -/
theorem Ages.isAlive (h : s.Ages t) (hw : w < s.workers.length) (ha : t.isAlive w = true) :
    s.isAlive w = true := by
  obtain ⟨after, hafter, hexit⟩ := isAlive_iff.1 ha
  obtain ⟨after', hafter', hages⟩ := h w _ (List.getElem?_eq_getElem hw)
  rw [hafter] at hafter'
  cases hafter'
  refine isAlive_iff.2 ⟨_, List.getElem?_eq_getElem hw, ?_⟩
  by_contra hne
  have hended := hages.ended (Option.isSome_iff_ne_none.2 hne)
  rw [hexit] at hended
  cases hended

theorem Ages.deaf (h : s.Ages t) (hw : w < s.workers.length) (hd : s.Deaf w) : t.Deaf w := by
  intro after hafter
  obtain ⟨after', hafter', hages⟩ := h w _ (List.getElem?_eq_getElem hw)
  rw [hafter] at hafter'
  cases hafter'
  exact (hd _ (List.getElem?_eq_getElem hw)).imp hages.ended hages.deaf

theorem Ages.isRunaway (h : s.Ages t) (hr : s.IsRunaway w) : t.IsRunaway w := by
  obtain ⟨worker, hw, hkind, hdeaf⟩ := hr
  obtain ⟨after, hafter, hages⟩ := h w worker hw
  exact ⟨after, hafter, hages.kind.trans hkind, hages.deaf hdeaf⟩

theorem setWorker_self (hw : s.workers[w]? = some worker) (after : Worker) :
    (s.setWorker w after).workers[w]? = some after := by
  simp [setWorker, (List.getElem?_eq_some_iff.1 hw).1]

theorem ages_setWorker (hw : s.workers[w]? = some worker) {after : Worker}
    (h : worker.Ages after) : s.Ages (s.setWorker w after) := by
  intro v other hv
  by_cases hvw : w = v
  · subst hvw
    rw [hw] at hv
    cases hv
    exact ⟨after, setWorker_self hw after, h⟩
  · exact ⟨other, by rwa [setWorker, List.getElem?_set_ne hvw], .refl other⟩

theorem ages_step (s : Site) (w : Nat) : s.Ages (s.step w) := by
  unfold step
  cases hw : s.workers[w]? with
  | none => exact .refl s
  | some worker =>
    simp only
    cases hacts : worker.behaviour.acts with
    | nil => exact .refl s
    | cons act acts =>
      let next : Worker := { worker with behaviour := { worker.behaviour with acts := acts } }
      have hset := ages_setWorker hw (Worker.ages_act hacts)
      cases act with
      | write bytes => exact hset.trans (.of_workers_eq rfl)
      | remove p => exact hset.trans (.of_workers_eq rfl)
      | pause d => exact hset
      | exit e =>
        refine hset.trans (ages_setWorker (setWorker_self hw next) ?_)
        exact Worker.ages_last (w := next) (fun _ _ => List.not_mem_nil) (fun _ => rfl) fun _ => rfl

@[simp] theorem length_setWorker (s : Site) (w : Nat) (after : Worker) :
    (s.setWorker w after).workers.length = s.workers.length := by
  simp [setWorker]

@[simp] theorem length_step (s : Site) (w : Nat) :
    (s.step w).workers.length = s.workers.length := by
  unfold step
  split
  · rfl
  · simp only
    split
    · rfl
    · split <;> simp

@[simp] theorem length_request (s : Site) (w : Nat) :
    (s.request w).workers.length = s.workers.length := by
  unfold request
  split
  · rfl
  · split <;> simp

@[simp] theorem length_kill (s : Site) (w : Nat) :
    (s.kill w).2.workers.length = s.workers.length := by
  unfold kill
  split
  · rfl
  · split <;> simp

theorem ages_request (s : Site) (w : Nat) : s.Ages (s.request w) := by
  unfold request
  cases hw : s.workers[w]? with
  | none => exact .refl s
  | some worker =>
    simp only
    split
    · next acts hexit hask =>
      refine ages_setWorker hw (Worker.ages_last (fun ht => ht.onRequest acts hask) id fun he => ?_)
      rw [hexit] at he
      cases he
    · exact .refl s

theorem deaf_request (s : Site) (w : Nat) : (s.request w).Deaf w := by
  intro after hafter
  unfold request at hafter
  cases hw : s.workers[w]? with
  | none =>
    rw [hw] at hafter
    exact absurd (hw.symm.trans hafter) nofun
  | some worker =>
    simp only [hw] at hafter
    split at hafter
    · rw [setWorker_self hw] at hafter
      cases hafter
      exact .inr rfl
    · next hcases =>
      rw [hw] at hafter
      cases hafter
      cases he : after.exit with
      | some e => exact .inl rfl
      | none =>
        cases hr : after.behaviour.onRequest with
        | none => exact .inr rfl
        | some acts => exact absurd hr (hcases acts he)

theorem ages_kill (s : Site) (w : Nat) : s.Ages (s.kill w).2 := by
  unfold kill
  cases hw : s.workers[w]? with
  | none => exact .refl s
  | some worker =>
    simp only
    split
    · exact .refl s
    · exact ages_setWorker hw
        (Worker.ages_last (fun _ _ => List.not_mem_nil) (fun _ => rfl) fun _ => rfl)

/-- Only a thread of the simulator survives. -/
theorem isRunaway_of_kill (hd : s.Deaf w) (ha : (s.kill w).2.isAlive w = true) :
    (s.kill w).2.IsRunaway w := by
  obtain ⟨after, hafter, hexit⟩ := isAlive_iff.1 ha
  unfold kill at hafter ⊢
  cases hw : s.workers[w]? with
  | none =>
    rw [hw] at hafter
    exact absurd (hw.symm.trans hafter) nofun
  | some worker =>
    simp only [hw] at hafter ⊢
    by_cases hsim : worker.isSimulator = true
    · simp only [hsim, if_true] at hafter ⊢
      rw [hw] at hafter
      cases hafter
      refine ⟨after, hw, hsim, (hd after hw).resolve_left ?_⟩
      simp [hexit]
    · simp only [hsim] at hafter
      rw [if_neg Bool.false_ne_true, setWorker_self hw] at hafter
      cases hafter
      cases hexit

/-- A start that succeeds adds one worker at the end, and changes no other. -/
theorem spawn_cases (m : Machine) (s : Site) (spec : LaunchSpec) (log : Path) :
    (∃ e t, s.spawn m spec log = (.error e, t) ∧ t.workers = s.workers) ∨
      ∃ t worker, s.spawn m spec log = (.ok s.workers.length, t) ∧
        t.workers = s.workers ++ [worker] := by
  unfold spawn
  rcases Disk.openFile log s.disk with ⟨cause | id, disk⟩
  · exact .inl ⟨_, _, rfl, rfl⟩
  · simp only
    split
    · exact .inl ⟨_, _, rfl, rfl⟩
    · exact .inr ⟨_, _, rfl, rfl⟩

theorem Ages.of_append {added : List Worker} (h : t.workers = s.workers ++ added) : s.Ages t := by
  intro w worker hw
  refine ⟨worker, ?_, .refl worker⟩
  rw [h, List.getElem?_append_left (List.getElem?_eq_some_iff.1 hw).1]
  exact hw

end Site
end RigWarden
