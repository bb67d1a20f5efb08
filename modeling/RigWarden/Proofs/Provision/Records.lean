import RigWarden.Provision.Provisioner

/-!
# What provisioning records

A call records states of its own backend only, and the last of them is its result. There are two
exceptions: a call whose deadline lies beyond the clock records nothing, and neither does a backend
without a download whose directory cannot be made. The second returns an error all the same, and the
status goes on as if it had not been called.
-/

namespace RigWarden
namespace Provisioner

section recorded

variable {p : Provisioner} {b b' : Backend} {s : ProvisionState}

theorem status_of_recorded {desc : Descriptor} (h : p.recorded? desc.backend = some s) (d : Disk) :
    p.status d desc = s := by
  rw [status, h]

theorem status_congr {q : Provisioner} {desc : Descriptor} (hroot : q.root = p.root)
    (hrecorded : q.recorded? desc.backend = p.recorded? desc.backend) (d : Disk) :
    q.status d desc = p.status d desc := by
  unfold status isInstalled installPath
  rw [hrecorded, hroot]

/-- What is not on record is not found to have failed. -/
theorem recorded?_of_status_failed {desc : Descriptor} {kind : ErrorKind} {reason : String} {d : Disk}
    (h : p.status d desc = .failed kind reason) :
    p.recorded? desc.backend = some (.failed kind reason) := by
  rw [status] at h
  split at h
  · next hs => rw [hs, h]
  · split at h <;> cases h

end recorded

/-- `q` is `p` with `states` recorded for a backend, the latest first. -/
structure Noted (p q : Provisioner) (b : Backend) (states : List ProvisionState) : Prop where
  root : q.root = p.root
  records : q.records = states.map (b, ·) ++ p.records

section noted

variable {p q q' : Provisioner} {b b' : Backend} {states more : List ProvisionState}
  {s : ProvisionState}

theorem Noted.refl (p : Provisioner) (b : Backend) : Noted p p b [] := ⟨rfl, rfl⟩

theorem Noted.record (h : Noted p q b states) (s : ProvisionState) :
    Noted p (q.record b s) b (s :: states) :=
  ⟨h.root, by rw [Provisioner.record, h.records, List.map_cons, List.cons_append]⟩

theorem Noted.trans (h : Noted p q b states) (h' : Noted q q' b more) :
    Noted p q' b (more ++ states) :=
  ⟨h'.root.trans h.root, by rw [h'.records, h.records, List.map_append, List.append_assoc]⟩

theorem Noted.recorded?_cons (h : Noted p q b (s :: states)) : q.recorded? b = some s := by
  simp [recorded?, h.records]

theorem Noted.recorded?_of_ne (h : Noted p q b states) (hb : b' ≠ b) :
    q.recorded? b' = p.recorded? b' := by
  have hnone : (states.map (b, ·)).find? (·.1 == b') = none := by
    simp [List.find?_eq_none, Ne.symm hb]
  rw [recorded?, recorded?, h.records, List.find?_append, hnone, Option.none_or]

end noted

/-- The state that the end of a download is recorded as. -/
def settled : Except Error Unit → ProvisionState
  | .ok _ => .ready
  | .error e => .ofError e

/-- What is on record while a download is on its way, the latest first. -/
inductive Progress : (fetched : Bool) → List ProvisionState → Prop
  | unopened : Progress false []
  | unfetched : Progress false [.downloading]
  | fetching : Progress true [.downloading]
  | unpacking : Progress true [.extracting, .downloading]

section calls

variable {p q : Provisioner} {env : ProvisionEnv} {desc : Descriptor} {artifact : Artifact}
  {deadline : Clock} {d after : Disk}

theorem noted_openDownload {r : Except Error Path} (h : p.openDownload desc d = (r, q, after)) :
    q.fetches = p.fetches ∧ ((∃ e, r = .error e) ∧ Noted p q desc.backend [] ∨
      Noted p q desc.backend [.downloading]) := by
  unfold openDownload at h
  split at h
  · cases h
    exact ⟨rfl, .inl ⟨⟨_, rfl⟩, .refl _ _⟩⟩
  · have hnoted := (Noted.refl p desc.backend).record .downloading
    simp only at h
    split at h <;> cases h <;> exact ⟨rfl, .inr hnoted⟩

theorem noted_fetch {r : Except Error (List Archive.Item)}
    (h : p.fetch env desc artifact deadline = (r, q)) :
    q.fetches = p.fetches + 1 ∧ ((∃ e, r = .error e) ∧ Noted p q desc.backend [] ∨
      (∃ items, r = .ok items) ∧ Noted p q desc.backend [.extracting]) := by
  unfold fetch at h
  simp only at h
  split at h <;> cases h
  · exact ⟨rfl, .inl ⟨⟨_, rfl⟩, rfl, rfl⟩⟩
  · exact ⟨rfl, .inr ⟨⟨_, rfl⟩, rfl, rfl⟩⟩

theorem noted_fetchAndInstall {r : Except Error Unit}
    (h : p.fetchAndInstall env desc artifact deadline d = (r, q, after)) :
    ∃ fetched states, Progress fetched states ∧ Noted p q desc.backend states ∧
      q.fetches = p.fetches + fetched.toNat ∧ (states.head? ≠ some .extracting → ∃ e, r = .error e) := by
  unfold fetchAndInstall at h
  rcases ho : p.openDownload desc d with ⟨e | download, q', opened⟩ <;> rw [ho] at h
  · cases h
    obtain ⟨hf, ⟨-, hn⟩ | hn⟩ := noted_openDownload ho
    · exact ⟨false, _, .unopened, hn, hf, fun _ => ⟨e, rfl⟩⟩
    · exact ⟨false, _, .unfetched, hn, hf, fun _ => ⟨e, rfl⟩⟩
  obtain ⟨hf, ⟨⟨_, he⟩, -⟩ | hn⟩ := noted_openDownload ho
  · cases he
  simp only at h
  rcases hfetch : q'.fetch env desc artifact deadline with ⟨e | items, q''⟩ <;> rw [hfetch] at h
  · cases h
    obtain ⟨hf', ⟨-, hn'⟩ | ⟨⟨_, he⟩, -⟩⟩ := noted_fetch hfetch
    · exact ⟨true, _, .fetching, hn.trans hn', by rw [hf', hf]; rfl, fun _ => ⟨e, rfl⟩⟩
    · cases he
  · cases h
    obtain ⟨hf', ⟨⟨_, he⟩, -⟩ | ⟨-, hn'⟩⟩ := noted_fetch hfetch
    · cases he
    · exact ⟨true, _, .unpacking, hn.trans hn', by rw [hf', hf]; rfl, fun hne => absurd rfl hne⟩

/-- All that a call can record, by its result. -/
theorem noted_provision {r : Except Halt Path} (h : p.provision env desc d = (r, q, after)) :
    (r = .error .overflow ∧ q = p) ∨
    (desc.artifact = none ∧ (∃ e, r = .error (.error e)) ∧ q = p) ∨
    (r = .ok (p.installPath desc) ∧ q.fetches = p.fetches ∧ Noted p q desc.backend [.ready]) ∨
    ∃ end_ fetched states, desc.artifact ≠ none ∧ Progress fetched states ∧
      r = (p.conclude desc end_).1 ∧ Noted p q desc.backend (settled end_ :: states) ∧
      q.fetches = p.fetches + fetched.toNat ∧
      (states.head? ≠ some .extracting → ∃ e, end_ = .error e) := by
  unfold provision at h
  split at h
  · next hart =>
    unfold provisionBuiltIn at h
    simp only at h
    split at h <;> cases h
    · exact .inr (.inr (.inl ⟨rfl, rfl, (Noted.refl p _).record .ready⟩))
    · exact .inr (.inl ⟨hart, ⟨_, rfl⟩, rfl⟩)
  · next artifact hart =>
    split at h
    · cases h
      exact .inr (.inr (.inl ⟨rfl, rfl, (Noted.refl p _).record .ready⟩))
    · split at h
      · cases h
        exact .inl ⟨rfl, rfl⟩
      · rename_i deadline _
        rcases hrun : p.fetchAndInstall env desc artifact deadline d with ⟨end_, q', after'⟩
        obtain ⟨fetched, states, hprogress, hnoted, hfetches, hend⟩ := noted_fetchAndInstall hrun
        rw [hrun] at h
        have hresult : (q'.conclude desc end_).1 = (p.conclude desc end_).1 := by
          cases end_ <;> simp only [conclude, installPath, hnoted.root]
        refine .inr (.inr (.inr ⟨end_, fetched, states, by simp [hart], hprogress, ?_, ?_, ?_, hend⟩))
        · cases h
          exact hresult
        · cases h
          cases end_ <;> exact hnoted.record _
        · cases h
          cases end_ <;> exact hfetches

theorem root_of_provision {r : Except Halt Path} {q : Provisioner} {after : Disk}
    (hrun : p.provision env desc d = (r, q, after)) : q.root = p.root := by
  rcases noted_provision hrun with ⟨-, rfl⟩ | ⟨-, -, rfl⟩ | ⟨-, -, hn⟩ | ⟨_, _, _, -, -, -, hn, -⟩
  · rfl
  · rfl
  · exact hn.root
  · exact hn.root

theorem root_provision : (p.provision env desc d).2.1.root = p.root := root_of_provision rfl

/-- Calls of one backend do not touch what is recorded of another. -/
theorem recorded?_provision_of_ne {b : Backend} (hb : b ≠ desc.backend) :
    (p.provision env desc d).2.1.recorded? b = p.recorded? b := by
  rcases hrun : p.provision env desc d with ⟨r, q, after⟩
  rcases noted_provision hrun with ⟨-, rfl⟩ | ⟨-, -, rfl⟩ | ⟨-, -, hn⟩ | ⟨_, _, _, -, -, -, hn, -⟩
  · rfl
  · rfl
  · exact hn.recorded?_of_ne hb
  · exact hn.recorded?_of_ne hb

end calls

/-! Calls of `ensure` -/

/-- What a call of `ensure` does to provisioner and disk. -/
def afterEnsure (env : ProvisionEnv) (desc : Descriptor) (s : Provisioner × Disk) : Provisioner × Disk :=
  (s.1.ensure env desc s.2).2

/-- Calls of `ensure`, one after the other. -/
def ensureAll (calls : List (ProvisionEnv × Descriptor)) (s : Provisioner × Disk) :
    Provisioner × Disk :=
  calls.foldl (fun s c => afterEnsure c.1 c.2 s) s

section ensure

variable {p q : Provisioner} {env : ProvisionEnv} {desc : Descriptor} {d after : Disk}
  {s : ProvisionState} {b : Backend} {calls : List (ProvisionEnv × Descriptor)}

/-- A state that is returned was recorded, or is the failure of a backend without a download. -/
theorem ensure_cases (h : p.ensure env desc d = (.ok s, q, after)) :
    (q.recorded? desc.backend = some s ∧
        (s = .ready ∨ desc.artifact ≠ none ∧ ∃ kind reason, s = .failed kind reason)) ∨
      desc.artifact = none ∧ q = p ∧ ∃ kind reason, s = .failed kind reason := by
  unfold ensure at h
  rcases hrun : p.provision env desc d with ⟨r, q', after'⟩
  rw [hrun] at h
  rcases noted_provision hrun with
    ⟨rfl, -⟩ | ⟨hart, ⟨e, rfl⟩, rfl⟩ | ⟨rfl, -, hn⟩ | ⟨end_, _, _, hart, -, rfl, hn, -⟩
  · cases h
  · cases h
    exact .inr ⟨hart, rfl, _, _, rfl⟩
  · cases h
    exact .inl ⟨hn.recorded?_cons, .inl rfl⟩
  · cases end_ with
    | ok _ =>
      cases h
      exact .inl ⟨hn.recorded?_cons, .inl rfl⟩
    | error e =>
      cases h
      exact .inl ⟨hn.recorded?_cons, .inr ⟨hart, _, _, rfl⟩⟩

theorem afterEnsure_eq (env : ProvisionEnv) (desc : Descriptor) (s : Provisioner × Disk) :
    afterEnsure env desc s = (s.1.provision env desc s.2).2 := by
  unfold afterEnsure ensure
  rcases s.1.provision env desc s.2 with ⟨⟨e | _⟩ | _, q, after⟩ <;> rfl

theorem root_ensureAll (calls : List (ProvisionEnv × Descriptor)) (s : Provisioner × Disk) :
    (ensureAll calls s).1.root = s.1.root := by
  induction calls generalizing s with
  | nil => rfl
  | cons c calls ih =>
    calc (ensureAll calls (afterEnsure c.1 c.2 s)).1.root
        = (afterEnsure c.1 c.2 s).1.root := ih _
      _ = s.1.root := by rw [afterEnsure_eq, root_provision]

theorem recorded?_ensureAll_of_ne (hb : ∀ c ∈ calls, c.2.backend ≠ b) (s : Provisioner × Disk) :
    (ensureAll calls s).1.recorded? b = s.1.recorded? b := by
  induction calls generalizing s with
  | nil => rfl
  | cons c calls ih =>
    have hc := hb c List.mem_cons_self
    calc (ensureAll calls (afterEnsure c.1 c.2 s)).1.recorded? b
        = (afterEnsure c.1 c.2 s).1.recorded? b := ih (fun c hc => hb c (List.mem_cons_of_mem _ hc)) _
      _ = s.1.recorded? b := by rw [afterEnsure_eq, recorded?_provision_of_ne hc.symm]

/-- After `ensure` the status is what it returned, until the backend is provisioned again, exactly if
the backend has a download, or the call succeeded, or the same failure was on record before. In the
other case the status is what it was before the call. -/
theorem status_after_ensure (root : Path) (tree : Disk)
    (before later : List (ProvisionEnv × Descriptor)) (env : ProvisionEnv) (desc : Descriptor)
    (s : ProvisionState)
    (h : ((ensureAll before ({ root := root }, tree)).1.ensure env desc
      (ensureAll before ({ root := root }, tree)).2).1 = .ok s)
    (hlater : ∀ c ∈ later, c.2.backend ≠ desc.backend) :
    let old := ensureAll before ({ root := root }, tree)
    let new := ensureAll later (afterEnsure env desc old)
    (s = .ready ∨ ∃ kind reason, s = .failed kind reason) ∧
    ∀ d : Disk,
      (new.1.status d desc = s ↔
        desc.artifact ≠ none ∨ s = .ready ∨ old.1.recorded? desc.backend = some s) ∧
      (desc.artifact = none → s ≠ .ready → new.1.status d desc = old.1.status d desc) := by
  intro old new
  rcases hrun : old.1.ensure env desc old.2 with ⟨r, q, after⟩
  obtain rfl : r = .ok s := by
    rw [← h, hrun]
  have hnew : new.1.recorded? desc.backend = q.recorded? desc.backend := by
    rw [recorded?_ensureAll_of_ne hlater, afterEnsure, hrun]
  rcases ensure_cases hrun with ⟨hs, hkind⟩ | ⟨hart, rfl, kind, reason, rfl⟩
  · refine ⟨hkind.imp_right And.right, fun d => ⟨?_, fun hart hready => ?_⟩⟩
    · exact iff_of_true (status_of_recorded (hnew.trans hs) d)
        (hkind.elim (fun hready => .inr (.inl hready)) fun hart => .inl hart.1)
    · exact hkind.elim (fun he => absurd he hready) fun ⟨hne, _⟩ => absurd hart hne
  · have hroot : new.1.root = old.1.root := by
      rw [root_ensureAll, afterEnsure_eq, root_provision]
    refine ⟨.inr ⟨_, _, rfl⟩, fun d => ?_⟩
    have hstatus : new.1.status d desc = old.1.status d desc := status_congr hroot hnew d
    refine ⟨⟨fun hd => .inr (.inr ?_), fun hd => ?_⟩, fun _ _ => hstatus⟩
    · exact recorded?_of_status_failed (hstatus.symm.trans hd)
    · rw [hstatus]
      exact status_of_recorded (by simpa [hart] using hd) d

/-- No server is found. -/
def unreachable : ProvisionEnv where
  fetch := fun _ _ => ⟨.error (.network (.broken "no route")), false⟩
  now := ⟨0, 0⟩
  timeout := .ofSecs 60
  looks := fun _ => ⟨⟨0, 0⟩, false⟩

/-- A failed download stays the status, whatever is provisioned for others. -/
theorem status_after_ensure_unreachable :
    (({ root := "/r" } : Provisioner).ensure unreachable Backend.xmrig.descriptor {}).1 =
        .ok (.failed .network "download failed: no route") ∧
      (ensureAll [(unreachable, Backend.simulated.descriptor)]
        (afterEnsure unreachable Backend.xmrig.descriptor ({ root := "/r" }, {}))).1.status {}
        Backend.xmrig.descriptor = .failed .network "download failed: no route" := by
  have hfailed : (({ root := "/r" } : Provisioner).ensure unreachable Backend.xmrig.descriptor {}).1 =
      .ok (.failed .network "download failed: no route") := by rfl
  have hstays := status_after_ensure "/r" {} [] [(unreachable, Backend.simulated.descriptor)]
    unreachable Backend.xmrig.descriptor _ hfailed (by decide)
  exact ⟨hfailed, ((hstays.2 {}).1).2 (.inl (by simp [Backend.descriptor]))⟩

/-- A file where the directory of a built-in backend would be. -/
def occupied : Disk where
  nodes := [(["r"], .dir), (["r", "simulated"], .file ⟨0, [], 0o644⟩)]
  nextId := 1

/-- The failure is returned and not recorded. -/
theorem not_always_recorded :
    let p : Provisioner := { root := "/r" }
    (p.ensure unreachable Backend.simulated.descriptor occupied).1 =
        .ok (.failed .io "creating /r/simulated: File exists (os error 17)") ∧
      (afterEnsure unreachable Backend.simulated.descriptor (p, occupied)).1.status occupied
        Backend.simulated.descriptor = .ready := by
  exact ⟨rfl, rfl⟩

end ensure
end Provisioner
end RigWarden
