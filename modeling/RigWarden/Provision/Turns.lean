import RigWarden.Provision.Provisioner

/-!
# Taking turns

Any number of threads call one provisioner. A call waits for its turn and keeps it until it returns,
but its steps are apart, so that others see the states on the way. A call that is left alone does
what a single call does: `Stage.run_looking`.
-/

namespace RigWarden.Provision

inductive Stage where
  | waiting
  | looking
  | preparing (artifact : Artifact) (deadline : Clock)
  | fetching (artifact : Artifact) (deadline : Clock) (download : Path)
  | installing (artifact : Artifact) (deadline : Clock) (download : Path)
      (items : List Archive.Item)
  | concluding (r : Except Error Unit)
  | returned (r : Except Halt Path)

def Stage.isActive : Stage → Bool
  | .waiting => false
  | .returned _ => false
  | _ => true

structure Bench where
  provisioner : Provisioner
  disk : Disk

def look (env : ProvisionEnv) (desc : Descriptor) (b : Bench) : Bench × Stage :=
  match desc.artifact with
  | none =>
    let (r, p, d) := b.provisioner.provisionBuiltIn desc b.disk
    (⟨p, d⟩, .returned r)
  | some artifact =>
    if b.provisioner.isInstalled b.disk desc then
      (⟨b.provisioner.record desc.backend .ready, b.disk⟩,
        .returned (.ok (b.provisioner.installPath desc)))
    else match env.now.add? env.timeout with
      | none => (b, .returned (.error .overflow))
      | some deadline => (b, .preparing artifact deadline)

def Stage.step (env : ProvisionEnv) (desc : Descriptor) (b : Bench) : Stage → Bench × Stage
  | .waiting => (b, .waiting)
  | .looking => look env desc b
  | .preparing artifact deadline =>
    match b.provisioner.openDownload desc b.disk with
    | (.error e, p, d) => (⟨p, d⟩, .concluding (.error e))
    | (.ok download, p, d) => (⟨p, d⟩, .fetching artifact deadline download)
  | .fetching artifact deadline download =>
    match b.provisioner.fetch env desc artifact deadline with
    | (.error e, p) => (⟨p, b.disk.without download⟩, .concluding (.error e))
    | (.ok items, p) => (⟨p, b.disk⟩, .installing artifact deadline download items)
  | .installing artifact deadline download items =>
    let (r, d) := b.provisioner.install env desc artifact deadline items b.disk
    (⟨b.provisioner, d.without download⟩, .concluding r)
  | .concluding r =>
    let (r, p) := b.provisioner.conclude desc r
    (⟨p, b.disk⟩, .returned r)
  | .returned r => (b, .returned r)

def Stage.run (env : ProvisionEnv) (desc : Descriptor) : (steps : Nat) → Bench → Stage → Bench × Stage
  | 0, b, s => (b, s)
  | steps + 1, b, s =>
    let (b, s) := s.step env desc b
    run env desc steps b s

structure Caller where
  desc : Descriptor
  env : ProvisionEnv
  stage : Stage := .waiting

structure Office where
  bench : Bench
  callers : List Caller := []

namespace Office

inductive Step where
  | call (desc : Descriptor) (env : ProvisionEnv)
  | goOn (caller : Nat)

def isFree (o : Office) : Bool := !o.callers.any (·.stage.isActive)

def step (o : Office) : Step → Office
  | .call desc env => { o with callers := o.callers ++ [⟨desc, env, .waiting⟩] }
  | .goOn k =>
    match o.callers[k]? with
    | none => o
    | some c =>
      match c.stage with
      | .waiting =>
        if o.isFree then { o with callers := o.callers.set k { c with stage := .looking } } else o
      | stage =>
        let (b, stage) := stage.step c.env c.desc o.bench
        { o with bench := b, callers := o.callers.set k { c with stage := stage } }

def run (o : Office) (steps : List Step) : Office := steps.foldl step o

def status (o : Office) (desc : Descriptor) : ProvisionState :=
  o.bench.provisioner.status o.bench.disk desc

end Office

theorem Stage.run_succ (env : ProvisionEnv) (desc : Descriptor) (steps : Nat) (b : Bench)
    (s : Stage) : Stage.run env desc (steps + 1) b s =
      Stage.run env desc steps (s.step env desc b).1 (s.step env desc b).2 := rfl

theorem Stage.run_returned (env : ProvisionEnv) (desc : Descriptor) (steps : Nat) (b : Bench)
    (r : Except Halt Path) : Stage.run env desc steps b (.returned r) = (b, .returned r) := by
  induction steps with
  | zero => rw [Stage.run]
  | succ steps ih => rw [Stage.run_succ, Stage.step, ih]

theorem look_none {desc : Descriptor} (h : desc.artifact = none) (env : ProvisionEnv) (b : Bench) :
    look env desc b =
      (⟨(b.provisioner.provisionBuiltIn desc b.disk).2.1,
        (b.provisioner.provisionBuiltIn desc b.disk).2.2⟩,
        .returned (b.provisioner.provisionBuiltIn desc b.disk).1) := by
  simp only [look, h]

/-- Four steps are enough once it is known that something has to be fetched. -/
theorem Stage.run_preparing (env : ProvisionEnv) (desc : Descriptor) (b : Bench)
    (artifact : Artifact) (deadline : Clock) :
    Stage.run env desc 4 b (.preparing artifact deadline) =
      let f := b.provisioner.fetchAndInstall env desc artifact deadline b.disk
      let c := f.2.1.conclude desc f.1
      (⟨c.2, f.2.2⟩, .returned c.1) := by
  rw [Stage.run_succ, Stage.step, Provisioner.fetchAndInstall]
  rcases b.provisioner.openDownload desc b.disk with ⟨_ | download, p, d⟩
  · simp only [Stage.run_succ, Stage.step, Stage.run_returned]
  · simp only
    rw [Stage.run_succ, Stage.step]
    rcases p.fetch env desc artifact deadline with ⟨_ | items, q⟩
    · simp only [Stage.run_succ, Stage.step, Stage.run_returned]
    · simp only [Stage.run_succ, Stage.step, Stage.run_returned]

theorem provision_installed {env : ProvisionEnv} {desc : Descriptor} {b : Bench}
    {artifact : Artifact} (ha : desc.artifact = some artifact)
    (hi : b.provisioner.isInstalled b.disk desc = true) :
    b.provisioner.provision env desc b.disk =
      (.ok (b.provisioner.installPath desc), b.provisioner.record desc.backend .ready, b.disk) := by
  simp only [Provisioner.provision, ha, hi, ↓reduceIte]

theorem provision_overflow {env : ProvisionEnv} {desc : Descriptor} {b : Bench}
    {artifact : Artifact} (ha : desc.artifact = some artifact)
    (hi : b.provisioner.isInstalled b.disk desc = false)
    (ht : env.now.add? env.timeout = none) :
    b.provisioner.provision env desc b.disk = (.error .overflow, b.provisioner, b.disk) := by
  simp only [Provisioner.provision, ha, hi, ht, Bool.false_eq_true, if_false]

theorem provision_fetching {env : ProvisionEnv} {desc : Descriptor} {b : Bench}
    {artifact : Artifact} {deadline : Clock} (ha : desc.artifact = some artifact)
    (hi : b.provisioner.isInstalled b.disk desc = false)
    (ht : env.now.add? env.timeout = some deadline) :
    b.provisioner.provision env desc b.disk =
      let f := b.provisioner.fetchAndInstall env desc artifact deadline b.disk
      let c := f.2.1.conclude desc f.1
      (c.1, c.2, f.2.2) := by
  simp only [Provisioner.provision, ha, hi, ht, Bool.false_eq_true, if_false]

/-- Five steps are enough for a call that is left alone. -/
theorem Stage.run_looking (env : ProvisionEnv) (desc : Descriptor) (b : Bench) :
    Stage.run env desc 5 b .looking =
      (⟨(b.provisioner.provision env desc b.disk).2.1,
        (b.provisioner.provision env desc b.disk).2.2⟩,
        .returned (b.provisioner.provision env desc b.disk).1) := by
  rw [Stage.run_succ, Stage.step]
  cases ha : desc.artifact with
  | none =>
    have hp : b.provisioner.provision env desc b.disk =
        b.provisioner.provisionBuiltIn desc b.disk := by
      simp only [Provisioner.provision, ha]
    rw [look_none ha, run_returned, hp]
  | some artifact =>
    cases hi : b.provisioner.isInstalled b.disk desc with
    | true =>
      have hl : look env desc b = (⟨b.provisioner.record desc.backend .ready, b.disk⟩,
          .returned (.ok (b.provisioner.installPath desc))) := by
        simp only [look, ha, hi, ↓reduceIte]
      rw [hl, run_returned, provision_installed ha hi]
    | false =>
      cases ht : env.now.add? env.timeout with
      | none =>
        have hl : look env desc b = (b, .returned (.error .overflow)) := by
          simp only [look, ha, hi, ht, Bool.false_eq_true, if_false]
        rw [hl, run_returned, provision_overflow ha hi ht]
      | some deadline =>
        have hl : look env desc b = (b, .preparing artifact deadline) := by
          simp only [look, ha, hi, ht, Bool.false_eq_true, if_false]
        rw [hl, run_preparing, provision_fetching ha hi ht]

end RigWarden.Provision
