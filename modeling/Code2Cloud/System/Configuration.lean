import Code2Cloud.System.Keys
import Code2Cloud.System.Titles

/-!
# Changed configurations

The flag `configChanged` is set where variables are saved and cleared where a redeploy inserts its
row.  Whether the job that was pushed last carries what is stored is followed over all steps, with
the calls that have cleared the flag and not pushed their job yet.
-/

namespace Code2Cloud
namespace System
namespace ConfigChanged

open Api Worker EnvironmentVariables

variable {cfg : Config} {w : World} {s s' : State} {e : Event} {c c' : Call} {r : Reply}

/-! ## Configurations and the jobs that carry them -/

/-- What the rows of a project say about its builds. -/
structure Configuration where
  rootDirectory : String
  buildConfig : BuildConfig
  pythonVersion : EnvMap
  envVars : List EnvironmentVariable
  deriving DecidableEq

def configurationOf (l : Loaded) : Configuration where
  rootDirectory := l.project.rootDirectory
  buildConfig := buildConfigOf l.project
  pythonVersion := pythonVersionEnv l.project
  envVars := l.envVars

/-- The plain value of a stored variable.  The empty value is stored as a text that does not
decrypt. -/
def plainValue (e : EncryptionService) (v : EnvironmentVariable) : String :=
  match e.decrypt v.value with
  | .ok value => value
  | .error _ => ""

def environmentOf (e : EncryptionService) (l : Loaded) (vs : List EnvironmentVariable) : EnvMap :=
  EnvMap.merge [vs.map fun v => (v.key, plainValue e v), pythonVersionEnv l.project]

/-- The variables that are meant for the production build. -/
def productionVars (l : Loaded) : List EnvironmentVariable :=
  l.envVars.filter fun v => v.targets.contains .production

/-- The job carries the configuration.  A redeploy takes the variables with the production target,
a push and the creation of a project take all. -/
def Describes (e : EncryptionService) (l : Loaded) (job : BuildJob) : Prop :=
  job.rootDirectory = l.project.rootDirectory ∧ job.buildConfig = buildConfigOf l.project ∧
    (job.envVars = environmentOf e l (productionVars l) ∨ job.envVars = environmentOf e l l.envVars)

instance (e : EncryptionService) (l : Loaded) (job : BuildJob) : Decidable (Describes e l job) :=
  inferInstanceAs (Decidable (_ ∧ _ ∧ (_ ∨ _)))

theorem Describes.congr {e : EncryptionService} {l l' : Loaded} {job : BuildJob}
    (h : Describes e l job) (hsame : configurationOf l' = configurationOf l) :
    Describes e l' job := by
  obtain ⟨hroot, hbuild, henv⟩ := h
  have hroot' : l'.project.rootDirectory = l.project.rootDirectory :=
    congrArg Configuration.rootDirectory hsame
  have hbuild' : buildConfigOf l'.project = buildConfigOf l.project :=
    congrArg Configuration.buildConfig hsame
  have hpython : pythonVersionEnv l'.project = pythonVersionEnv l.project :=
    congrArg Configuration.pythonVersion hsame
  have hvars : l'.envVars = l.envVars := congrArg Configuration.envVars hsame
  refine ⟨hroot.trans hroot'.symm, hbuild.trans hbuild'.symm, ?_⟩
  rw [environmentOf, environmentOf, productionVars, hpython, hvars]
  exact henv

/-- A redeploy can carry the variable: it decrypts, and an assignment creates its name. -/
def portable (e : EncryptionService) (v : EnvironmentVariable) : Bool :=
  v.key != "__proto__" && (e.decrypt v.value).isOk

theorem assigned_eq_map {e : EncryptionService} {vs : List EnvironmentVariable}
    (h : ∀ v ∈ vs, portable e v = true) :
    assigned (vs.filterMap fun v =>
      match e.decrypt v.value with
      | .ok value => some (v.key, value)
      | .error _ => none) = vs.map fun v => (v.key, plainValue e v) := by
  induction vs with
  | nil => rfl
  | cons v vs ih =>
    have hportable := h v List.mem_cons_self
    rw [portable, Bool.and_eq_true] at hportable
    obtain ⟨hname, hvalue⟩ := hportable
    have ih := ih fun v hv => h v (List.mem_cons_of_mem _ hv)
    rw [List.filterMap_cons, List.map_cons, plainValue]
    cases hplain : e.decrypt v.value with
    | error error =>
      rw [hplain] at hvalue
      cases hvalue
    | ok value =>
      have hkept : assigned ((v.key, value) :: vs.filterMap fun v =>
          match e.decrypt v.value with
          | .ok value => some (v.key, value)
          | .error _ => none) = _ := List.filter_cons_of_pos hname
      exact hkept.trans (congrArg (List.cons (v.key, value)) ih)

theorem describes_redeploy {e : EncryptionService} {l : Loaded}
    (h : ∀ v ∈ productionVars l, portable e v = true) (installationId : String)
    (commit : CommitData) (id : DeploymentId) :
    Describes e l (DeploymentsService.job e l installationId commit id) := by
  refine ⟨rfl, rfl, Or.inl ?_⟩
  exact congrArg (fun kvs => EnvMap.merge [kvs, pythonVersionEnv l.project]) (assigned_eq_map h)

theorem map_plainValue_encryptAll (e : EncryptionService) (ivs : Nat → Iv)
    (vs : List EnvironmentVariable) :
    (encryptAll e ivs vs).map (fun v => (v.key, plainValue e v)) =
      vs.map fun v => (v.key, v.value) := by
  induction vs with
  | nil => rfl
  | cons v vs ih =>
    rw [encryptAll, List.map_cons, List.map_cons, ih, plainValue,
      EncryptionService.decrypt_encrypt]
    by_cases hv : v.value = ""
    · rw [if_pos hv, hv]
    · rw [if_neg hv]

/-- The project of an open transaction, as it will be loaded. -/
def loadedOf (draft : Draft) : Loaded where
  project := draft.project
  envVars := draft.environmentVariables
  domains := [draft.domain.name]

theorem describes_create (e : EncryptionService) (deployDomain hash : String) (ivs : Nat → Iv)
    (now : Nat) (db : Database) (userId : UserId) (dto : CreateProjectDto) (commit : CommitData)
    (installationId : String) :
    let d := ProjectsService.draft e deployDomain hash ivs now db userId dto commit
    Describes e (loadedOf d) (ProjectsService.job dto installationId d) := by
  intro d
  refine ⟨rfl, rfl, Or.inr ?_⟩
  have hrows : d.environmentVariables.map (fun v => (v.key, plainValue e v)) = dto.envVars := by
    refine (map_plainValue_encryptAll e ivs _).trans ?_
    rw [ProjectsService.newVariables, List.map_map]
    exact List.map_id _
  rw [environmentOf, show (loadedOf d).envVars = d.environmentVariables from rfl, hrows]
  rfl

/-! ## The ledger and the property -/

abbrev LastJobs := ProjectId → Option BuildJob

def lastJobs (last : LastJobs) : Command → LastJobs
  | .addBuildJob job => fun id => if id = job.projectId then some job else last id
  | _ => last

def noteJob (cfg : Config) (s : State) (e : Event) (_ : State) (last : LastJobs) : LastJobs :=
  (s.turn cfg e).elim last fun t => lastJobs last t.command

/-- The last job of the project carries what is stored. -/
def UpToDate (cfg : Config) (db : Database) (last : LastJobs) (p : Project) : Prop :=
  ∀ job ∈ last p.id, Describes cfg.encryption (load db p) job

/-- A request that can change what is stored of the project, or push a job of it.  Variables are
saved in one step. -/
def configures (id : ProjectId) : Call → Bool
  | .createDeployment (.findProject _ projectId) => projectId == id
  | .createDeployment (.findGitAccounts _ l) | .createDeployment (.findLatest _ l _)
  | .createDeployment (.getLatestCommit _ l _) | .createDeployment (.insert _ l _ _) =>
    l.project.id == id
  | .createDeployment (.enqueue job) => job.projectId == id
  | .updateProject (.findOne projectId _ _) | .updateProject (.update projectId _) =>
    projectId == id
  | .push _ => true
  | _ => false

/-- Where no request is at work on a project and its flag is not set, its last job carries what is
stored. -/
def Flagged (cfg : Config) (x : State × LastJobs) : Prop :=
  ∀ p ∈ x.1.world.db.projects, (∀ c ∈ x.1.procs.calls, configures p.id c = false) →
    p.configChanged = false → UpToDate cfg x.1.world.db x.2 p

/-! ## The condition on a step -/

/-- The call has inserted the row of a redeploy and is about to push a job that carries what is
stored. -/
def Promises (cfg : Config) (db : Database) (p : Project) : Call → Prop
  | .createDeployment (.enqueue job) =>
    job.projectId = p.id ∧ Describes cfg.encryption (load db p) job
  | _ => False

def Provided (cfg : Config) (db : Database) (last : LastJobs) (calls : List Call) (p : Project) :
    Prop :=
  UpToDate cfg db last p ∨ ∃ c ∈ calls, Promises cfg db p c

def issues (cfg : Config) (w : World) (r : Reply) (c : Call) : Bool :=
  match (c.step cfg w r).command with
  | .skip => false
  | _ => true

/-- What a step of a call leaves true of a project, `others` being the other calls: an update of the
settings does not change what a build takes while the flag is not set; a redeploy that clears the
flag has read what is stored and can carry it; the job that is pushed carries what is stored, or the
flag is set, and the push of a redeploy's job does not fail. -/
def Tells (cfg : Config) (w : World) (r : Reply) (last : LastJobs) (others : List Call)
    (p : Project) (c : Call) : Prop :=
  match c with
  | .updateProject (.update id dto) =>
    p.id = id → issues cfg w r c = true → p.configChanged = true ∨
      configurationOf (load w.db (applyUpdate w.now dto p)) = configurationOf (load w.db p)
  | .createDeployment (.insert _ l _ _) =>
    p.id = l.project.id → issues cfg w r c = true → Provided cfg w.db last others p ∨
      r.outcome = .ok ∧ configurationOf l = configurationOf (load w.db p) ∧
        ∀ v ∈ productionVars l, portable cfg.encryption v = true
  | .createDeployment (.enqueue job) | .push (.enqueue _ job _) =>
    p.id = job.projectId → p.configChanged = true ∨
      Provided cfg w.db (lastJobs last (c.step cfg w r).command) others p
  | _ => True

/-- Variables are saved for a project with a row, as `saveAll` checks. -/
def SavesStored (w : World) : Command → Prop
  | .replaceEnvironmentVariables id _ => w.hasProject id = true
  | _ => True

def Heeds (cfg : Config) (x : State × LastJobs) (e : Event) : Prop :=
  (∀ t ∈ x.1.turn cfg e, SavesStored x.1.world t.command) ∧
    match e with
    | .call i r => ∀ c ∈ x.1.procs.calls[i]?, ∀ p ∈ x.1.world.db.projects,
      Tells cfg x.1.world r x.2 (x.1.procs.calls.eraseIdx i) p c
    | _ => True

instance (cfg : Config) (db : Database) (last : LastJobs) (p : Project) :
    Decidable (UpToDate cfg db last p) := Option.decidableForallMem _

instance (cfg : Config) (db : Database) (p : Project) : DecidablePred (Promises cfg db p) := by
  intro c
  unfold Promises
  split <;> infer_instance

instance (cfg : Config) (db : Database) (last : LastJobs) (calls : List Call) (p : Project) :
    Decidable (Provided cfg db last calls p) := inferInstanceAs (Decidable (_ ∨ _))

instance (cfg : Config) (w : World) (r : Reply) (last : LastJobs) (others : List Call)
    (p : Project) (c : Call) : Decidable (Tells cfg w r last others p c) := by
  unfold Tells
  split <;> infer_instance

instance (w : World) : DecidablePred (SavesStored w) := by
  intro c
  unfold SavesStored
  split <;> infer_instance

instance (cfg : Config) (x : State × LastJobs) (e : Event) : Decidable (Heeds cfg x e) := by
  unfold Heeds
  split <;> infer_instance

instance (cfg : Config) (x : State × LastJobs) : Decidable (Flagged cfg x) :=
  inferInstanceAs (Decidable (∀ p ∈ x.1.world.db.projects, _ → _ → _))

/-! ## What a command makes of the stored projects -/

/-- Where a project that is stored after a command comes from. -/
inductive Follows (w : World) (p' : Project) : Command → Prop
  /-- Its flag and what a build takes from it are as they were. -/
  | kept {k : Command} {p : Project} (hp : p ∈ w.db.projects) (hid : p'.id = p.id)
      (hflag : p'.configChanged = p.configChanged)
      (hsame : configurationOf (load (k.change w.now w.db) p') = configurationOf (load w.db p)) :
      Follows w p' k
  | saved {id : ProjectId} {rows : List EnvironmentVariable} (hflag : p'.configChanged = true) :
      Follows w p' (.replaceEnvironmentVariables id rows)
  | updated {id : ProjectId} {dto : UpdateProjectDto} {p : Project} (hp : p ∈ w.db.projects)
      (hid : p.id = id) (h : p' = applyUpdate w.now dto p) : Follows w p' (.updateProject id dto)
  | redeployed {d : Deployment} {p : Project} (hp : p ∈ w.db.projects) (hid : p.id = d.projectId)
      (h : p' = { p with configChanged := false, updatedAt := w.now }) :
      Follows w p' (.createRedeployment d)
  | created {draft : Draft} (h : p' = draft.project) : Follows w p' (.commitDraft draft)

/-- What a build takes from a project depends on its settings and its variables. -/
theorem configurationOf_load {db db' : Database} {p p' : Project}
    (hroot : p'.rootDirectory = p.rootDirectory) (hbuild : buildConfigOf p' = buildConfigOf p)
    (hpython : p'.pythonVersion = p.pythonVersion)
    (hrows : db'.environmentVariablesOf p'.id = db.environmentVariablesOf p.id) :
    configurationOf (load db' p') = configurationOf (load db p) := by
  have hversion : pythonVersionEnv p' = pythonVersionEnv p := by
    rw [pythonVersionEnv, pythonVersionEnv, hpython]
  simp only [configurationOf, load, hroot, hbuild, hversion, hrows]

theorem follows_change {k : Command} {p' : Project} (hadmits : w.admits k = true)
    (hrows : ∀ draft, k = .commitDraft draft →
      ∀ v ∈ draft.environmentVariables, v.projectId = draft.project.id)
    (hnew : ∀ draft, k = .commitDraft draft → ∀ p ∈ w.db.projects, p.id ≠ draft.project.id)
    (h : p' ∈ (k.change w.now w.db).projects) : Follows w p' k := by
  cases k with
  | commitDraft draft =>
    rcases List.mem_append.mp h with hold | hadded
    · refine .kept hold rfl rfl (configurationOf_load rfl rfl rfl ?_)
      exact ProjectsService.environmentVariablesOf_insertDraft_old (hnew draft rfl p' hold)
        (hrows draft rfl)
    · exact .created (List.mem_singleton.mp hadded)
  | updateProject id dto =>
    obtain ⟨p, hp, rfl⟩ := List.mem_map.mp h
    split
    · rename_i hid
      exact .updated hp hid rfl
    · exact .kept hp rfl rfl rfl
  | createRedeployment d =>
    obtain ⟨p, hp, rfl⟩ := List.mem_map.mp h
    split
    · rename_i hid
      exact .redeployed hp hid rfl
    · exact .kept hp rfl rfl rfl
  | setOnlineStatus id status =>
    obtain ⟨p, hp, rfl⟩ := List.mem_map.mp h
    split <;> exact .kept hp rfl rfl rfl
  | replaceEnvironmentVariables id rows =>
    obtain ⟨p, hp, rfl⟩ := List.mem_map.mp h
    split
    · exact .saved rfl
    · rename_i hid
      refine .kept hp rfl rfl (configurationOf_load rfl rfl rfl ?_)
      have hothers : rows.filter (fun v => v.projectId == p.id) = [] := by
        refine List.filter_eq_nil_iff.mpr fun v hv => ?_
        have hsaved := List.all_eq_true.mp hadmits v hv
        rw [beq_iff_eq] at hsaved ⊢
        exact fun hv' => hid (hv'.symm.trans hsaved)
      change (w.db.environmentVariables.filter (fun v => v.projectId != id) ++ rows).filter
        (fun v => v.projectId == p.id) = _
      rw [List.filter_append, hothers, List.append_nil, List.filter_filter]
      refine List.filter_congr fun v _ => ?_
      by_cases hv : v.projectId = p.id
      · simp [hv, hid]
      · simp [hv]
  | deleteProject id =>
    obtain ⟨hp, hid⟩ := List.mem_filter.mp h
    refine .kept hp rfl rfl (configurationOf_load rfl rfl rfl ?_)
    change (w.db.environmentVariables.filter (fun v => v.projectId != id)).filter
      (fun v => v.projectId == p'.id) = _
    rw [List.filter_filter]
    refine List.filter_congr fun v _ => ?_
    by_cases hv : v.projectId = p'.id
    · simp [hv, bne_iff_ne.mp hid]
    · simp [hv]
  | _ => exact .kept h rfl rfl rfl

/-! ## Projects whose row is there or was there -/

/-- No row of the project will be inserted. -/
def Spent (s : State) (id : ProjectId) : Prop :=
  id < s.world.db.nextId ∧
    ∀ c ∈ s.procs.calls, ∀ draft, c.draft = some draft → draft.project.id ≠ id

theorem Spent.step {id : ProjectId} (hid : Spent s id) (h : s.step cfg e = some s') :
    Spent s' id := by
  obtain ⟨t, ht, _⟩ := State.step_eq_some_iff.mp h
  refine ⟨?_, fun c hc draft hdraft => ?_⟩
  · rw [State.nextId_turn h ht]
    exact Nat.lt_add_right _ hid.1
  · rcases State.draft_step_cases h hc hdraft with ⟨c₀, hc₀, hheld⟩ | hnew
    · exact hid.2 c₀ hc₀ draft hheld
    · rw [← hnew.projectId, hnew.id.2]
      exact hid.1.ne'

theorem spent_of_row (hl : s.Listed) {p : Project} (hp : p ∈ s.world.db.projects) :
    Spent s p.id := by
  have hrow : 0 < projectsOf p.id s.world.db.projects :=
    List.countP_pos_iff.mpr ⟨p, hp, beq_self_eq_true _⟩
  refine ⟨hl.lt (Nat.lt_of_lt_of_le hrow (Nat.le_add_right _ _)), fun c hc draft hdraft hid => ?_⟩
  have hopen : 0 < s.procs.calls.countP (Call.draftsProject p.id) := by
    refine List.countP_pos_iff.mpr ⟨c, hc, ?_⟩
    rw [Call.draftsProject, hdraft, ← hid]
    exact beq_self_eq_true _
  have hone := (hl p.id).1
  rw [State.projectRows] at hone
  omega

/-- At most one call is in a transaction of a project. -/
theorem eq_of_drafts (hl : s.Listed) (hc : c ∈ s.procs.calls) (hc' : c' ∈ s.procs.calls)
    {draft draft' : Draft} (hdraft : c.draft = some draft) (hdraft' : c'.draft = some draft')
    (hid : draft.project.id = draft'.project.id) : c = c' := by
  have hone := (hl draft'.project.id).1
  rw [State.projectRows] at hone
  have hle : s.procs.calls.countP (Call.draftsProject draft'.project.id) ≤ 1 :=
    Nat.le_trans (Nat.le_add_left _ _) hone
  refine Table.eq_of_countP_le hle hc hc' ?_ ?_
  · rw [Call.draftsProject, hdraft, ← hid]
    exact beq_self_eq_true _
  · rw [Call.draftsProject, hdraft']
    exact beq_self_eq_true _

/-! ## The creation of a project -/

/-- What a call holds that is in the transaction of a new project. -/
structure Drafted (cfg : Config) (last : LastJobs) (draft : Draft) (c : Call) : Prop where
  rows : ∀ v ∈ draft.environmentVariables, v.projectId = draft.project.id
  job : ∀ job, c.held = some job →
    job.projectId = draft.project.id ∧ Describes cfg.encryption (loadedOf draft) job
  pushed : c = .createProject (.commit draft) →
    ∃ job, last draft.project.id = some job ∧ Describes cfg.encryption (loadedOf draft) job

theorem drafted_of_openDraft {last : LastJobs} {draft : Draft}
    (h : (c.step cfg w r).command = .openDraft draft) (hnext : (c.step cfg w r).next = some c') :
    Drafted cfg last draft c' := by
  have hissued := issuedBy_step cfg w r c
  rw [h] at hissued
  obtain ⟨userId, dto, installationId, commit, _, rfl⟩ := hissued
  simp only [Call.step, ProjectsService.Create.step] at h hnext
  split at h
  · rename_i hok
    rw [if_pos hok] at hnext
    cases h
    cases hnext
    refine ⟨fun v hv => ?_, fun job hjob => ?_, fun hcommit => ?_⟩
    · obtain ⟨x, hx, hid⟩ := projectId_of_mem_encryptAll _ hv
      obtain ⟨kv, _, rfl⟩ := List.mem_map.mp hx
      exact hid
    · cases hjob
      exact ⟨rfl, describes_create cfg.encryption cfg.deployDomain r.hash r.ivs w.now w.db userId
        dto commit installationId⟩
    · cases hcommit
  · cases h

/-- What follows the transaction's push of the job. -/
theorem drafted_enqueue {last : LastJobs} {draft : Draft} {job : BuildJob}
    (hd : Drafted cfg last draft (.createProject (.enqueue draft job)))
    (hnext : ((Call.createProject (.enqueue draft job)).step cfg w r).next = some c') :
    Drafted cfg (lastJobs last ((Call.createProject (.enqueue draft job)).step cfg w r).command)
      draft c' := by
  obtain ⟨hid, hdescribes⟩ := hd.job job rfl
  rw [Call.step, ProjectsService.Create.step, Turn.map_issue] at hnext ⊢
  have hrollback {last : LastJobs} : Drafted cfg last draft (.createProject (.rollback draft)) := by
    refine ⟨hd.rows, fun _ hjob => ?_, fun hcommit => ?_⟩
    · cases hjob
    · cases hcommit
  rcases issue_cases w r.outcome (.addBuildJob job)
    (Flow.toCall Call.createProject (.next (.commit draft)))
    (Flow.toCall Call.createProject (.next (.rollback draft))) [] [] with
    ⟨_, h⟩ | ⟨_, h⟩ | h <;> rw [h] at hnext ⊢ <;> cases hnext
  · refine ⟨hd.rows, fun _ hjob => ?_, fun _ => ⟨job, if_pos hid.symm, hdescribes⟩⟩
    cases hjob
  · exact hrollback
  · exact hrollback

/-- What follows a call in a transaction: it opens it, or is about to push its job. -/
theorem next_draft {draft : Draft} (hnext : (c.step cfg w r).next = some c')
    (hdraft : c'.draft = some draft) :
    (c.step cfg w r).command = .openDraft draft ∨
      ∃ job, c = .createProject (.enqueue draft job) := by
  have hinserts := inserts_step cfg w c r
  rw [hnext, Option.bind_some, hdraft] at hinserts
  generalize hcommand : (c.step cfg w r).command = command at hinserts
  generalize hheld : c.draft = held at hinserts
  cases hinserts with
  | openDraft => exact Or.inl rfl
  | keep hnone =>
    refine Or.inr ?_
    unfold Call.draft at hheld
    split at hheld <;> cases hheld
    · exact ⟨_, rfl⟩
    · rw [Call.step, ProjectsService.Create.step] at hnext
      split at hnext <;> cases hnext
    · cases hnext

/-! ## The invariant -/

variable {last : LastJobs}

/-- The flag of the project is set, or its last job carries what is stored, or one that does will be
pushed. -/
def Told (cfg : Config) (db : Database) (last : LastJobs) (calls : List Call) (p : Project) :
    Prop :=
  p.configChanged = true ∨ Provided cfg db last calls p

/-- What is known of every state of a run whose steps meet the condition. -/
structure Kept (cfg : Config) (s : State) (last : LastJobs) : Prop where
  listed : s.Listed
  environment : ∀ v ∈ s.world.db.environmentVariables, s.world.hasProject v.projectId = true
  held : ∀ c ∈ s.procs.calls, ∀ job, c.held = some job → c.draft = none → Spent s job.projectId
  drafts : ∀ c ∈ s.procs.calls, ∀ draft, c.draft = some draft → Drafted cfg last draft c
  told : ∀ p ∈ s.world.db.projects, Told cfg s.world.db last s.procs.calls p

theorem kept_initial : Kept cfg .initial (fun _ => none) where
  listed _ := ⟨Nat.zero_le _, fun _ => rfl⟩
  environment _ hv := absurd hv List.not_mem_nil
  held _ hc := absurd hc List.not_mem_nil
  drafts _ hc := absurd hc List.not_mem_nil
  told _ hp := absurd hp List.not_mem_nil

theorem noteJob_eq {t : Turn Processes} (ht : s.turn cfg e = some t) (s' : State)
    (last : LastJobs) : noteJob cfg s e s' last = lastJobs last t.command := by
  rw [noteJob, ht, Option.elim_some]

theorem turn_call_eq {t : Turn Processes} {i : Nat} (hc : s.procs.calls[i]? = some c)
    (ht : s.turn cfg (.call i r) = some t) : t.command = (c.step cfg s.world r).command := by
  rw [State.turn, hc, Option.map_some] at ht
  cases ht
  rfl

theorem lastJobs_of_ne {k : Command} {id : ProjectId}
    (h : ∀ job, k = .addBuildJob job → id ≠ job.projectId) : lastJobs last k id = last id := by
  cases k with
  | addBuildJob job => exact if_neg (h job rfl)
  | _ => rfl

theorem Kept.environment_step (hx : Kept cfg s last) (hok : Heeds cfg (s, last) e)
    (h : s.step cfg e = some s') {v : EnvironmentVariable}
    (hv : v ∈ s'.world.db.environmentVariables) : s'.world.hasProject v.projectId = true := by
  obtain ⟨t, ht, _, rfl⟩ := State.step_eq_some_iff.mp h
  have hdeleted : t.command ≠ .deleteProject v.projectId := by
    intro hc
    rw [State.after, World.record_db, hc] at hv
    have hkept := (List.mem_filter.mp hv).2
    simp at hkept
  have hstays {id : ProjectId} (hid : v.projectId = id) (hrow : s.world.hasProject id = true) :
      (s.world.exec cfg t.command).hasProject v.projectId = true := by
    rw [← hid] at hrow
    exact World.hasProject_exec_of_ne hdeleted hrow
  rw [State.after, World.record_db, World.db_exec] at hv
  rcases mem_environmentVariables_change hv with hold | ⟨id, rows, hc, hrow⟩ | ⟨draft, hc, hrow⟩
  · exact hstays rfl (hx.environment v hold)
  · have hsaves := hok.1 t ht
    have hadmits := State.admits_turn ht
    rw [hc] at hsaves hadmits
    exact hstays (eq_of_beq (List.all_eq_true.mp hadmits v hrow)) hsaves
  · obtain ⟨c, hmem, hdraft⟩ := State.holder_of_commit ht hc
    rw [(hx.drafts c hmem draft hdraft).rows v hrow]
    refine List.any_eq_true.mpr ⟨draft.project, ?_, beq_self_eq_true _⟩
    rw [State.after, World.record_db, hc]
    exact List.mem_append_right _ (List.mem_singleton_self _)

/-- A call takes up a job of a project with a row. -/
theorem Kept.held_step (hx : Kept cfg s last) (h : s.step cfg e = some s')
    (hc' : c' ∈ s'.procs.calls) {job : BuildJob} (hjob : c'.held = some job)
    (hnone : c'.draft = none) : Spent s' job.projectId := by
  cases State.origin_step h hc' with
  | old hold => exact (hx.held c' hold job hjob hnone).step h
  | start r => cases r <;> cases hjob
  | late => cases hjob
  | @next i r c _ hc hnext =>
    have hholds := holds_step cfg s.world c r
    rw [hnext, Option.bind_some, hjob] at hholds
    have hadmits := admits_call cfg s.world r c
    generalize hcommand : (c.step cfg s.world r).command = command at hholds hadmits
    generalize c.held = held at hholds
    cases hholds with
    | @insert _ _ _ d hinsert _ _ _ hproject =>
      have hfound : (s.world.db.findProject d.projectId).isSome = true := by
        rcases hinsert with rfl | rfl <;> exact hadmits
      rw [Database.findProject, List.find?_isSome] at hfound
      obtain ⟨p, hp, hid⟩ := hfound
      rw [hproject, ← eq_of_beq hid]
      exact (spent_of_row hx.listed hp).step h
    | openDraft =>
      have hissued := issuedBy_step cfg s.world r c
      rw [hcommand] at hissued
      obtain ⟨userId, dto, installationId, commit, _, rfl⟩ := hissued
      rw [Call.step, ProjectsService.Create.step] at hnext
      split at hnext <;> cases hnext
      cases hnone

theorem Kept.drafts_step (hx : Kept cfg s last) (h : s.step cfg e = some s')
    (hc' : c' ∈ s'.procs.calls) {draft : Draft} (hdraft : c'.draft = some draft) :
    Drafted cfg (noteJob cfg s e s' last) draft c' := by
  obtain ⟨t, ht, _⟩ := State.step_eq_some_iff.mp h
  rw [noteJob_eq ht]
  cases State.origin_step h hc' with
  | old hold =>
    have hd := hx.drafts c' hold draft hdraft
    refine ⟨hd.rows, hd.job, fun hcommit => ?_⟩
    -- no other call has a job of this project
    rw [lastJobs_of_ne]
    · exact hd.pushed hcommit
    · intro job hcommand hid
      obtain ⟨c, hc, hheld⟩ := State.pushes_turn ht hcommand
      cases hother : c.draft with
      | none => exact (hx.held c hc job hheld hother).2 c' hold draft hdraft hid
      | some draft' =>
        have hid' := ((hx.drafts c hc draft' hother).job job hheld).1
        rw [eq_of_drafts hx.listed hc hold hother hdraft (hid'.symm.trans hid.symm), hcommit]
          at hheld
        cases hheld
  | start r => cases r <;> cases hdraft
  | late => cases hdraft
  | @next i r c _ hc hnext =>
    rw [turn_call_eq hc ht]
    rcases next_draft hnext hdraft with hopen | ⟨job, rfl⟩
    · exact drafted_of_openDraft hopen hnext
    · exact drafted_enqueue (hx.drafts _ (List.mem_of_getElem? hc) draft rfl) hnext

/-! ## What a step leaves true -/

section Mono

variable {db db' : Database} {last' : LastJobs} {calls calls' : List Call} {p p' : Project}

theorem Provided.mono (h : Provided cfg db last calls p) (hid : p'.id = p.id)
    (hsame : configurationOf (load db' p') = configurationOf (load db p))
    (hlast : last' p.id = last p.id) (hcalls : ∀ c ∈ calls, Promises cfg db p c → c ∈ calls') :
    Provided cfg db' last' calls' p' := by
  rcases h with hcarries | ⟨c, hc, hpromises⟩
  · refine Or.inl fun job hjob => ?_
    rw [hid, hlast] at hjob
    exact (hcarries job hjob).congr hsame
  · refine Or.inr ⟨c, hcalls c hc hpromises, ?_⟩
    unfold Promises at hpromises ⊢
    split at hpromises
    · exact ⟨hpromises.1.trans hid.symm, hpromises.2.congr hsame⟩
    · exact hpromises

theorem Told.mono (h : Told cfg db last calls p) (hid : p'.id = p.id)
    (hflag : p'.configChanged = p.configChanged)
    (hsame : configurationOf (load db' p') = configurationOf (load db p))
    (hlast : last' p.id = last p.id) (hcalls : ∀ c ∈ calls, Promises cfg db p c → c ∈ calls') :
    Told cfg db' last' calls' p' :=
  h.imp hflag.trans fun hprovided => hprovided.mono hid hsame hlast hcalls

end Mono

/-- A step that is no call's keeps the calls, and does not touch settings or the build queue. -/
theorem calls_of_not_call (he : ∀ i r, e ≠ .call i r) (h : s.step cfg e = some s')
    (hc : c ∈ s.procs.calls) : c ∈ s'.procs.calls := by
  rcases State.step_cases h with ⟨i, r, _, _, _, hcall, _⟩ | ⟨r, _, hs'⟩ | ⟨_, _, hb⟩
  · exact absurd hcall (he i r)
  · rw [hs']
    exact List.mem_append_left _ hc
  · rw [hb.calls]
    exact List.mem_append_left _ hc

theorem Kept.told_rest (hx : Kept cfg s last) (he : ∀ i r, e ≠ .call i r)
    (h : s.step cfg e = some s') {p' : Project} (hp' : p' ∈ s'.world.db.projects) :
    Told cfg s'.world.db (noteJob cfg s e s' last) s'.procs.calls p' := by
  have hcalls := fun c (hc : c ∈ s.procs.calls) => calls_of_not_call he h hc
  obtain ⟨t, ht, _, rfl⟩ := State.step_eq_some_iff.mp h
  rw [noteJob_eq ht, State.after, World.record_db, World.db_exec]
  rw [State.after, World.record_db, World.db_exec] at hp'
  have hadmits := State.admits_turn ht
  have haside : t.command.background = true ∨ t.command.bystander = true := by
    rcases State.command_turn ht with ⟨i, r, _, rfl, _⟩ | ⟨r, _, hcommand⟩ | hb
    · exact absurd rfl (he i r)
    · rw [hcommand]
      exact Or.inl (background_worker cfg s.world r s.procs.worker).command
    · exact Or.inr hb
  generalize t.command = k at hp' hadmits haside ⊢
  have hcommit : ∀ draft, k ≠ .commitDraft draft := by
    rintro draft rfl
    rcases haside with hk | hk <;> cases hk
  have hpush : ∀ job, k ≠ .addBuildJob job := by
    rintro job rfl
    rcases haside with hk | hk <;> cases hk
  have hfollows := follows_change hadmits (fun draft hk => absurd hk (hcommit draft))
    (fun draft hk => absurd hk (hcommit draft)) hp'
  cases hfollows with
  | kept hp hid hflag hsame =>
    exact (hx.told _ hp).mono hid hflag hsame (lastJobs_of_ne fun job hk => absurd hk (hpush job))
      fun c hc _ => hcalls c hc
  | saved hflag => exact Or.inl hflag
  | updated => rcases haside with hk | hk <;> cases hk
  | redeployed => rcases haside with hk | hk <;> cases hk
  | created => exact absurd rfl (hcommit _)

section Calls

variable {before later : List Call} {p p' : Project}

/-- The push of a redeploy's job. -/
theorem Kept.told_enqueue (hx : Kept cfg s last) {job : BuildJob}
    (hcalls : s.procs.calls = before ++ .createDeployment (.enqueue job) :: later)
    (htells : ∀ p ∈ s.world.db.projects,
      Tells cfg s.world r last (before ++ later) p (.createDeployment (.enqueue job)))
    (hp : p ∈ s.world.db.projects) :
    Told cfg s.world.db
      (lastJobs last ((Call.createDeployment (.enqueue job)).step cfg s.world r).command)
      (before ++ later) p := by
  by_cases hid : p.id = job.projectId
  · exact htells p hp hid
  · refine (hx.told p hp).mono rfl rfl rfl (lastJobs_of_ne fun job' hcommand => ?_) ?_
    · cases held_of_addBuildJob hcommand
      exact hid
    · intro c hc hpromises
      rw [hcalls, List.mem_append, List.mem_cons] at hc
      rw [List.mem_append]
      rcases hc with hc | rfl | hc
      · exact Or.inl hc
      · exact absurd hpromises.1.symm hid
      · exact Or.inr hc

/-- The insert of a redeploy's row, which clears the flag. -/
theorem provided_redeploy {userId : UserId} {l : Loaded}
    {installationId : String} {commit : CommitData}
    (hcommand : ((Call.createDeployment (.insert userId l installationId commit)).step cfg s.world
      r).command = .createRedeployment (DeploymentsService.row s.world userId l commit))
    (hid : p.id = l.project.id)
    (htells : Tells cfg s.world r last (before ++ later) p
      (.createDeployment (.insert userId l installationId commit))) :
    Provided cfg s.world.db last (before ++ ((Call.createDeployment
      (.insert userId l installationId commit)).step cfg s.world r).next.toList ++ later) p := by
  have hissues : issues cfg s.world r (.createDeployment (.insert userId l installationId commit)) =
      true := by
    rw [issues, hcommand]
  rcases htells hid hissues with hprovided | ⟨hok, hfresh, hportable⟩
  · refine hprovided.mono rfl rfl rfl fun c hc _ => ?_
    rcases List.mem_append.mp hc with hc | hc
    · exact List.mem_append_left _ (List.mem_append_left _ hc)
    · exact List.mem_append_right _ hc
  · -- the call goes on with a job of what it has read
    have hnext : ((Call.createDeployment (.insert userId l installationId commit)).step cfg s.world
        r).next = some (.createDeployment (.enqueue (DeploymentsService.job cfg.encryption l
          installationId commit (DeploymentsService.row s.world userId l commit).id))) := by
      rw [Call.step, DeploymentsService.Create.step, Turn.map_issue, hok] at hcommand ⊢
      refine next_issue_ok fun hskip => ?_
      rw [hskip] at hcommand
      cases hcommand
    rw [hnext]
    refine Or.inr ⟨_,
      List.mem_append_left _ (List.mem_append_right _ (List.mem_singleton_self _)), ?_⟩
    exact ⟨hid.symm, (describes_redeploy hportable _ _ _).congr hfresh.symm⟩

/-- A push of a project's job by another call than a redeploy's is that of a push, or the project
has no row yet. -/
theorem Kept.told_push (hx : Kept cfg s last) (hmem : c ∈ s.procs.calls)
    (hc : ∀ job, c ≠ .createDeployment (.enqueue job)) (hp : p ∈ s.world.db.projects)
    (htells : Tells cfg s.world r last (before ++ later) p c) {job : BuildJob}
    (hcommand : (c.step cfg s.world r).command = .addBuildJob job) (hid : p.id = job.projectId) :
    Told cfg s.world.db (lastJobs last (c.step cfg s.world r).command) (before ++ later) p := by
  have hheld := held_of_addBuildJob hcommand
  unfold Call.held at hheld
  split at hheld <;> cases hheld
  · exact absurd rfl (hc job)
  · exact htells hid
  · rename_i draft
    have hjob := ((hx.drafts _ hmem draft rfl).job job rfl).1
    exact absurd (hid.trans hjob).symm ((spent_of_row hx.listed hp).2 _ hmem draft rfl)

theorem Kept.told_call (hx : Kept cfg s last)
    (hcalls : s.procs.calls = before ++ c :: later)
    (htells : ∀ p ∈ s.world.db.projects, Tells cfg s.world r last (before ++ later) p c)
    (hp' : p' ∈ ((c.step cfg s.world r).command.change s.world.now s.world.db).projects) :
    Told cfg ((c.step cfg s.world r).command.change s.world.now s.world.db)
      (lastJobs last (c.step cfg s.world r).command)
      (before ++ (c.step cfg s.world r).next.toList ++ later) p' := by
  have hmem : c ∈ s.procs.calls := by
    rw [hcalls]
    exact List.mem_append_right _ List.mem_cons_self
  have hothers {c' : Call} (hc' : c' ∈ before ++ later) :
      c' ∈ before ++ (c.step cfg s.world r).next.toList ++ later := by
    rcases List.mem_append.mp hc' with hc' | hc'
    · exact List.mem_append_left _ (List.mem_append_left _ hc')
    · exact List.mem_append_right _ hc'
  by_cases henqueue : ∃ job, c = .createDeployment (.enqueue job)
  · obtain ⟨job, rfl⟩ := henqueue
    have hdb : ((Call.createDeployment (.enqueue job)).step cfg s.world r).command.change
        s.world.now s.world.db = s.world.db := by
      rcases command_call cfg s.world r (.createDeployment (.enqueue job)) with h | h <;> rw [h] <;>
        rfl
    rw [hdb] at hp' ⊢
    exact (hx.told_enqueue hcalls htells hp').mono rfl rfl rfl rfl fun _ hc _ => hothers hc
  · have hstays {p : Project} : ∀ c' ∈ s.procs.calls, Promises cfg s.world.db p c' →
        c' ∈ before ++ later := by
      intro c' hc' hpromises
      rw [hcalls, List.mem_append, List.mem_cons] at hc'
      rw [List.mem_append]
      rcases hc' with hc' | rfl | hc'
      · exact Or.inl hc'
      · unfold Promises at hpromises
        split at hpromises
        · exact absurd ⟨_, rfl⟩ henqueue
        · cases hpromises
      · exact Or.inr hc'
    have hcommit : ∀ draft, (c.step cfg s.world r).command = .commitDraft draft →
        c.draft = some draft := fun draft hk => draft_of_commit hk
    have hfollows := follows_change (admits_call cfg s.world r c)
      (fun draft hk => (hx.drafts c hmem draft (hcommit draft hk)).rows)
      (fun draft hk p hp hid => (spent_of_row hx.listed hp).2 c hmem draft (hcommit draft hk)
        hid.symm) hp'
    have hissued := issuedBy_step cfg s.world r c
    generalize hk : (c.step cfg s.world r).command = k at hfollows hissued
    have hissues (hskip : k ≠ .skip) : issues cfg s.world r c = true := by
      rw [issues, hk]
      cases k <;> first | rfl | exact absurd rfl hskip
    cases hfollows with
    | @kept k p hp hid hflag hsame =>
      by_cases hpush : ∃ job, k = .addBuildJob job ∧ p.id = job.projectId
      · obtain ⟨job, rfl, hjob⟩ := hpush
        have htold := hx.told_push hmem (fun job hc => henqueue ⟨job, hc⟩) hp (htells p hp) hk hjob
        rw [hk] at htold
        exact htold.mono hid hflag hsame rfl fun _ hc _ => hothers hc
      · refine (hx.told p hp).mono hid hflag hsame (lastJobs_of_ne fun job hjob hp' => ?_)
          fun c' hc' hpromises => hothers (hstays c' hc' hpromises)
        exact hpush ⟨job, hjob, hp'⟩
    | saved hflag => exact Or.inl hflag
    | @updated id dto p hp hid h =>
      subst h
      obtain rfl : c = .updateProject (.update id dto) := hissued
      rcases htells p hp hid (hissues (by rintro ⟨⟩)) with hset | hsame
      · exact Or.inl hset
      · refine (hx.told p hp).mono rfl rfl ?_ rfl
          fun c' hc' hpromises => hothers (hstays c' hc' hpromises)
        exact (configurationOf_load rfl rfl rfl rfl).trans hsame
    | @redeployed d p hp hid h =>
      subst h
      obtain ⟨userId, l, installationId, commit, rfl, rfl⟩ := hissued
      refine Or.inr ((provided_redeploy hk hid (htells p hp)).mono rfl ?_ rfl fun _ hc _ => hc)
      exact configurationOf_load rfl rfl rfl rfl
    | @created draft h =>
      subst h
      obtain rfl : c = .createProject (.commit draft) := hissued
      have hd := hx.drafts _ hmem draft rfl
      obtain ⟨job, hjob, hdescribes⟩ := hd.pushed rfl
      refine Or.inr (Or.inl fun job' hjob' => ?_)
      cases hjob.symm.trans hjob'
      refine hdescribes.congr ?_
      have hrows : ((Command.commitDraft draft).change s.world.now
          s.world.db).environmentVariablesOf draft.project.id = draft.environmentVariables := by
        refine ProjectsService.environmentVariablesOf_insertDraft_new ⟨fun p hp hid => ?_,
          fun v hv hid => ?_⟩ hd.rows
        · exact (spent_of_row hx.listed hp).2 _ hmem draft rfl hid.symm
        · obtain ⟨p, hp, hrow⟩ := List.any_eq_true.mp (hx.environment v hv)
          exact (spent_of_row hx.listed hp).2 _ hmem draft rfl
            (hid.symm.trans (eq_of_beq hrow).symm)
      simp only [configurationOf, load, loadedOf, hrows]

end Calls

theorem Kept.told_step (hx : Kept cfg s last) (hok : Heeds cfg (s, last) e)
    (h : s.step cfg e = some s') {p' : Project} (hp' : p' ∈ s'.world.db.projects) :
    Told cfg s'.world.db (noteJob cfg s e s' last) s'.procs.calls p' := by
  by_cases he : ∃ i r, e = .call i r
  · obtain ⟨i, r, rfl⟩ := he
    obtain ⟨before, c, later, hcalls, rfl, _, rfl⟩ := State.step_call h
    have hothers : s.procs.calls.eraseIdx before.length = before ++ later := by
      rw [hcalls, List.eraseIdx_append_of_length_le (Nat.le_refl _), Nat.sub_self]
      rfl
    have htells := hok.2 c (by simp [hcalls])
    simp only [hothers] at htells
    rw [noteJob_eq (State.turn_call cfg hcalls r)]
    simp only [World.record_db, World.db_exec] at hp' ⊢
    exact hx.told_call hcalls htells hp'
  · exact hx.told_rest (fun i r hcall => he ⟨i, r, hcall⟩) h hp'

theorem Kept.step (hx : Kept cfg s last) (hok : Heeds cfg (s, last) e)
    (h : s.step cfg e = some s') : Kept cfg s' (noteJob cfg s e s' last) where
  listed := State.listed_step hx.listed h
  environment _ hv := hx.environment_step hok h hv
  held _ hc _ hjob hnone := hx.held_step h hc hjob hnone
  drafts _ hc _ hdraft := hx.drafts_step h hc hdraft
  told _ hp := hx.told_step hok h hp

/-! ## Runs -/

/-- A call that promises a job is at work on the project. -/
theorem Kept.flagged {x : State × LastJobs} (hx : Kept cfg x.1 x.2) : Flagged cfg x := by
  intro p hp hidle hflag
  rcases hx.told p hp with hset | hcarries | ⟨c, hc, hpromises⟩
  · rw [hflag] at hset
    cases hset
  · exact hcarries
  · have hnot := hidle c hc
    unfold Promises at hpromises
    split at hpromises
    · rw [configures, beq_eq_false_iff_ne] at hnot
      exact absurd hpromises.1 hnot
    · cases hpromises

/-- Over a run whose steps meet the condition, a project whose flag is not set and on which no
request is at work has as its last job one that carries what is stored. -/
theorem config_changed_sound {x : State × LastJobs}
    (h : Reaches (stepNoting (State.step cfg) (noteJob cfg)) (Heeds cfg)
      (State.initial, fun _ => none) x) : Flagged cfg x := by
  refine Kept.flagged (h.invariant (fun x => Kept cfg x.1 x.2) kept_initial ?_)
  rintro x e y hx hok hstep
  obtain ⟨hs, hlast⟩ := stepNoting_eq_some_iff.mp hstep
  rw [hlast]
  exact hx.step hok hs

/-! ## A shop that is configured -/

def shopVariables (value : String) : List EnvironmentVariable :=
  [{ key := "MODE", value := EncryptionService.clear.encrypt zeroIv value
     targets := [.production], projectId := 1 }]

def shopSaved (value : String) : Event := .edit (.environmentVariables 1 (shopVariables value))

def shopCancelled : List Event := shopCreated ++ shopRequest (.cancel 1 2) 3

theorem config_changed_sound_shop : ∃ x : State × LastJobs,
    runEvents (stepNoting (State.step Config.clear) (noteJob Config.clear))
      (State.initial, fun _ => none)
      (shopCancelled ++ shopSaved "fast" :: shopRequest (.createDeployment 1 1) 6) = some x ∧
    ((x.2 1).map (·.envVars) = some [("MODE", "fast")]) ∧ Flagged Config.clear x := by
  have hrun : (runEvents (stepNoting (State.step Config.clear) (noteJob Config.clear))
      (State.initial, fun _ => none)
      (shopCancelled ++ shopSaved "fast" :: shopRequest (.createDeployment 1 1) 6)).any
        (fun x => (x.2 1).map (·.envVars) == some [("MODE", "fast")]) = true := by decide
  obtain ⟨x, hx, hjob⟩ := (Option.any_eq_true _ _).mp hrun
  exact ⟨x, hx, eq_of_beq hjob, config_changed_sound (.of_runEvents hx (by decide))⟩

/-- The variables are saved after a redeploy has read the project and before it clears the flag. -/
theorem not_config_changed_sound : ¬∀ (cfg : Config) (es : List Event) (x : State × LastJobs),
    runEvents (stepNoting (State.step cfg) (noteJob cfg)) (State.initial, fun _ => none) es =
      some x → Flagged cfg x := by
  intro h
  have hrun : (runEvents (stepNoting (State.step Config.clear) (noteJob Config.clear))
      (State.initial, fun _ => none) (shopCancelled ++ shopRequest (.createDeployment 1 1) 4 ++
        shopSaved "fast" :: List.replicate 2 (.call 0 shopReply))).any
          (fun x => !decide (Flagged Config.clear x)) = true := by decide
  obtain ⟨x, hx, hstale⟩ := (Option.any_eq_true _ _).mp hrun
  rw [Bool.not_eq_true', decide_eq_false_iff_not] at hstale
  exact hstale (h Config.clear _ x hx)

end ConfigChanged
end System
end Code2Cloud
