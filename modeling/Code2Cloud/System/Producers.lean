import Code2Cloud.System.Entitlement

/-!
# Two producers of build jobs

A redeploy and a push each assemble a job from a stored project.  The jobs describe the
project alike exactly when the project's clone URL is the one of its repository and no
variable that misses the production target comes through.
-/

namespace Code2Cloud
namespace System

open Api Worker

/-! ## Redeploys -/

namespace DeploymentsService

/-- The states of a call of `create` that found `db` when it read the project. -/
inductive Handling (cfg : Config) (db : Database) (userId : UserId) (projectId : ProjectId) :
    Create → Prop
  | found {w : World} {r : Reply} {s : Create} (hdb : w.db = db)
      (h : ((Create.findProject userId projectId).step cfg w r).next = .next s) :
      Handling cfg db userId projectId s
  | step {s s' : Create} {w : World} {r : Reply} (hs : Handling cfg db userId projectId s)
      (h : (s.step cfg w r).next = .next s') : Handling cfg db userId projectId s'

def Enqueues (cfg : Config) (db : Database) (userId : UserId) (projectId : ProjectId)
    (job : BuildJob) : Prop :=
  ∃ s w r, Handling cfg db userId projectId s ∧ (s.step cfg w r).command = .addBuildJob job

def Carries (e : EncryptionService) (l : Loaded) : Create → Prop
  | .findProject _ _ => False
  | .findGitAccounts _ l' | .findLatest _ l' _ | .getLatestCommit _ l' _ | .insert _ l' _ _ =>
    l' = l
  | .enqueue job' => ∃ installationId commit id, job' = job e l installationId commit id

variable {cfg : Config} {db : Database} {userId : UserId} {projectId : ProjectId}

theorem carries_found {w : World} {r : Reply} {s : Create}
    (h : ((Create.findProject userId projectId).step cfg w r).next = .next s) :
    ∃ p, w.db.findOwnedProject projectId userId = some p ∧
      Carries cfg.encryption (load w.db p) s := by
  rw [Create.step, query] at h
  split at h
  · cases hfind : w.db.findOwnedProject projectId userId with
    | none => simp [hfind, Turn.pure] at h
    | some p =>
      simp only [hfind, Turn.pure, Flow.next.injEq] at h
      subst h
      exact ⟨p, rfl, rfl⟩
  · simp [Turn.pure] at h

theorem carries_step {l : Loaded} {s s' : Create} {w : World} {r : Reply}
    (hs : Carries cfg.encryption l s) (h : (s.step cfg w r).next = .next s') :
    Carries cfg.encryption l s' := by
  cases s with
  | findProject userId projectId => exact hs.elim
  | findGitAccounts userId l' =>
    rw [Create.step, query] at h
    split at h
    · cases haccounts : w.db.gitAccountsOf userId with
      | nil => simp [haccounts, Turn.pure] at h
      | cons a as =>
        simp only [haccounts, Turn.pure, Flow.next.injEq] at h
        subst h
        exact hs
    · simp [Turn.pure] at h
  | findLatest userId l' accounts =>
    rw [Create.step, query] at h
    split at h
    · simp only [Turn.pure] at h
      split at h
      · cases h
      · split at h
        · cases h
        · cases h
          exact hs
    · simp [Turn.pure] at h
  | getLatestCommit userId l' installationId =>
    cases h
    exact hs
  | insert userId l' installationId commit =>
    rcases next_issue w r.outcome (.createRedeployment (row w userId l' commit))
      (Flow.next (Create.enqueue (job cfg.encryption l' installationId commit
        (row w userId l' commit).id))) (Flow.throw .internal) [] [] with hn | hn <;>
      rw [Create.step, hn] at h
    · cases h
      exact ⟨installationId, commit, _, by rw [show l' = l from hs]⟩
    · cases h
  | enqueue job' =>
    rcases next_issue w r.outcome (.addBuildJob job') Flow.done (.throw .internal) [] []
      with hn | hn <;> rw [Create.step, hn] at h <;> cases h

theorem Handling.carries {s : Create} (h : Handling cfg db userId projectId s) :
    ∃ p, db.findOwnedProject projectId userId = some p ∧ Carries cfg.encryption (load db p) s := by
  induction h with
  | found hdb h =>
    rw [← hdb]
    exact carries_found h
  | step _ h ih =>
    obtain ⟨p, hp, hs⟩ := ih
    exact ⟨p, hp, carries_step hs h⟩

theorem Create.eq_enqueue {s : Create} {w : World} {r : Reply} {job : BuildJob}
    (h : (s.step cfg w r).command = .addBuildJob job) : s = .enqueue job := by
  cases s with
  | findProject | findGitAccounts | findLatest =>
    rw [Create.step, query] at h
    split at h <;> cases h
  | getLatestCommit userId l installationId => cases h
  | insert userId l installationId commit =>
    rcases command_issue w r.outcome (.createRedeployment (row w userId l commit))
      (Flow.next (Create.enqueue (DeploymentsService.job cfg.encryption l installationId commit
        (row w userId l commit).id))) (Flow.throw .internal) [] [] with hc | hc <;>
      rw [Create.step, hc] at h <;> cases h
  | enqueue job' =>
    rcases command_issue w r.outcome (.addBuildJob job') Flow.done (.throw .internal) [] []
      with hc | hc <;> rw [Create.step, hc] at h <;> cases h
    rfl

/-- The job describes the user's project as it was read. -/
theorem Enqueues.describes {job : BuildJob} (h : Enqueues cfg db userId projectId job) :
    ∃ p installationId commit id, db.findOwnedProject projectId userId = some p ∧
      job = DeploymentsService.job cfg.encryption (load db p) installationId commit id := by
  obtain ⟨s, w, r, hs, hcommand⟩ := h
  obtain ⟨p, hp, hcarries⟩ := hs.carries
  cases Create.eq_enqueue hcommand
  obtain ⟨installationId, commit, id, hjob⟩ := hcarries
  exact ⟨p, installationId, commit, id, hp, hjob⟩

/-- A redeploy of a project that has an installation and nothing in progress enqueues a
job, whatever commit GitHub answers. -/
theorem exists_enqueues {p : Project} {installationId : String}
    (hp : db.findOwnedProject projectId userId = some p)
    (haccount : (matchingAccount (db.gitAccountsOf userId) p.gitRepoOwner).bind installed =
      some installationId)
    (hidle : (Database.latest (db.deploymentsOf p.id)).any (fun d => d.status.inProgress) = false)
    (commit : CommitData) :
    ∃ id, Enqueues cfg db userId projectId
      (job cfg.encryption (load db p) installationId commit id) := by
  let w := WebhooksService.worldOf db
  have hdb : w.db = db := rfl
  have hfound : Handling cfg db userId projectId (.findGitAccounts userId (load db p)) := by
    refine Handling.found (w := w) (r := {}) hdb ?_
    simp [Create.step, query, hdb, hp, Turn.pure]
  obtain ⟨a, as, has⟩ : ∃ a as, db.gitAccountsOf userId = a :: as := by
    cases h : db.gitAccountsOf userId with
    | nil => simp [h, matchingAccount] at haccount
    | cons a as => exact ⟨a, as, rfl⟩
  have hlatest : Handling cfg db userId projectId (.findLatest userId (load db p) (a :: as)) := by
    refine hfound.step (w := w) (r := {}) ?_
    simp [Create.step, query, hdb, has, Turn.pure]
  have hcommit : Handling cfg db userId projectId
      (.getLatestCommit userId (load db p) installationId) := by
    refine hlatest.step (w := w) (r := {}) ?_
    rw [has] at haccount
    simp only [Create.step, query, hdb, Turn.pure, if_true]
    rw [if_neg (by simpa [load] using hidle)]
    simp only [load, haccount]
  have hinsert : Handling cfg db userId projectId
      (.insert userId (load db p) installationId commit) :=
    hcommit.step (w := w) (r := { commitData := commit }) rfl
  have hadmits (d : Deployment) (hd : d.projectId = p.id) :
      w.admits (.createRedeployment d) = true := by
    simp only [World.admits, hdb, Database.findProject, List.find?_isSome, beq_iff_eq, hd]
    exact ⟨p, List.mem_of_find?_eq_some hp, rfl⟩
  have henqueue : Handling cfg db userId projectId
      (.enqueue (job cfg.encryption (load db p) installationId commit w.db.nextId)) := by
    refine hinsert.step (w := w) (r := {}) ?_
    simp only [Create.step, issue]
    rw [if_pos (hadmits _ rfl)]
    rfl
  exact ⟨w.db.nextId, _, w, {}, henqueue, rfl⟩

end DeploymentsService

/-! ## What a job tells of its project -/

/-- The jobs describe the project alike. -/
structure Agree (job job' : BuildJob) : Prop where
  gitUrl : job.gitUrl = job'.gitUrl
  branch : job.branch = job'.branch
  rootDirectory : job.rootDirectory = job'.rootDirectory
  buildConfig : job.buildConfig = job'.buildConfig
  domains : job.domains = job'.domains
  envVars : ∀ key, EnvMap.get job.envVars key = EnvMap.get job'.envVars key

/-- What reaches the job is the Python version, or a variable with the production target. -/
def OnlyProduction (e : EncryptionService) (l : Loaded) (job : BuildJob) : Prop :=
  ∀ key value, EnvMap.get job.envVars key = some value →
    (key, value) ∈ pythonVersionEnv l.project ∨
      ∃ v ∈ l.envVars, v.key = key ∧ .production ∈ v.targets ∧ e.decrypt v.value = .ok value

/-- The project is cloned from its repository at GitHub, and each variable has the
production target, is overridden by the Python version or has the name that no assignment
creates. -/
structure Uniform (l : Loaded) : Prop where
  gitCloneUrl : l.project.gitCloneUrl =
    "https://github.com/" ++ l.project.gitRepoOwner ++ "/" ++ l.project.gitRepoName ++ ".git"
  envVars : ∀ v ∈ l.envVars, .production ∈ v.targets ∨
    v.key ∈ (pythonVersionEnv l.project).map (·.1) ∨ v.key = "__proto__"

/-! ## The variables of the two jobs -/

theorem nodup_pythonVersionEnv (p : Project) : ((pythonVersionEnv p).map (·.1)).Nodup := by
  rw [pythonVersionEnv]
  split
  · split <;> simp
  · simp

section EnvVars

variable {e : EncryptionService} {l : Loaded}

/-- Under a key the job has the Python version, or else what is stored under it. -/
theorem get_merge_pythonVersionEnv {m : EnvMap} (hm : (m.map (·.1)).Nodup) {key value : String} :
    EnvMap.get (EnvMap.merge [m, pythonVersionEnv l.project]) key = some value ↔
      (key, value) ∈ pythonVersionEnv l.project ∨
        key ∉ (pythonVersionEnv l.project).map (·.1) ∧ (key, value) ∈ m := by
  have hpython := nodup_pythonVersionEnv l.project
  rw [EnvMap.get_merge hm hpython, Option.or_eq_some_iff, EnvMap.get_eq_some_iff hpython,
    EnvMap.get_eq_some_iff hm]
  have hnone : EnvMap.get (pythonVersionEnv l.project) key = none ↔
      key ∉ (pythonVersionEnv l.project).map (·.1) := by
    constructor
    · intro h hmem
      obtain ⟨⟨key', value'⟩, hkv, rfl⟩ := List.mem_map.mp hmem
      rw [(EnvMap.get_eq_some_iff hpython).mpr hkv] at h
      cases h
    · intro h
      rw [Option.eq_none_iff_forall_ne_some]
      intro value' hvalue
      exact h (List.mem_map_of_mem ((EnvMap.get_eq_some_iff hpython).mp hvalue))
  rw [hnone]

/-- Rows that are passed over take their keys with them. -/
theorem sublist_key_filterMap {f : EnvironmentVariable → Option (String × String)}
    (hf : ∀ v kv, f v = some kv → kv.1 = v.key) (vs : List EnvironmentVariable) :
    ((vs.filterMap f).map (·.1)).Sublist (vs.map (·.key)) := by
  induction vs with
  | nil => exact List.Sublist.refl _
  | cons v vs ih =>
    rw [List.filterMap_cons, List.map_cons]
    cases hv : f v with
    | none => exact ih.cons _
    | some kv =>
      rw [List.map_cons, hf v kv hv]
      exact ih.cons_cons _

/-- What a redeployment makes of a variable's row: it skips a row it cannot decrypt. -/
def decrypted (e : EncryptionService) (v : EnvironmentVariable) : Option (String × String) :=
  match e.decrypt v.value with
  | .ok value => some (v.key, value)
  | .error _ => none

theorem decrypted_eq_some_iff {v : EnvironmentVariable} {kv : String × String} :
    decrypted e v = some kv ↔ kv.1 = v.key ∧ e.decrypt v.value = .ok kv.2 := by
  obtain ⟨key, value⟩ := kv
  rw [decrypted]
  cases e.decrypt v.value with
  | error error => simp
  | ok plain => simp [eq_comm]

theorem get_jobEnvVars_redeploy (hkeys : (l.envVars.map (·.key)).Nodup) {key value : String} :
    EnvMap.get (DeploymentsService.jobEnvVars e l) key = some value ↔
      (key, value) ∈ pythonVersionEnv l.project ∨
        key ∉ (pythonVersionEnv l.project).map (·.1) ∧ key ≠ "__proto__" ∧
          ∃ v ∈ l.envVars, v.key = key ∧ .production ∈ v.targets ∧
            e.decrypt v.value = .ok value := by
  let production := l.envVars.filter fun v => v.targets.contains .production
  have hnodup : ((production.filterMap (decrypted e)).map (·.1)).Nodup :=
    hkeys.sublist
      ((sublist_key_filterMap (fun v kv h => (decrypted_eq_some_iff.mp h).1) production).trans
        (List.filter_sublist.map _))
  have hmem : (key, value) ∈ production.filterMap (decrypted e) ↔
      ∃ v ∈ l.envVars, v.key = key ∧ .production ∈ v.targets ∧ e.decrypt v.value = .ok value := by
    rw [List.mem_filterMap]
    constructor
    · rintro ⟨v, hv, hkv⟩
      obtain ⟨hkey, hvalue⟩ := (decrypted_eq_some_iff).mp hkv
      obtain ⟨hv, htarget⟩ := List.mem_filter.mp hv
      exact ⟨v, hv, hkey.symm, List.contains_iff_mem.mp htarget, hvalue⟩
    · rintro ⟨v, hv, rfl, htarget, hvalue⟩
      exact ⟨v, List.mem_filter.mpr ⟨hv, List.contains_iff_mem.mpr htarget⟩,
        (decrypted_eq_some_iff).mpr ⟨rfl, hvalue⟩⟩
  have hassigned : key ≠ "__proto__" ∧ (key, value) ∈ production.filterMap (decrypted e) ↔
      (key, value) ∈ assigned (production.filterMap (decrypted e)) := by
    rw [mem_assigned, and_comm]
  rw [← hmem, hassigned]
  exact get_merge_pythonVersionEnv (nodup_assigned hnodup)

theorem get_jobEnvVars_push {envVars : EnvMap} (hkeys : (l.envVars.map (·.key)).Nodup)
    (h : WebhooksService.jobEnvVars e l = some envVars) {key value : String} :
    EnvMap.get envVars key = some value ↔
      (key, value) ∈ pythonVersionEnv l.project ∨
        key ∉ (pythonVersionEnv l.project).map (·.1) ∧ key ≠ "__proto__" ∧
          ∃ v ∈ l.envVars, v.key = key ∧ e.decrypt v.value = .ok value := by
  rw [WebhooksService.jobEnvVars] at h
  cases hvs : EnvironmentVariables.decryptAll e l.envVars with
  | error error => simp [hvs] at h
  | ok vs =>
    simp only [hvs, Option.some.injEq] at h
    subst h
    have hnodup : ((vs.map fun v => (v.key, v.value)).map (·.1)).Nodup := by
      rw [List.map_map]
      exact (EnvironmentVariables.key_decryptAll hvs).symm ▸ hkeys
    rw [get_merge_pythonVersionEnv (nodup_assigned hnodup), mem_assigned,
      ← EnvironmentVariables.mem_decryptAll hvs, and_comm (a := _ ∈ _)]
    simp

end EnvVars

/-! ## The condition -/

section Jobs

variable {e : EncryptionService} {l : Loaded} {opts : WebhooksService.TriggerOptions}
  {envVars : EnvMap} {installationId : String} {commit : CommitData} {id id' : DeploymentId}
  {previous : Option DeploymentId}

/-- Jobs that agree, with nothing but production variables, come from a uniform project. -/
theorem uniform_of_agree (hkeys : (l.envVars.map (·.key)).Nodup)
    (henv : WebhooksService.jobEnvVars e l = some envVars)
    (hagree : Agree (DeploymentsService.job e l installationId commit id)
      (WebhooksService.job opts l envVars previous id'))
    (honly : OnlyProduction e l (WebhooksService.job opts l envVars previous id')) :
    Uniform l := by
  refine ⟨hagree.gitUrl.symm, fun v hv => ?_⟩
  by_cases hpython : v.key ∈ (pythonVersionEnv l.project).map (·.1)
  · exact Or.inr (Or.inl hpython)
  by_cases hproto : v.key = "__proto__"
  · exact Or.inr (Or.inr hproto)
  · left
    obtain ⟨value, hvalue⟩ : ∃ value, e.decrypt v.value = .ok value := by
      rw [WebhooksService.jobEnvVars] at henv
      cases hvs : EnvironmentVariables.decryptAll e l.envVars with
      | error error => simp [hvs] at henv
      | ok vs => exact EnvironmentVariables.exists_decrypt hvs hv
    have hget : EnvMap.get envVars v.key = some value :=
      (get_jobEnvVars_push hkeys henv).mpr (Or.inr ⟨hpython, hproto, v, hv, rfl, hvalue⟩)
    rcases honly v.key value hget with hmem | ⟨v', hv', hkey, htarget, -⟩
    · exact absurd (List.mem_map_of_mem hmem) hpython
    · exact List.inj_on_of_nodup_map hkeys hv' hv hkey ▸ htarget

theorem agree_of_uniform (hkeys : (l.envVars.map (·.key)).Nodup)
    (henv : WebhooksService.jobEnvVars e l = some envVars)
    (hbranch : opts.branch = l.project.gitBranch) (hl : Uniform l) :
    Agree (DeploymentsService.job e l installationId commit id)
      (WebhooksService.job opts l envVars previous id') where
  gitUrl := hl.gitCloneUrl.symm
  branch := hbranch.symm
  rootDirectory := rfl
  buildConfig := rfl
  domains := rfl
  envVars := by
    intro key
    apply Option.ext
    intro value
    change EnvMap.get (DeploymentsService.jobEnvVars e l) key = some value ↔
      EnvMap.get envVars key = some value
    rw [get_jobEnvVars_redeploy hkeys, get_jobEnvVars_push hkeys henv]
    refine or_congr_right (and_congr_right fun hpython => and_congr_right fun hproto => ?_)
    constructor
    · rintro ⟨v, hv, hkey, -, hvalue⟩
      exact ⟨v, hv, hkey, hvalue⟩
    · rintro ⟨v, hv, rfl, hvalue⟩
      exact ⟨v, hv, rfl, (hl.envVars v hv).resolve_right (not_or.mpr ⟨hpython, hproto⟩), hvalue⟩

theorem onlyProduction_redeploy (hkeys : (l.envVars.map (·.key)).Nodup) :
    OnlyProduction e l (DeploymentsService.job e l installationId commit id) := by
  intro key value hvalue
  rcases (get_jobEnvVars_redeploy hkeys).mp hvalue with h | ⟨-, -, h⟩
  · exact Or.inl h
  · exact Or.inr h

end Jobs

theorem OnlyProduction.congr {e : EncryptionService} {l : Loaded} {job job' : BuildJob}
    (h : OnlyProduction e l job) (hagree : Agree job job') : OnlyProduction e l job' := by
  intro key value hvalue
  exact h key value ((hagree.envVars key).trans hvalue)

/-- Two jobs for one project were both made from it as it was read. -/
theorem describe_same {cfg : Config} {db : Database} {userId : UserId} {payload : PushEventPayload}
    {p : Project} {created pushed : BuildJob} (hids : (db.projects.map (·.id)).Nodup)
    (hcreated : DeploymentsService.Enqueues cfg db userId p.id created)
    (hpushed : WebhooksService.Enqueues cfg db payload pushed)
    (hp : db.findProject pushed.projectId = some p) :
    (∃ installationId commit id,
      created = DeploymentsService.job cfg.encryption (load db p) installationId commit id) ∧
    ∃ opts envVars previous id, opts.branch = p.gitBranch ∧
      WebhooksService.jobEnvVars cfg.encryption (load db p) = some envVars ∧
      pushed = WebhooksService.job opts (load db p) envVars previous id := by
  obtain ⟨q, installationId, commit, id, hq, rfl⟩ := hcreated.describes
  obtain ⟨number, q', envVars, previous, id', -, htriggers, henv, rfl⟩ := hpushed.describes
  have hpushedId : db.findProject q'.id = some q' := Table.find?_of_nodup hids htriggers.mem
  obtain rfl : q' = p := by
    rw [show (WebhooksService.job _ (load db q') envVars previous id').projectId = q'.id from rfl,
      hpushedId] at hp
    exact Option.some.inj hp
  obtain rfl : q = q' := by
    have hmem : q ∈ db.projects := List.mem_of_find?_eq_some hq
    have howned := List.find?_some hq
    simp only [Bool.and_eq_true, beq_iff_eq] at howned
    exact List.inj_on_of_nodup_map hids hmem htriggers.mem howned.1
  exact ⟨⟨installationId, commit, id, rfl⟩, _, envVars, previous, id', htriggers.branch.symm, henv,
    rfl⟩

/-- A redeploy and a push that read the same project describe it alike, with nothing but
its production variables, exactly when the project is uniform. -/
theorem producers_agree_iff (cfg : Config) (db : Database) (userId : UserId)
    (payload : PushEventPayload) (p : Project) (created pushed : BuildJob)
    (hids : (db.projects.map (·.id)).Nodup)
    (hkeys : ((db.environmentVariablesOf p.id).map (·.key)).Nodup)
    (hcreated : DeploymentsService.Enqueues cfg db userId p.id created)
    (hpushed : WebhooksService.Enqueues cfg db payload pushed)
    (hp : db.findProject pushed.projectId = some p) :
    Agree created pushed ∧ OnlyProduction cfg.encryption (load db p) created ∧
        OnlyProduction cfg.encryption (load db p) pushed ↔
      Uniform (load db p) := by
  obtain ⟨⟨installationId, commit, id, rfl⟩, opts, envVars, previous, id', hbranch, henv, rfl⟩ :=
    describe_same hids hcreated hpushed hp
  constructor
  · rintro ⟨hagree, -, honly⟩
    exact uniform_of_agree hkeys henv hagree honly
  · intro hl
    have hagree : Agree (DeploymentsService.job cfg.encryption (load db p) installationId commit id)
        (WebhooksService.job opts (load db p) envVars previous id') :=
      agree_of_uniform hkeys henv hbranch hl
    exact ⟨hagree, onlyProduction_redeploy hkeys, (onlyProduction_redeploy hkeys).congr hagree⟩

/-! ## The shop -/

def shopWith (targets : List EnvironmentType) : Database :=
  { WebhooksService.shopDatabase
      [WebhooksService.shopProject 1 shopName 1 "https://github.com/ada/shop.git"] with
    environmentVariables :=
      [{ key := "DEBUG"
         value := EncryptionService.clear.encrypt zeroIv "1"
         targets
         projectId := 1 }] }

def shop : Project :=
  WebhooksService.shopProject 1 shopName 1 "https://github.com/ada/shop.git"

theorem shop_triggers (targets : List EnvironmentType) :
    WebhooksService.Triggers Config.clear (shopWith targets) WebhooksService.shopPush shop where
  mem := List.mem_singleton_self _
  owner := rfl
  repository := rfl
  branch := by decide
  autoDeploy := rfl
  decrypts := by
    simp [WebhooksService.jobEnvVars, EnvironmentVariables.decryptAll, load, shopWith,
      Database.environmentVariablesOf, shop, WebhooksService.shopProject, Config.clear,
      EncryptionService.decrypt_encrypt, Except.map]

/-- A redeploy and a push of the shop, for the same commit and installation. -/
theorem exists_shop_jobs (targets : List EnvironmentType) :
    ∃ created pushed, DeploymentsService.Enqueues Config.clear (shopWith targets) 1 1 created ∧
      WebhooksService.Enqueues Config.clear (shopWith targets) WebhooksService.shopPush pushed ∧
      (shopWith targets).findProject pushed.projectId = some shop ∧
      created.commitHash = pushed.commitHash ∧ created.installationId = pushed.installationId := by
  have hshop : (shopWith targets).findOwnedProject 1 1 = some shop := rfl
  obtain ⟨id, hcreated⟩ : ∃ id, DeploymentsService.Enqueues Config.clear (shopWith targets) 1 1 _ :=
    DeploymentsService.exists_enqueues hshop (show _ = some "7" from rfl) rfl
      { sha := WebhooksService.shopPush.after, message := "", author := "ada" }
  obtain ⟨pushed, hpushed, hproject, hinstallation⟩ :=
    WebhooksService.exists_enqueues (shop_triggers targets) rfl
      (show WebhooksService.installationOf _ = some 7 from rfl)
  obtain ⟨_, _, _, _, _, _, _, _, hjob⟩ := hpushed.describes
  refine ⟨_, pushed, hcreated, hpushed, ?_, ?_, ?_⟩
  · rw [hproject]
    rfl
  · rw [hjob]
    rfl
  · rw [hinstallation]
    rfl

theorem shop_keys (targets : List EnvironmentType) :
    (((shopWith targets).environmentVariablesOf shop.id).map (·.key)).Nodup := by
  simp [shopWith, Database.environmentVariablesOf, shop, WebhooksService.shopProject]

/-- With a production variable, the two jobs of the shop agree. -/
theorem producers_agree_shop :
    ∃ created pushed,
      DeploymentsService.Enqueues Config.clear (shopWith [.production]) 1 1 created ∧
      WebhooksService.Enqueues Config.clear (shopWith [.production]) WebhooksService.shopPush
        pushed ∧
      Agree created pushed := by
  obtain ⟨created, pushed, hcreated, hpushed, hproject, -⟩ := exists_shop_jobs [.production]
  have hiff := producers_agree_iff Config.clear (shopWith [.production]) 1 WebhooksService.shopPush
    shop created pushed (List.nodup_singleton _) (shop_keys _) hcreated hpushed hproject
  refine ⟨created, pushed, hcreated, hpushed, (hiff.mpr ⟨by decide, ?_⟩).1⟩
  intro v hv
  rw [List.mem_singleton.mp hv]
  exact Or.inl List.mem_cons_self

/-- The push hands a variable that is meant for previews to the production build. -/
theorem not_producers_agree :
    ¬∀ (cfg : Config) (db : Database) (userId : UserId) (payload : PushEventPayload) (p : Project)
      (created pushed : BuildJob), (db.projects.map (·.id)).Nodup →
        ((db.environmentVariablesOf p.id).map (·.key)).Nodup →
        DeploymentsService.Enqueues cfg db userId p.id created →
        WebhooksService.Enqueues cfg db payload pushed →
        db.findProject pushed.projectId = some p → created.commitHash = pushed.commitHash →
        created.installationId = pushed.installationId →
        Agree created pushed ∧ OnlyProduction cfg.encryption (load db p) created ∧
          OnlyProduction cfg.encryption (load db p) pushed := by
  intro h
  obtain ⟨created, pushed, hcreated, hpushed, hproject, hcommit, hinstallation⟩ :=
    exists_shop_jobs [.preview]
  have hids : ((shopWith [.preview]).projects.map (·.id)).Nodup := List.nodup_singleton _
  have hagree := h Config.clear (shopWith [.preview]) 1 WebhooksService.shopPush shop created pushed
    hids (shop_keys _) hcreated hpushed hproject hcommit hinstallation
  obtain ⟨⟨_, _, _, rfl⟩, _, _, _, _, _, henv, rfl⟩ :=
    describe_same hids hcreated hpushed hproject
  have huniform := uniform_of_agree (shop_keys _) henv hagree.1 hagree.2.2
  rcases huniform.envVars _ List.mem_cons_self with htarget | hpython | hproto
  · exact absurd htarget (by decide)
  · exact absurd hpython (by decide)
  · exact absurd hproto (by decide)

end System
end Code2Cloud
