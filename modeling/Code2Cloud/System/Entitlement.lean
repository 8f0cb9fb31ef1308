import Code2Cloud.System.Services

/-!
# Entitlement to an installation

A push spends the authority of a GitHub installation on the projects it builds.  The
interactive git endpoints check that the user owns the installation; the webhook takes
the installation from the payload and the projects from the database.
-/

namespace Code2Cloud
namespace System

open Api Worker

def GitController.verifyInstallation (db : Database) (userId : UserId)
    (installationId : String) : Except HttpException Unit :=
  if installationId.isEmpty then .error (.badRequest "installationId is required")
  else if db.gitAccounts.any fun a =>
      a.userId == userId && a.provider == "github" && a.installationId == some installationId then
    .ok ()
  else .error (.badRequest "GitHub account not found or access denied")

namespace WebhooksService

/-- The owner of the job's project passes the check of the git endpoints for the
installation the job carries. -/
def Entitled (db : Database) (job : BuildJob) : Prop :=
  ∃ p, db.findProject job.projectId = some p ∧
    GitController.verifyInstallation db p.userId job.installationId.text = .ok ()

/-- The states of a call of `handlePushEvent` that found `db` when it read the projects.
Whatever the other processes do between its steps, each step may meet any world. -/
inductive Handling (cfg : Config) (db : Database) (payload : PushEventPayload) : Push → Prop
  | found {w : World} {r : Reply} {s : Push} (hdb : w.db = db)
      (h : ((Push.findProjects payload).step cfg w r).next = .next s) : Handling cfg db payload s
  | step {s s' : Push} {w : World} {r : Reply} (hs : Handling cfg db payload s)
      (h : (s.step cfg w r).next = .next s') : Handling cfg db payload s'

def Enqueues (cfg : Config) (db : Database) (payload : PushEventPayload) (job : BuildJob) :
    Prop :=
  ∃ s w r, Handling cfg db payload s ∧ (s.step cfg w r).command = .addBuildJob job

/-- The push triggers a deployment of the project: it has the pushed repository and
branch and deploys automatically, and its variables decrypt. -/
structure Triggers (cfg : Config) (db : Database) (payload : PushEventPayload) (p : Project) :
    Prop where
  mem : p ∈ db.projects
  owner : p.gitRepoOwner = payload.repositoryOwner
  repository : p.gitRepoName = payload.repositoryName
  branch : p.gitBranch = branchOf payload.ref
  autoDeploy : p.autoDeploy = true
  decrypts : (jobEnvVars cfg.encryption (load db p)).isSome = true

/-! ## What a call holds -/

variable {cfg : Config} {db : Database} {payload : PushEventPayload}

/-- A call in this state works for a project the push triggers, under the payload's
installation, and its remaining projects were all selected. -/
def Serves (cfg : Config) (db : Database) (payload : PushEventPayload)
    (installationId : Nat) : Push → Prop
  | .findProjects _ => False
  | .publish opts l _ rest | .markCanceled opts l _ rest =>
    opts.installationId = installationId ∧ rest ⊆ candidates db payload ∧
      ∃ c ∈ candidates db payload, c.loaded = l ∧ l.project.autoDeploy = true
  | .findSystemConfig opts l _ _ rest | .insert opts l _ _ _ rest =>
    opts.installationId = installationId ∧ rest ⊆ candidates db payload ∧
      ∃ p, l = load db p ∧ Triggers cfg db payload p
  | .enqueue opts job rest =>
    opts.installationId = installationId ∧ rest ⊆ candidates db payload ∧
      job.installationId = .ofNat installationId ∧
      ∃ p, job.projectId = p.id ∧ Triggers cfg db payload p

theorem mem_candidates {c : Candidate} :
    c ∈ candidates db payload ↔
      ∃ p ∈ db.projects, p.gitRepoOwner = payload.repositoryOwner ∧
        p.gitRepoName = payload.repositoryName ∧ p.gitBranch = branchOf payload.ref ∧
        candidate db p = c := by
  simp only [candidates, List.mem_map, List.mem_filter, Bool.and_eq_true, beq_iff_eq]
  constructor
  · rintro ⟨p, ⟨hp, ⟨ho, hn⟩, hb⟩, hc⟩
    exact ⟨p, hp, ho, hn, hb, hc⟩
  · rintro ⟨p, hp, ho, hn, hb, hc⟩
    exact ⟨p, ⟨hp, ⟨ho, hn⟩, hb⟩, hc⟩

/-- A selected project whose variables decrypt is one the push triggers. -/
theorem exists_triggers {c : Candidate} {envVars : EnvMap} (hc : c ∈ candidates db payload)
    (hauto : c.loaded.project.autoDeploy = true)
    (henv : jobEnvVars cfg.encryption c.loaded = some envVars) :
    ∃ p, c.loaded = load db p ∧ Triggers cfg db payload p := by
  obtain ⟨p, hp, ho, hn, hb, rfl⟩ := mem_candidates.mp hc
  exact ⟨p, rfl, hp, ho, hn, hb, hauto, by rw [Option.isSome_iff_exists]; exact ⟨envVars, henv⟩⟩

/-- The project is loaded with one of the candidates, and deploys automatically. -/
def Loads (cs : List Candidate) (l : Loaded) : Prop :=
  ∃ c ∈ cs, c.loaded = l ∧ l.project.autoDeploy = true

/-- A call in this state works through candidates under the options, and its job describes one of
them. -/
def Carries (e : EncryptionService) (opts : TriggerOptions) (cs : List Candidate) : Push → Prop
  | .findProjects _ => False
  | .publish opts' l _ rest | .markCanceled opts' l _ rest =>
    opts' = opts ∧ rest ⊆ cs ∧ Loads cs l
  | .findSystemConfig opts' l envVars _ rest | .insert opts' l envVars _ _ rest =>
    opts' = opts ∧ rest ⊆ cs ∧ Loads cs l ∧ jobEnvVars e l = some envVars
  | .enqueue opts' job' rest =>
    opts' = opts ∧ rest ⊆ cs ∧ ∃ l envVars previous id, Loads cs l ∧
      jobEnvVars e l = some envVars ∧ job' = job opts l envVars previous id

section Carries

variable {e : EncryptionService} {opts : TriggerOptions} {cs : List Candidate}

theorem carries_loop {rest : List Candidate} (hrest : rest ⊆ cs) {s : Push}
    (h : Push.loop e opts rest = .next s) : Carries e opts cs s := by
  induction rest with
  | nil => simp [Push.loop] at h
  | cons c rest ih =>
    obtain ⟨hc, hrest⟩ := List.cons_subset.mp hrest
    rw [Push.loop] at h
    by_cases hauto : c.loaded.project.autoDeploy = true
    · rw [if_pos hauto] at h
      have hservice : ∀ previous,
          ((jobEnvVars e c.loaded).elim (Push.loop e opts rest) fun envVars =>
            .next (.findSystemConfig opts c.loaded envVars previous rest)) = .next s →
              Carries e opts cs s := by
        intro previous h
        cases henv : jobEnvVars e c.loaded with
        | none =>
          rw [henv] at h
          exact ih hrest h
        | some envVars =>
          rw [henv] at h
          cases h
          exact ⟨rfl, hrest, ⟨c, hc, rfl, hauto⟩, henv⟩
      cases hcur : c.current with
      | none =>
        rw [hcur] at h
        exact hservice none (Eq.trans (by cases jobEnvVars e c.loaded <;> rfl) h)
      | some current =>
        rw [hcur] at h
        by_cases hprogress : current.2.inProgress = true
        · simp only [hprogress, if_true] at h
          cases h
          exact ⟨rfl, hrest, c, hc, rfl, hauto⟩
        · simp only [hprogress, Bool.false_eq_true, if_false] at h
          exact hservice _ (Eq.trans (by cases jobEnvVars e c.loaded <;> rfl) h)
    · rw [if_neg hauto] at h
      exact ih hrest h

theorem carries_afterCancel {rest : List Candidate} (hrest : rest ⊆ cs) {l : Loaded}
    (hl : Loads cs l) {s : Push} (h : Push.afterCancel e opts l rest = .next s) :
    Carries e opts cs s := by
  rw [Push.afterCancel] at h
  cases henv : jobEnvVars e l with
  | none =>
    rw [henv] at h
    exact carries_loop hrest h
  | some envVars =>
    rw [henv] at h
    cases h
    exact ⟨rfl, hrest, hl, henv⟩

end Carries

theorem carries_step {opts : TriggerOptions} {cs : List Candidate} {s s' : Push} {w : World}
    {r : Reply} (hs : Carries cfg.encryption opts cs s) (h : (s.step cfg w r).next = .next s') :
    Carries cfg.encryption opts cs s' := by
  cases s with
  | findProjects payload' => exact hs.elim
  | publish opts l id rest =>
    obtain ⟨rfl, hrest, hl⟩ := hs
    rcases next_issue w r.outcome (.publishCancelSignal id)
      (.next (Push.markCanceled opts l id rest)) (Push.loop cfg.encryption opts rest) [] [] with
      hn | hn <;> rw [Push.step, hn] at h
    · cases h
      exact ⟨rfl, hrest, hl⟩
    · exact carries_loop hrest h
  | markCanceled opts l id rest =>
    obtain ⟨rfl, hrest, hl⟩ := hs
    rcases next_issue w r.outcome (.writeStatus id .webhookCancel)
      (Push.afterCancel cfg.encryption opts l rest) (Push.loop cfg.encryption opts rest)
      [.acknowledged id] [] with hn | hn <;> rw [Push.step, hn] at h
    · exact carries_afterCancel hrest hl h
    · exact carries_loop hrest h
  | findSystemConfig opts l envVars previous rest =>
    obtain ⟨rfl, hrest, hl, henv⟩ := hs
    rw [Push.step, query] at h
    split at h
    · cases h
      exact ⟨rfl, hrest, hl, henv⟩
    · exact carries_loop hrest h
  | insert opts l envVars previous region rest =>
    obtain ⟨rfl, hrest, hl, henv⟩ := hs
    rcases next_issue w r.outcome (.createDeployment (row w opts l region))
      (.next (Push.enqueue opts (job opts l envVars previous (row w opts l region).id) rest))
      (Push.loop cfg.encryption opts rest) [] [] with hn | hn <;> rw [Push.step, hn] at h
    · cases h
      exact ⟨rfl, hrest, l, envVars, previous, _, hl, henv, rfl⟩
    · exact carries_loop hrest h
  | enqueue opts job rest =>
    obtain ⟨rfl, hrest, _⟩ := hs
    rcases next_issue w r.outcome (.addBuildJob job) (Push.loop cfg.encryption opts rest)
      (Push.loop cfg.encryption opts rest) [] [] with hn | hn <;> rw [Push.step, hn] at h
    · exact carries_loop hrest h
    · exact carries_loop hrest h

theorem carries_found {w : World} {r : Reply} {s : Push}
    (h : ((Push.findProjects payload).step cfg w r).next = .next s) :
    ∃ installationId, payload.deleted = false ∧
      installationOf payload = some installationId ∧
      Carries cfg.encryption (optionsOf payload installationId) (candidates w.db payload) s := by
  rw [Push.step] at h
  by_cases hdel : payload.deleted = true
  · simp [hdel, Turn.pure] at h
  · rw [if_neg hdel] at h
    cases hinst : installationOf payload with
    | none => simp [hinst, Turn.pure] at h
    | some installationId =>
      simp only [hinst, query] at h
      split at h
      · exact ⟨installationId, by simpa using hdel, rfl, carries_loop (List.Subset.refl _) h⟩
      · simp [Turn.pure] at h

theorem Handling.carries {s : Push} (h : Handling cfg db payload s) :
    ∃ installationId, payload.deleted = false ∧
      installationOf payload = some installationId ∧
      Carries cfg.encryption (optionsOf payload installationId) (candidates db payload) s := by
  induction h with
  | found hdb h =>
    rw [← hdb]
    exact carries_found h
  | step _ h ih =>
    obtain ⟨installationId, hdel, hinst, hs⟩ := ih
    exact ⟨installationId, hdel, hinst, carries_step hs h⟩

variable {installationId : Nat} {opts : TriggerOptions}

theorem Carries.serves {s : Push} (h : Carries cfg.encryption (optionsOf payload installationId)
    (candidates db payload) s) : Serves cfg db payload installationId s := by
  cases s with
  | findProjects payload' => exact h.elim
  | publish | markCanceled =>
    obtain ⟨rfl, hrest, hl⟩ := h
    exact ⟨rfl, hrest, hl⟩
  | findSystemConfig | insert =>
    obtain ⟨rfl, hrest, ⟨c, hc, rfl, hauto⟩, henv⟩ := h
    exact ⟨rfl, hrest, exists_triggers hc hauto henv⟩
  | enqueue =>
    obtain ⟨rfl, hrest, _, envVars, previous, id, ⟨c, hc, rfl, hauto⟩, henv, rfl⟩ := h
    obtain ⟨p, hload, hp⟩ := exists_triggers hc hauto henv
    exact ⟨rfl, hrest, rfl, p, congrArg (·.project.id) hload, hp⟩

theorem Handling.serves {s : Push} (h : Handling cfg db payload s) :
    ∃ installationId, payload.deleted = false ∧
      installationOf payload = some installationId ∧ Serves cfg db payload installationId s := by
  obtain ⟨installationId, hdel, hinst, hs⟩ := h.carries
  exact ⟨installationId, hdel, hinst, hs.serves⟩

/-! ## What a call can reach -/

/-- If the loop goes on, its next state is one of the call's. -/
def Handled (cfg : Config) (db : Database) (payload : PushEventPayload) (f : Flow Push) : Prop :=
  ∀ s, f = .next s → Handling cfg db payload s

def worldOf (db : Database) : World := { World.empty with db }

theorem handled_step {s : Push} (hs : Handling cfg db payload s) (w : World) (r : Reply) :
    Handled cfg db payload (s.step cfg w r).next :=
  fun _ h => hs.step h

theorem admits_current {p : Project} {id : DeploymentId} {status : DeploymentStatus}
    (h : (candidate db p).current = some (id, status)) (write : StatusWrite) :
    (worldOf db).admits (.writeStatus id write) = true := by
  simp only [candidate, Option.map_eq_some_iff, Prod.mk.injEq] at h
  obtain ⟨d, hd, rfl, rfl⟩ := h
  have hmem : d ∈ db.deployments :=
    (List.mem_filter.mp (List.mem_filter.mp (Database.mem_of_latest hd)).1).1
  simp only [World.admits, worldOf, Database.findDeployment, List.find?_isSome, beq_iff_eq]
  exact ⟨d, hmem, rfl⟩

/-- The loop passes over a project, or stops at a request that may fail. -/
theorem loop_cons (cfg : Config) (opts : TriggerOptions) (c : Candidate) (rest : List Candidate) :
    Push.loop cfg.encryption opts (c :: rest) = Push.loop cfg.encryption opts rest ∨
      ∃ s, Push.loop cfg.encryption opts (c :: rest) = .next s ∧
        (s.step cfg World.empty { outcome := .fail }).next =
          Push.loop cfg.encryption opts rest := by
  rw [Push.loop]
  by_cases hauto : c.loaded.project.autoDeploy = true
  · rw [if_pos hauto]
    cases c.current with
    | none =>
      cases jobEnvVars cfg.encryption c.loaded with
      | none => exact Or.inl rfl
      | some envVars => exact Or.inr ⟨_, rfl, rfl⟩
    | some current =>
      by_cases hprogress : current.2.inProgress = true
      · simp only [hprogress, if_true]
        exact Or.inr ⟨_, rfl, rfl⟩
      · simp only [hprogress, Bool.false_eq_true, if_false]
        cases jobEnvVars cfg.encryption c.loaded with
        | none => exact Or.inl rfl
        | some envVars => exact Or.inr ⟨_, rfl, rfl⟩
  · rw [if_neg hauto]
    exact Or.inl rfl

theorem handled_rest {c : Candidate} {rest : List Candidate}
    (h : Handled cfg db payload (Push.loop cfg.encryption opts (c :: rest))) :
    Handled cfg db payload (Push.loop cfg.encryption opts rest) := by
  rcases loop_cons cfg opts c rest with heq | ⟨s, hs, hfail⟩
  · rw [← heq]
    exact h
  · rw [← hfail]
    exact handled_step (h s hs) _ _

/-- At a project the push triggers the loop reaches the request for the owner's
configuration, first cancelling the deployment in progress if there is one. -/
theorem handling_findSystemConfig {p : Project} {rest : List Candidate} {envVars : EnvMap}
    (hauto : p.autoDeploy = true) (henv : jobEnvVars cfg.encryption (load db p) = some envVars)
    (h : Handled cfg db payload (Push.loop cfg.encryption opts (candidate db p :: rest))) :
    ∃ previous,
      Handling cfg db payload (.findSystemConfig opts (load db p) envVars previous rest) := by
  have hauto' : (candidate db p).loaded.project.autoDeploy = true := hauto
  have henv' : jobEnvVars cfg.encryption (candidate db p).loaded = some envVars := henv
  cases hcur : (candidate db p).current with
  | none =>
    refine ⟨none, h _ ?_⟩
    simp only [Push.loop, hauto', hcur, henv', if_true]
    rfl
  | some current =>
    obtain ⟨id, status⟩ := current
    by_cases hprogress : status.inProgress = true
    · have hpublish : Handling cfg db payload (.publish opts (load db p) id rest) := by
        refine h _ ?_
        simp only [Push.loop, hauto', hcur, hprogress, if_true]
        rfl
      have hmark : Handling cfg db payload (.markCanceled opts (load db p) id rest) :=
        handled_step hpublish (worldOf db) {} _ rfl
      refine ⟨none, handled_step hmark (worldOf db) {} _ ?_⟩
      simp [Push.step, issue, admits_current hcur, Push.afterCancel, henv]
    · refine ⟨if status = .ready then some id else none, h _ ?_⟩
      simp only [Push.loop, hauto', hcur, hprogress, henv', if_true, Bool.false_eq_true, if_false]
      rfl

theorem handling_of_mem {p : Project} {cs : List Candidate} {envVars : EnvMap}
    (hauto : p.autoDeploy = true) (henv : jobEnvVars cfg.encryption (load db p) = some envVars)
    (hp : candidate db p ∈ cs)
    (h : Handled cfg db payload (Push.loop cfg.encryption opts cs)) :
    ∃ previous rest,
      Handling cfg db payload (.findSystemConfig opts (load db p) envVars previous rest) := by
  induction cs with
  | nil => simp at hp
  | cons c rest ih =>
    rcases List.mem_cons.mp hp with rfl | hp
    · obtain ⟨previous, hs⟩ := handling_findSystemConfig hauto henv h
      exact ⟨previous, rest, hs⟩
    · exact ih hp (handled_rest h)

/-- Every project the push triggers gets a job under the payload's installation. -/
theorem exists_enqueues {p : Project} (hp : Triggers cfg db payload p)
    (hdel : payload.deleted = false) (hinst : installationOf payload = some installationId) :
    ∃ job, Enqueues cfg db payload job ∧ job.projectId = p.id ∧
      job.installationId = .ofNat installationId := by
  obtain ⟨envVars, henv⟩ := Option.isSome_iff_exists.mp hp.decrypts
  let opts := optionsOf payload installationId
  have hfound : Handled cfg db payload
      (Push.loop cfg.encryption opts (candidates db payload)) := by
    intro s hs
    refine Handling.found (w := worldOf db) (r := {}) rfl ?_
    simp only [Push.step, hdel, hinst, query, Bool.false_eq_true, if_false, if_true, Turn.pure]
    exact hs
  have hmem : candidate db p ∈ candidates db payload :=
    mem_candidates.mpr ⟨p, hp.mem, hp.owner, hp.repository, hp.branch, rfl⟩
  obtain ⟨previous, rest, hconfig⟩ := handling_of_mem hp.autoDeploy henv hmem hfound
  have hinsert := handled_step hconfig (worldOf db) {} _ rfl
  have hadmits (d : Deployment) (hd : d.projectId = p.id) :
      (worldOf db).admits (.createDeployment d) = true := by
    simp only [World.admits, worldOf, Database.findProject, List.find?_isSome, beq_iff_eq, hd]
    exact ⟨p, hp.mem, rfl⟩
  have henqueue := handled_step hinsert (worldOf db) {} (.enqueue opts
      (job opts (load db p) envVars previous (worldOf db).db.nextId) rest) (by
    simp only [Push.step, issue]
    rw [if_pos (hadmits _ rfl)]
    rfl)
  exact ⟨_, ⟨_, worldOf db, {}, henqueue, rfl⟩, rfl, rfl⟩

/-! ## Entitlement -/

theorem verifyInstallation_eq_ok_iff (db : Database) (userId : UserId) (installationId : Nat) :
    GitController.verifyInstallation db userId (toString installationId) = .ok () ↔
      ∃ a ∈ db.gitAccounts, a.userId = userId ∧ a.provider = "github" ∧
        a.installationId = some (toString installationId) := by
  have hne : (toString installationId).isEmpty = false := by
    simp
  rw [GitController.verifyInstallation, hne, if_neg (by simp)]
  split
  · rename_i h
    simpa [and_assoc] using h
  · rename_i h
    simpa [and_assoc] using h

theorem Push.eq_enqueue {s : Push} {w : World} {r : Reply} {job : BuildJob}
    (h : (s.step cfg w r).command = .addBuildJob job) :
    ∃ opts rest, s = .enqueue opts job rest := by
  cases s with
  | findProjects payload' =>
    rw [Push.step] at h
    split at h
    · cases h
    · split at h
      · cases h
      · rw [query] at h
        split at h <;> cases h
  | publish opts l id rest =>
    rcases command_issue w r.outcome (.publishCancelSignal id)
      (.next (Push.markCanceled opts l id rest)) (Push.loop cfg.encryption opts rest) [] [] with
      hc | hc <;> rw [Push.step, hc] at h <;> cases h
  | markCanceled opts l id rest =>
    rcases command_issue w r.outcome (.writeStatus id .webhookCancel)
      (Push.afterCancel cfg.encryption opts l rest) (Push.loop cfg.encryption opts rest)
      [.acknowledged id] [] with hc | hc <;> rw [Push.step, hc] at h <;> cases h
  | findSystemConfig opts l envVars previous rest =>
    rw [Push.step, query] at h
    split at h <;> cases h
  | insert opts l envVars previous region rest =>
    rcases command_issue w r.outcome (.createDeployment (row w opts l region))
      (.next (Push.enqueue opts (WebhooksService.job opts l envVars previous
        (row w opts l region).id) rest))
      (Push.loop cfg.encryption opts rest) [] [] with hc | hc <;>
      rw [Push.step, hc] at h <;> cases h
  | enqueue opts job' rest =>
    rcases command_issue w r.outcome (.addBuildJob job') (Push.loop cfg.encryption opts rest)
      (Push.loop cfg.encryption opts rest) [] [] with hc | hc <;>
      rw [Push.step, hc] at h <;> cases h
    exact ⟨opts, rest, rfl⟩

theorem Enqueues.serves {job : BuildJob} (h : Enqueues cfg db payload job) :
    payload.deleted = false ∧ ∃ installationId, installationOf payload = some installationId ∧
      job.installationId = .ofNat installationId ∧
        ∃ p, job.projectId = p.id ∧ Triggers cfg db payload p := by
  obtain ⟨s, w, r, hs, hcommand⟩ := h
  obtain ⟨installationId, hdel, hinst, hserves⟩ := hs.serves
  obtain ⟨opts, rest, rfl⟩ := Push.eq_enqueue hcommand
  obtain ⟨_, _, hinstallation, hp⟩ := hserves
  exact ⟨hdel, installationId, hinst, hinstallation, hp⟩

/-- The job describes a project that the push triggers as it was read. -/
theorem Enqueues.describes {job : BuildJob} (h : Enqueues cfg db payload job) :
    ∃ installationId p envVars previous id, installationOf payload = some installationId ∧
      Triggers cfg db payload p ∧ jobEnvVars cfg.encryption (load db p) = some envVars ∧
      job =
        WebhooksService.job (optionsOf payload installationId) (load db p) envVars previous id := by
  obtain ⟨s, w, r, hs, hcommand⟩ := h
  obtain ⟨installationId, _, hinst, hcarries⟩ := hs.carries
  obtain ⟨opts, rest, rfl⟩ := Push.eq_enqueue hcommand
  obtain ⟨_, _, l, envVars, previous, id, ⟨c, hc, rfl, hauto⟩, henv, rfl⟩ := hcarries
  obtain ⟨p, hload, hp⟩ := exists_triggers hc hauto henv
  rw [hload] at henv ⊢
  exact ⟨installationId, p, envVars, previous, id, hinst, hp, henv, rfl⟩

/-- Every job a push enqueues is entitled to its installation exactly when the owner
of each project the push triggers has an account with the payload's installation. -/
theorem enqueued_entitled_iff (cfg : Config) (db : Database) (payload : PushEventPayload)
    (hids : (db.projects.map (·.id)).Nodup) :
    (∀ job, Enqueues cfg db payload job → Entitled db job) ↔
      ∀ installationId, payload.deleted = false → installationOf payload = some installationId →
        ∀ p, Triggers cfg db payload p →
          ∃ a ∈ db.gitAccounts, a.userId = p.userId ∧ a.provider = "github" ∧
            a.installationId = some (toString installationId) := by
  have hfind {p : Project} (hp : p ∈ db.projects) : db.findProject p.id = some p :=
    Table.find?_of_nodup hids hp
  constructor
  · intro h installationId hdel hinst p hp
    obtain ⟨job, henqueues, hproject, hinstallation⟩ := exists_enqueues hp hdel hinst
    obtain ⟨q, hq, hverify⟩ := h job henqueues
    rw [hproject, hfind hp.mem] at hq
    cases hq
    rw [hinstallation, Number.text_ofNat] at hverify
    exact (verifyInstallation_eq_ok_iff db p.userId installationId).mp hverify
  · intro h job henqueues
    obtain ⟨hdel, installationId, hinst, hinstallation, p, hproject, hp⟩ := henqueues.serves
    refine ⟨p, hproject ▸ hfind hp.mem, ?_⟩
    rw [hinstallation, Number.text_ofNat]
    exact (verifyInstallation_eq_ok_iff db p.userId installationId).mpr
      (h installationId hdel hinst p hp)

/-- A project that deploys `ada/shop`. -/
def shopProject (id : ProjectId) (name : ProjectName) (userId : UserId) (gitCloneUrl : String) :
    Project where
  id
  name
  gitRepoOwner := "ada"
  gitRepoName := "shop"
  gitBranch := "main"
  gitCloneUrl
  updatedAt := 0
  userId

/-- User 1 has the account `ada` with installation 7. -/
def shopDatabase (projects : List Project) : Database :=
  { Database.empty with
    projects
    gitAccounts := [{ username := "ada", installationId := some "7", userId := 1 }] }

/-- A push to `ada/shop` that GitHub sends for installation 7. -/
def shopPush : PushEventPayload where
  ref := "refs/heads/main"
  after := "0123456789abcdef0123456789abcdef01234567"
  repositoryName := "shop"
  repositoryOwner := "ada"
  sender := "ada"
  installationId := some 7

theorem enqueued_entitled_shop :
    let db := shopDatabase [shopProject 1 ⟨"shop", by decide⟩ 1 "https://github.com/ada/shop.git"]
    ∀ job, Enqueues Config.clear db shopPush job → Entitled db job := by
  intro db
  refine (enqueued_entitled_iff Config.clear db shopPush (by decide)).mpr ?_
  intro installationId _ hinst p hp
  have hmem := hp.mem
  simp only [db, shopDatabase, List.mem_singleton] at hmem
  have hseven : 7 = installationId := Option.some.inj hinst
  subst hmem hseven
  exact ⟨_, List.mem_singleton_self _, rfl, rfl, by decide⟩

/-- User 2 names the repository of `ada` and a clone URL of their own: the push builds
that project too, with the token of an installation that is not theirs. -/
theorem not_enqueued_entitled :
    ¬∀ (cfg : Config) (db : Database) (payload : PushEventPayload),
      (db.projects.map (·.id)).Nodup →
        ∀ job, Enqueues cfg db payload job → Entitled db job := by
  intro h
  let guest := shopProject 2 ⟨"guest", by decide⟩ 2 "https://git.example.net/guest.git"
  let db := shopDatabase
    [shopProject 1 ⟨"shop", by decide⟩ 1 "https://github.com/ada/shop.git", guest]
  have htriggers : Triggers Config.clear db shopPush guest :=
    { mem := by simp [db, shopDatabase], owner := rfl, repository := rfl, branch := by decide
      autoDeploy := rfl, decrypts := rfl }
  obtain ⟨job, henqueues, hproject, hinstallation⟩ :=
    exists_enqueues htriggers rfl (show installationOf _ = some 7 from rfl)
  obtain ⟨p, hp, hverify⟩ := h Config.clear db shopPush (by decide) job henqueues
  have hguest : p = guest := by
    rw [hproject] at hp
    exact (Option.some.inj hp).symm
  rw [hguest, hinstallation, Number.text_ofNat, verifyInstallation_eq_ok_iff] at hverify
  obtain ⟨a, ha, huser, _⟩ := hverify
  rw [List.mem_singleton.mp ha] at huser
  exact absurd huser (by decide)

end WebhooksService
end System
end Code2Cloud
