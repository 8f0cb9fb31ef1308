import Code2Cloud.System.Producers
import Code2Cloud.System.Backed

/-!
# Jobs that end the worker

`processJob` slices the first eight bytes of a job's commit and takes the first address of
its rollout.  Nothing recovers: a job that has too short a commit, or no domain, ends the
process.  Which jobs have them is decided by the API when it enqueues them.
-/

namespace Code2Cloud
namespace System

open Api Worker

namespace BuildWorker

/-- The states of the worker while it processes the job.  Whatever the other processes do
between its steps, each step may meet any world. -/
inductive Processing (cfg : Config) (job : BuildJob) : BuildWorker → Prop
  | popped : Processing cfg job (.processing { job } .checkQueued)
  | step {s s' : BuildWorker} {w : World} {r : Reply} (hs : Processing cfg job s)
      (h : (s.step cfg w r).next = some s') (hjob : s'.job.isSome = true) : Processing cfg job s'

/-- No step of the worker on the job panics. -/
def Survives (cfg : Config) (job : BuildJob) : Prop :=
  ∀ s w r, Processing cfg job s → (s.step cfg w r).next ≠ none

/-- The job has eight bytes of commit to slice, and a domain. -/
structure Safe (job : BuildJob) : Prop where
  commitHash : 8 ≤ (utf8 job.commitHash).length
  domains : ∃ domain ∈ job.domains, domain ≠ ""

variable {cfg : Config} {job : BuildJob}

theorem Processing.job_eq {s : BuildWorker} (h : Processing cfg job s) : s.job = some job := by
  induction h with
  | popped => rfl
  | @step s s' w r hs h hjob ih =>
    rcases next_step cfg w r s with hcontinues | ⟨_, rfl, _⟩
    · rcases hcontinues s' h with rfl | ⟨hsame, _⟩
      · cases hjob
      · rw [hsame, ih]
    · cases ih

/-! ## Safe jobs -/

theorem isSome_deploymentUrl (b : Build) :
    (deploymentUrl b).isSome = true ↔ ∃ domain ∈ b.job.domains, domain ≠ "" := by
  have hhosts : Client.allHosts (deployOptions b) ≠ [] ↔ ∃ domain ∈ b.job.domains, domain ≠ "" := by
    simp [Client.allHosts, deployOptions, Utf8.utf8_eq_nil_iff]
  rw [← hhosts, deploymentUrl, Option.isSome_map]
  cases Client.allHosts (deployOptions b) <;> simp

def GoesOn (next : Option BuildWorker) : Prop := next.isSome = true

theorem goesOn_some (b : BuildWorker) : GoesOn (some b) := rfl

/-- There are three places to panic: the banner, the log line of the clone and the first
address. -/
theorem goesOn_process (w : World) (r : Reply) (b : Build) (pc : Pc) (hsafe : Safe b.job) :
    GoesOn (processStep cfg w r b pc).next := by
  have hlength := hsafe.commitHash
  cases pc with
  | checkQueued | checkSettings | checkClone | checkBuild | checkDeploy =>
    rw [processStep, check]
    split <;> rfl
  | projectPending | recordImage | projectActive | markDeploying | markReady =>
    exact next_request_of (goesOn_some _) (goesOn_some _) _ _ _ _ _
  | markBuilding =>
    refine next_request_of (P := GoesOn) ?_ (goesOn_some _) _ _ _ _ _
    rw [if_neg (Nat.not_lt.mpr hlength)]
    rfl
  | getSettings => rfl
  | getToken | build =>
    exact next_query_of (goesOn_some _) (goesOn_some _) _
  | clone =>
    refine next_query_of (P := GoesOn) ?_ (goesOn_some _) _
    have hne : b.job.commitHash.isEmpty = false := by
      rw [Bool.eq_false_iff]
      intro hempty
      rw [String.isEmpty_iff.mp hempty] at hlength
      exact absurd hlength (by decide)
    simp only [hne, Bool.false_eq_true, if_false, Turn.pure]
    rw [if_neg (Nat.not_lt.mpr hlength)]
    rfl
  | deploy stage =>
    rw [processStep]
    split
    · exact next_issue_of (goesOn_some _) (goesOn_some _) _ _ _ _ _
    · simp only [Turn.pure, afterDeploy]
      rw [if_pos ((isSome_deploymentUrl b).mpr hsafe.domains)]
      rfl
  | stopPrevious =>
    rw [processStep]
    split <;> rfl
  | supersede =>
    rw [processStep]
    split
    · exact next_request_of (goesOn_some _) (goesOn_some _) _ _ _ _ _
    · rfl
  | startStreaming => rfl

theorem goesOn_cancel (w : World) (r : Reply) (job : BuildJob) (pc : CancelPc) :
    GoesOn (cancelStep w r job pc).next := by
  cases pc with
  | markCanceled | deleteResources | projectInactive =>
    exact next_request_of (goesOn_some _) (goesOn_some _) _ _ _ _ _
  | clearSignal => exact next_issue_of (goesOn_some _) (goesOn_some _) _ _ _ _ _
  | stopStreaming | stopStreams => rfl
  | cleanup left =>
    cases left with
    | nil => rfl
    | cons kind left =>
      exact next_issue_of (goesOn_some _) (goesOn_some _) _ _ _ _ _

theorem goesOn_fail (w : World) (r : Reply) (job : BuildJob) (pc : FailPc) :
    GoesOn (failStep w r job pc).next := by
  cases pc with
  | markFailed => exact next_request_of (goesOn_some _) (goesOn_some _) _ _ _ _ _
  | stopStreams => rfl

theorem goesOn_idle (w : World) (r : Reply) : GoesOn (idle.step cfg w r).next := by
  rw [step]
  split
  · rfl
  · exact next_issue_of (goesOn_some _) (goesOn_some _) _ _ _ _ _

/-- Only a job that is not safe ends the process. -/
theorem unsafe_of_panic {s : BuildWorker} {w : World} {r : Reply}
    (h : (s.step cfg w r).next = none) : ∃ job, s.job = some job ∧ ¬Safe job := by
  have hgoes : ¬GoesOn (s.step cfg w r).next := by
    rw [h]
    exact Bool.false_ne_true
  cases s with
  | idle => exact absurd (goesOn_idle w r) hgoes
  | processing b pc => exact ⟨b.job, rfl, fun hsafe => hgoes (goesOn_process w r b pc hsafe)⟩
  | cancelling job pc => exact absurd (goesOn_cancel w r job pc) hgoes
  | failing job pc => exact absurd (goesOn_fail w r job pc) hgoes

theorem survives_of_safe (hsafe : Safe job) : Survives cfg job := by
  intro s w r hs hnone
  obtain ⟨job', hjob, hunsafe⟩ := unsafe_of_panic hnone
  rw [hs.job_eq] at hjob
  cases hjob
  exact hunsafe hsafe

/-! ## Unsafe jobs -/

theorem next_request_ok {σ : Type} {w : World} {c : InternalRequest} {ok err : σ}
    {entries errors : List Entry} (h : w.admits c.command = true) :
    (request w .ok c ok err entries errors).next = ok := by
  rw [request, issue, if_pos h]

/-- A world with the row of the job's deployment and no cancel signal. -/
def worldFor (job : BuildJob) : World :=
  { World.empty with
    db.deployments :=
      [{ id := job.deploymentId, commitHash := "", commitMessage := "", commitAuthor := ""
         branch := "", startedAt := 0, projectId := 0, initiatorId := none }] }

theorem admits_worldFor (job : BuildJob) (write : StatusWrite) :
    (worldFor job).admits (.writeStatus job.deploymentId write) = true := by
  simp [World.admits, worldFor, Database.findDeployment]

def Passes (cfg : Config) (job : BuildJob) (pc : Pc) : Prop :=
  ∃ b, b.job = job ∧ Processing cfg job (.processing b pc)

/-- A request that is answered without a panic leads on to the next one. -/
theorem Passes.next {pc pc' : Pc} (h : Passes cfg job pc)
    (hnext : ∀ b, b.job = job → ∃ b', b'.job = job ∧
      (processStep cfg (worldFor job) { head := job.commitHash } b pc).next =
        some (.processing b' pc')) : Passes cfg job pc' := by
  obtain ⟨b, hb, hs⟩ := h
  obtain ⟨b', hb', hstep⟩ := hnext b hb
  exact ⟨b', hb', hs.step hstep rfl⟩

theorem passes_markBuilding (cfg : Config) (job : BuildJob) : Passes cfg job .markBuilding := by
  have hqueued : Passes cfg job .checkQueued := ⟨_, rfl, .popped⟩
  have hpending : Passes cfg job .projectPending := hqueued.next fun b hb => ⟨b, hb, rfl⟩
  exact hpending.next fun b hb => ⟨b, hb, rfl⟩

/-- With enough of a commit, the worker comes to the end of the rollout. -/
theorem passes_wait (cfg : Config) {job : BuildJob} (h : 8 ≤ (utf8 job.commitHash).length) :
    Passes cfg job (.deploy .wait) := by
  have hbuilding := passes_markBuilding cfg job
  have hsettings : Passes cfg job .checkSettings := hbuilding.next fun b hb => by
    subst hb
    refine ⟨b, rfl, ?_⟩
    rw [processStep, next_request_ok (admits_worldFor _ _), if_neg (Nat.not_lt.mpr h)]
  have hget : Passes cfg job .getSettings := hsettings.next fun b hb => ⟨b, hb, rfl⟩
  have htoken : Passes cfg job .getToken := hget.next fun b hb => by
    refine ⟨_, ?_, rfl⟩
    exact hb
  have hcheck : Passes cfg job .checkClone := htoken.next fun b hb => ⟨b, hb, rfl⟩
  have hclone : Passes cfg job .clone := hcheck.next fun b hb => ⟨b, hb, rfl⟩
  have hbuilt : Passes cfg job .checkBuild := hclone.next fun b hb => by
    subst hb
    refine ⟨{ b with commitHash := b.job.commitHash }, rfl, ?_⟩
    simp only [processStep, query, if_true, ite_self, Turn.pure]
    rw [if_neg (Nat.not_lt.mpr h)]
  have hbuild : Passes cfg job .build := hbuilt.next fun b hb => ⟨b, hb, rfl⟩
  have hrecord : Passes cfg job .recordImage := hbuild.next fun b hb => by
    refine ⟨_, ?_, rfl⟩
    exact hb
  have hdeploy : Passes cfg job .checkDeploy := hrecord.next fun b hb => by
    subst hb
    refine ⟨b, rfl, ?_⟩
    rw [processStep, next_request_ok (admits_worldFor _ _)]
  have hmark : Passes cfg job .markDeploying := hdeploy.next fun b hb => ⟨b, hb, rfl⟩
  have haccount : Passes cfg job (.deploy .serviceAccount) := hmark.next fun b hb => by
    subst hb
    refine ⟨b, rfl, ?_⟩
    rw [processStep, next_request_ok (admits_worldFor _ _)]
  have hpolicy : Passes cfg job (.deploy .networkPolicy) := haccount.next fun b hb => ⟨b, hb, rfl⟩
  have hdeployment : Passes cfg job (.deploy .deployment) := hpolicy.next fun b hb => ⟨b, hb, rfl⟩
  have hservice : Passes cfg job (.deploy .service) := hdeployment.next fun b hb => ⟨b, hb, rfl⟩
  have hingress : Passes cfg job (.deploy .ingress) := hservice.next fun b hb => ⟨b, hb, rfl⟩
  exact hingress.next fun b hb => ⟨b, hb, rfl⟩

theorem safe_of_survives (h : Survives cfg job) : Safe job := by
  have hlength : 8 ≤ (utf8 job.commitHash).length := by
    by_contra hshort
    obtain ⟨b, rfl, hs⟩ := passes_markBuilding cfg job
    refine h _ (worldFor b.job) {} hs ?_
    rw [step, processStep, next_request_ok (admits_worldFor _ _), if_pos (Nat.lt_of_not_le hshort)]
  refine ⟨hlength, ?_⟩
  by_contra hdomains
  obtain ⟨b, rfl, hs⟩ := passes_wait cfg hlength
  refine h _ (worldFor b.job) {} hs ?_
  have hurl : (deploymentUrl b).isSome = false := by
    rw [Bool.eq_false_iff, Ne, isSome_deploymentUrl]
    exact hdomains
  change afterDeploy b = none
  rw [afterDeploy, hurl, if_neg Bool.false_ne_true]

/-- The worker survives the safe jobs and no others. -/
theorem survives_iff : Survives cfg job ↔ Safe job := ⟨safe_of_survives, survives_of_safe⟩

end BuildWorker

/-! ## What jobs are made from -/

/-- What a producer makes a job from: a stored project or a submitted one, with GitHub's
answer to the question for the head of its branch, or with the push. -/
inductive Source
  | redeploy (l : Loaded) (answer : Reply)
  | push (l : Loaded) (payload : PushEventPayload)
  | create (dto : CreateProjectDto) (answer : Reply)

def Reply.commits (answer : Reply) : Prop :=
  answer.outcome = .ok ∧ 8 ≤ (utf8 answer.commitData.sha).length

def Loaded.hasDomain (l : Loaded) : Prop := ∃ domain ∈ l.domains, domain ≠ ""

/-- The producer knows a whole commit, and the project has a domain; a new project gets one. -/
def Source.Sound : Source → Prop
  | .redeploy l answer => answer.commits ∧ l.hasDomain
  | .push l payload => 8 ≤ (utf8 payload.after).length ∧ l.hasDomain
  | .create _ answer => answer.commits

/-- The producer comes to enqueue the job: it has the answer about the commit, and inserts
the deployment's row in some world. -/
inductive Produces (cfg : Config) : Source → BuildJob → Prop
  | redeploy {userId : UserId} {l : Loaded} {installationId : String} {answer r : Reply}
      {w w' : World} {s : DeploymentsService.Create} {job : BuildJob}
      (hcommit : ((DeploymentsService.Create.getLatestCommit userId l installationId).step cfg w
        answer).next = .next s)
      (hinsert : (s.step cfg w' r).next = .next (.enqueue job)) :
      Produces cfg (.redeploy l answer) job
  | push {db : Database} {payload : PushEventPayload} {opts opts' : WebhooksService.TriggerOptions}
      {l : Loaded} {envVars : EnvMap} {previous : Option DeploymentId} {region : String}
      {rest rest' : List WebhooksService.Candidate} {w : World} {r : Reply} {job : BuildJob}
      (hs : WebhooksService.Handling cfg db payload (.insert opts l envVars previous region rest))
      (hinsert : ((WebhooksService.Push.insert opts l envVars previous region rest).step cfg w
        r).next = .next (.enqueue opts' job rest')) :
      Produces cfg (.push l payload) job
  | create {userId : UserId} {dto : CreateProjectDto} {installationId : String} {answer r : Reply}
      {w w' : World} {s : ProjectsService.Create} {draft : Draft} {job : BuildJob}
      (hcommit : ((ProjectsService.Create.getLatestCommit userId dto installationId).step cfg w
        answer).next = .next s)
      (hinsert : (s.step cfg w' r).next = .next (.enqueue draft job)) :
      Produces cfg (.create dto answer) job

theorem commits_iff (answer : Reply) :
    8 ≤ (utf8 (latestCommit answer).sha).length ↔ answer.commits := by
  rw [Reply.commits, latestCommit]
  by_cases hok : answer.outcome = .ok
  · rw [if_pos hok, and_iff_right hok]
  · rw [if_neg hok]
    exact iff_of_false (by decide) fun h => hok h.1

/-- The job of a redeploy is safe exactly when its commit is long enough and its project has a
domain. -/
theorem safe_redeploy_iff {e : EncryptionService} {l : Loaded} {installationId : String}
    {answer : Reply} {id : DeploymentId} :
    BuildWorker.Safe (DeploymentsService.job e l installationId (latestCommit answer) id) ↔
      answer.commits ∧ l.hasDomain :=
  ⟨fun h => ⟨(commits_iff answer).mp h.commitHash, h.domains⟩,
    fun h => ⟨(commits_iff answer).mpr h.1, h.2⟩⟩

theorem safe_push_iff {opts : WebhooksService.TriggerOptions} {l : Loaded} {envVars : EnvMap}
    {previous : Option DeploymentId} {id : DeploymentId} :
    BuildWorker.Safe (WebhooksService.job opts l envVars previous id) ↔
      8 ≤ (utf8 opts.commitHash).length ∧ l.hasDomain :=
  ⟨fun h => ⟨h.commitHash, h.domains⟩, fun h => ⟨h.1, h.2⟩⟩

theorem safe_create_iff {e : EncryptionService} {deployDomain hash : String} {ivs : Nat → Iv}
    {now : Nat} {db : Database} {userId : UserId} {dto : CreateProjectDto} {installationId : String}
    {answer : Reply} :
    BuildWorker.Safe (ProjectsService.job dto installationId
        (ProjectsService.draft e deployDomain hash ivs now db userId dto (latestCommit answer))) ↔
      answer.commits := by
  refine ⟨fun h => (commits_iff answer).mp h.commitHash, fun h => ⟨(commits_iff answer).mpr h, _,
    List.mem_singleton_self _, ?_⟩⟩
  intro hempty
  have hlist := congrArg String.toList hempty
  simp [ProjectsService.draft, UrlUtils.generateDeploymentUrl] at hlist

theorem WebhooksService.enqueue_of_insert {cfg : Config} {opts opts' : TriggerOptions} {l : Loaded}
    {envVars : EnvMap} {previous : Option DeploymentId} {region : String}
    {rest rest' : List Candidate} {w : World} {r : Reply} {job' : BuildJob}
    (h : ((Push.insert opts l envVars previous region rest).step cfg w r).next =
      .next (.enqueue opts' job' rest')) :
    ∃ id, job' = job opts l envVars previous id := by
  rcases next_issue w r.outcome (.createDeployment (row w opts l region))
    (.next (Push.enqueue opts (job opts l envVars previous (row w opts l region).id) rest))
    (Push.loop cfg.encryption opts rest) [] [] with hn | hn <;> rw [Push.step, hn] at h
  · cases h
    exact ⟨_, rfl⟩
  · have hheld := held_loop cfg.encryption opts rest
    rw [h] at hheld
    cases hheld

/-- The job of a producer is safe exactly when what it was made from is sound. -/
theorem safe_iff_sound {cfg : Config} {source : Source} {job : BuildJob}
    (h : Produces cfg source job) : BuildWorker.Safe job ↔ source.Sound := by
  cases h with
  | @redeploy userId l installationId answer r w w' s job hcommit hinsert =>
    cases hcommit
    rcases next_issue w' r.outcome
      (.createRedeployment (DeploymentsService.row w' userId l (latestCommit answer)))
      (Flow.next (DeploymentsService.Create.enqueue (DeploymentsService.job cfg.encryption l
        installationId (latestCommit answer)
        (DeploymentsService.row w' userId l (latestCommit answer)).id)))
      (Flow.throw .internal) [] [] with hn | hn <;>
      rw [DeploymentsService.Create.step, hn] at hinsert
    · cases hinsert
      exact safe_redeploy_iff
    · cases hinsert
  | push hs hinsert =>
    obtain ⟨id, rfl⟩ := WebhooksService.enqueue_of_insert hinsert
    obtain ⟨installationId, _, _, rfl, _⟩ := hs.carries
    exact safe_push_iff
  | create hcommit hinsert =>
    cases hcommit
    rw [ProjectsService.Create.step] at hinsert
    split at hinsert
    · cases hinsert
      exact safe_create_iff
    · cases hinsert

/-- The worker survives the job of a producer exactly when what it was made from is sound. -/
theorem produced_survives_iff (cfg : Config) (source : Source) (job : BuildJob)
    (h : Produces cfg source job) : BuildWorker.Survives cfg job ↔ source.Sound :=
  BuildWorker.survives_iff.trans (safe_iff_sound h)

/-! ## Runs -/

/-- A call that holds a job holds one that was produced; before that it holds an answer about
the commit, or handles a push. -/
def Call.Sourced (cfg : Config) : Call → Prop
  | .createDeployment (.insert _ _ _ commit) | .createProject (.insert _ _ _ commit) =>
    ∃ answer, commit = latestCommit answer
  | .createDeployment (.enqueue job) | .createProject (.enqueue _ job) =>
    ∃ source, Produces cfg source job
  | .push (.findProjects _) => True
  | .push c =>
    (∃ db payload, WebhooksService.Handling cfg db payload c) ∧
      ∀ job, (Call.push c).held = some job → ∃ source, Produces cfg source job
  | _ => True

section Next

variable {cfg : Config} {w : World} {r : Reply}

theorem sourced_redeploy {c c' : DeploymentsService.Create}
    (hc : (Call.createDeployment c).Sourced cfg) (h : (c.step cfg w r).next = .next c') :
    (Call.createDeployment c').Sourced cfg := by
  cases c with
  | findProject userId projectId =>
    rw [DeploymentsService.Create.step, query] at h
    split at h
    · simp only [Turn.pure] at h
      split at h
      · cases h
      · cases h
        trivial
    · cases h
  | findGitAccounts userId l =>
    rw [DeploymentsService.Create.step, query] at h
    split at h
    · simp only [Turn.pure] at h
      split at h
      · cases h
      · cases h
        trivial
    · cases h
  | findLatest userId l accounts =>
    rw [DeploymentsService.Create.step, query] at h
    split at h
    · simp only [Turn.pure] at h
      split at h
      · cases h
      · split at h
        · cases h
        · cases h
          trivial
    · cases h
  | getLatestCommit userId l installationId =>
    cases h
    exact ⟨r, rfl⟩
  | insert userId l installationId commit =>
    obtain ⟨answer, rfl⟩ := hc
    have hcommit : ((DeploymentsService.Create.getLatestCommit userId l installationId).step cfg w
        answer).next = .next (.insert userId l installationId (latestCommit answer)) := rfl
    have hinsert := h
    rcases next_issue w r.outcome
      (.createRedeployment (DeploymentsService.row w userId l (latestCommit answer)))
      (Flow.next (DeploymentsService.Create.enqueue (DeploymentsService.job cfg.encryption l
        installationId (latestCommit answer)
        (DeploymentsService.row w userId l (latestCommit answer)).id)))
      (Flow.throw .internal) [] [] with hn | hn <;> rw [DeploymentsService.Create.step, hn] at h
    · cases h
      exact ⟨_, .redeploy hcommit hinsert⟩
    · cases h
  | enqueue job =>
    rcases next_issue w r.outcome (.addBuildJob job) Flow.done (Flow.throw .internal) [] []
      with hn | hn <;> rw [DeploymentsService.Create.step, hn] at h <;> cases h

theorem sourced_create {c c' : ProjectsService.Create} (hc : (Call.createProject c).Sourced cfg)
    (h : (c.step cfg w r).next = .next c') : (Call.createProject c').Sourced cfg := by
  cases c with
  | findExisting userId dto =>
    rw [ProjectsService.Create.step, query] at h
    split at h
    · simp only [Turn.pure] at h
      split at h
      · cases h
      · cases h
        trivial
    · cases h
  | findGitAccounts userId dto =>
    rw [ProjectsService.Create.step, query] at h
    split at h
    · simp only [Turn.pure] at h
      split at h
      · cases h
      · split at h
        · cases h
        · cases h
          trivial
    · cases h
  | getLatestCommit userId dto installationId =>
    cases h
    exact ⟨r, rfl⟩
  | insert userId dto installationId commit =>
    obtain ⟨answer, rfl⟩ := hc
    have hcommit : ((ProjectsService.Create.getLatestCommit userId dto installationId).step cfg w
        answer).next = .next (.insert userId dto installationId (latestCommit answer)) := rfl
    have hinsert := h
    rw [ProjectsService.Create.step] at h
    split at h
    · cases h
      exact ⟨_, .create hcommit hinsert⟩
    · cases h
  | enqueue draft job =>
    rcases next_issue w r.outcome (.addBuildJob job)
      (Flow.next (ProjectsService.Create.commit draft)) (Flow.next (.rollback draft)) [] []
      with hn | hn <;> rw [ProjectsService.Create.step, hn] at h <;> cases h <;> trivial
  | commit draft =>
    rw [ProjectsService.Create.step] at h
    split at h <;> cases h
  | rollback draft => cases h

theorem WebhooksService.insert_of_enqueue {c : Push} {opts : TriggerOptions} {job : BuildJob}
    {rest : List Candidate} (h : (c.step cfg w r).next = .next (.enqueue opts job rest)) :
    ∃ opts' l envVars previous region rest',
      c = .insert opts' l envVars previous region rest' := by
  have hloop {opts' : TriggerOptions} {cs : List Candidate}
      (h : Push.loop cfg.encryption opts' cs = .next (.enqueue opts job rest)) : False := by
    have hheld := held_loop cfg.encryption opts' cs
    rw [h] at hheld
    cases hheld
  cases c with
  | findProjects payload =>
    rw [Push.step] at h
    split at h
    · cases h
    · split at h
      · cases h
      · rw [query] at h
        split at h
        · exact (hloop h).elim
        · cases h
  | publish opts' l id rest' =>
    rcases next_issue w r.outcome (.publishCancelSignal id)
      (.next (Push.markCanceled opts' l id rest')) (Push.loop cfg.encryption opts' rest') [] [] with
      hn | hn <;> rw [Push.step, hn] at h
    · cases h
    · exact (hloop h).elim
  | markCanceled opts' l id rest' =>
    rcases next_issue w r.outcome (.writeStatus id .webhookCancel)
      (Push.afterCancel cfg.encryption opts' l rest') (Push.loop cfg.encryption opts' rest')
      [.acknowledged id] [] with hn | hn <;> rw [Push.step, hn] at h
    · have hheld := held_afterCancel cfg.encryption opts' l rest'
      rw [h] at hheld
      cases hheld
    · exact (hloop h).elim
  | findSystemConfig opts' l envVars previous rest' =>
    rw [Push.step, query] at h
    split at h
    · cases h
    · exact (hloop h).elim
  | insert opts' l envVars previous region rest' =>
    exact ⟨opts', l, envVars, previous, region, rest', rfl⟩
  | enqueue opts' job' rest' =>
    rcases next_issue w r.outcome (.addBuildJob job') (Push.loop cfg.encryption opts' rest')
      (Push.loop cfg.encryption opts' rest') [] [] with hn | hn <;> rw [Push.step, hn] at h <;>
      exact (hloop h).elim

theorem sourced_push {c c' : WebhooksService.Push} (hc : (Call.push c).Sourced cfg)
    (h : (c.step cfg w r).next = .next c') : (Call.push c').Sourced cfg := by
  have hhandling : (∃ payload, c = .findProjects payload) ∨
      ∃ db payload, WebhooksService.Handling cfg db payload c := by
    cases c with
    | findProjects payload => exact Or.inl ⟨payload, rfl⟩
    | _ => exact Or.inr hc.1
  have hnext : ∃ db payload, WebhooksService.Handling cfg db payload c' := by
    rcases hhandling with ⟨payload, rfl⟩ | ⟨db, payload, hs⟩
    · exact ⟨w.db, payload, .found rfl h⟩
    · exact ⟨db, payload, hs.step h⟩
  cases c' with
  | findProjects payload => trivial
  | enqueue opts job rest =>
    refine ⟨hnext, fun job' hjob => ?_⟩
    cases hjob
    obtain ⟨opts', l, envVars, previous, region, rest', rfl⟩ := WebhooksService.insert_of_enqueue h
    obtain ⟨_, payload, hs⟩ := hc.1
    exact ⟨_, .push hs h⟩
  | _ => exact ⟨hnext, nofun⟩

theorem sourced_next {c c' : Call} (hc : c.Sourced cfg) (h : (c.step cfg w r).next = some c') :
    c'.Sourced cfg := by
  cases c with
  | createDeployment c =>
    obtain ⟨x, hx, rfl⟩ := toCall_eq_some h
    exact sourced_redeploy hc hx
  | createProject c =>
    obtain ⟨x, hx, rfl⟩ := toCall_eq_some h
    exact sourced_create hc hx
  | push c =>
    obtain ⟨x, hx, rfl⟩ := toCall_eq_some h
    exact sourced_push hc hx
  | cancel c | updateStatus c | updateProject c | removeProject c | createDomain c
  | removeDomain c =>
    obtain ⟨x, _, rfl⟩ := toCall_eq_some h
    trivial
  | late c =>
    rcases next_issue w r.outcome c.command (none : Option Call) none [] [] with hn | hn <;>
      rw [Call.step, hn] at h <;> cases h

theorem sourced_held {c : Call} (hc : c.Sourced cfg) {job : BuildJob} (h : c.held = some job) :
    ∃ source, Produces cfg source job := by
  cases c with
  | createDeployment c =>
    cases c with
    | enqueue job' =>
      cases h
      exact hc
    | _ => cases h
  | createProject c =>
    cases c with
    | enqueue draft job' =>
      cases h
      exact hc
    | _ => cases h
  | push c =>
    cases c with
    | enqueue opts job' rest => exact hc.2 job h
    | _ => cases h
  | _ => cases h

end Next

namespace State

/-- Every job on its way was produced. -/
structure Sourced (cfg : Config) (s : State) : Prop where
  calls : ∀ c ∈ s.procs.calls, c.Sourced cfg
  queue : ∀ job ∈ s.world.redis.buildQueue, ∃ source, Produces cfg source job
  worker : ∀ job, s.procs.worker.job = some job → ∃ source, Produces cfg source job

variable {cfg : Config} {s s' : State} {e : Event}

theorem sourced_step (hs : s.Sourced cfg) (h : s.step cfg e = some s') : s'.Sourced cfg where
  calls c hc := by
    cases origin_step h hc with
    | old hc => exact hs.calls c hc
    | start r => cases r <;> trivial
    | next hi hnext => exact sourced_next (hs.calls _ (List.mem_of_getElem? hi)) hnext
    | late => trivial
  queue job hjob := by
    rcases queue_step h hjob with hjob | ⟨t, ht, hc⟩
    · exact hs.queue job hjob
    · obtain ⟨c, hc, hheld⟩ := pushes_turn ht hc
      exact sourced_held (hs.calls c hc) hheld
  worker job hjob := by
    rcases job_step h hjob with hjob | ⟨_, queues, _, _, hwait⟩
    · exact hs.worker job hjob
    · exact hs.queue job (mem_of_waitForJob hwait)

theorem sourced_of_reaches (h : Reaches (State.step cfg) (fun _ _ => True) initial s) :
    s.Sourced cfg :=
  h.invariant (State.Sourced cfg)
    ⟨fun _ hc => absurd hc List.not_mem_nil, fun _ hjob => absurd hjob List.not_mem_nil, nofun⟩
    fun _ _ _ hs _ hstep => sourced_step hs hstep

/-- In a run the worker panics only on a job that was made from something unsound. -/
theorem panics_of_unsound (h : Reaches (State.step cfg) (fun _ _ => True) initial s) {r : Reply}
    (hpanic : (s.procs.worker.step cfg s.world r).next = none) :
    ∃ source job, Produces cfg source job ∧ s.procs.worker.job = some job ∧ ¬source.Sound := by
  obtain ⟨job, hjob, hunsafe⟩ := BuildWorker.unsafe_of_panic hpanic
  obtain ⟨source, hproduced⟩ := (sourced_of_reaches h).worker job hjob
  exact ⟨source, job, hproduced, hjob, mt (safe_iff_sound hproduced).mpr hunsafe⟩

end State

/-! ## The shop -/

def shopDto : CreateProjectDto where
  name := shopName
  gitRepoName := "shop"
  gitRepoOwner := "ada"
  gitBranch := "main"
  gitCloneUrl := "https://github.com/ada/shop.git"

def shopDraft (answer : Reply) : Draft :=
  ProjectsService.draft Config.clear.encryption Config.clear.deployDomain answer.hash answer.ivs 0
    Database.empty 1 shopDto (latestCommit answer)

theorem produces_shopBuild (answer : Reply) :
    Produces Config.clear (.create shopDto answer)
      (ProjectsService.job shopDto "7" (shopDraft answer)) := by
  have hcommit : ((ProjectsService.Create.getLatestCommit 1 shopDto "7").step Config.clear
      World.empty answer).next = .next (.insert 1 shopDto "7" (latestCommit answer)) := rfl
  have hinsert : ((ProjectsService.Create.insert 1 shopDto "7" (latestCommit answer)).step
      Config.clear World.empty { hash := answer.hash, ivs := answer.ivs }).next =
      .next (.enqueue (shopDraft answer)
        (ProjectsService.job shopDto "7" (shopDraft answer))) := rfl
  exact .create hcommit hinsert

/-- The first build of a project whose branch has a commit. -/
theorem produced_survives_shop :
    ∃ source job, Produces Config.clear source job ∧ BuildWorker.Survives Config.clear job :=
  ⟨_, _, produces_shopBuild shopReply,
    (produced_survives_iff _ _ _ (produces_shopBuild shopReply)).mpr ⟨rfl, by decide⟩⟩

/-- GitHub does not answer, and the placeholder has four bytes. -/
theorem not_produced_survives :
    ¬∀ (cfg : Config) (source : Source) (job : BuildJob), Produces cfg source job →
      BuildWorker.Survives cfg job := by
  intro h
  have hsafe := BuildWorker.survives_iff.mp (h _ _ _ (produces_shopBuild { outcome := .fail }))
  exact absurd hsafe.commitHash (by decide)

end System
end Code2Cloud
