import Code2Cloud.System.Writes

/-!
# Commands

What each process may issue next, whatever it is answered: every step issues that command or
none, and only if the store accepts it.
-/

namespace Code2Cloud
namespace System

open Api Worker GoString

variable {cfg : Config} {w : World} {s s' : State} {e : Event}

/-! ## What a process is about to issue -/

def Call.command (cfg : Config) (w : World) (r : Reply) : Call → Command
  | .createDeployment (.insert userId project _ commit) =>
    .createRedeployment (DeploymentsService.row w userId project commit)
  | .createDeployment (.enqueue job) => .addBuildJob job
  | .cancel (.update id) => .writeStatus id .cancel
  | .cancel (.publish id) => .publishCancelSignal id
  | .updateStatus (.update id status) => .writeStatus id (.updateStatus status)
  | .push (.publish _ _ id _) => .publishCancelSignal id
  | .push (.markCanceled _ _ id _) => .writeStatus id .webhookCancel
  | .push (.insert opts l _ _ region _) => .createDeployment (WebhooksService.row w opts l region)
  | .push (.enqueue _ job _) => .addBuildJob job
  | .createProject (.insert userId dto _ commit) =>
    .openDraft (ProjectsService.draft cfg.encryption cfg.deployDomain r.hash r.ivs w.now w.db
      userId dto commit)
  | .createProject (.enqueue _ job) => .addBuildJob job
  | .createProject (.commit draft) =>
    if r.outcome = .ok ∨ r.outcome = .lost then .commitDraft draft
    else .rollbackDraft draft.project.id
  | .createProject (.rollback draft) => .rollbackDraft draft.project.id
  | .updateProject (.update id dto) => .updateProject id dto
  | .removeProject (.publish _ (id :: _)) => .publishCancelSignal id
  | .removeProject (.enqueue cleanup) => .addProjectCleanupJob cleanup
  | .removeProject (.delete id) => .deleteProject id
  | .createDomain (.insert projectId domainName) =>
    .createDomain { id := w.db.nextId, name := domainName.val, projectId, createdAt := w.now }
  | .removeDomain (.delete id) => .deleteDomain id
  | .late c => c.command
  | _ => .skip

theorem command_query {σ : Type} (o : Outcome) (ok err : σ) (entries errors : List Entry) :
    (query o (.pure ok entries) (.pure err errors)).command = .skip := by
  unfold query
  split <;> rfl

theorem command_call (cfg : Config) (w : World) (r : Reply) (c : Call) :
    (c.step cfg w r).command = c.command cfg w r ∨ (c.step cfg w r).command = .skip := by
  cases c with
  | createDeployment c =>
    rw [Call.step, Turn.command_map]
    cases c with
    | getLatestCommit => exact Or.inr rfl
    | insert | enqueue => exact command_issue w _ _ _ _ _ _
    | _ => exact Or.inr (command_query _ _ _ _ _)
  | cancel c =>
    rw [Call.step, Turn.command_map]
    cases c with
    | find => exact Or.inr (command_query _ _ _ _ _)
    | update | publish => exact command_issue w _ _ _ _ _ _
  | updateStatus c =>
    rw [Call.step, Turn.command_map]
    cases c with
    | find => exact Or.inr (command_query _ _ _ _ _)
    | update => exact command_issue w _ _ _ _ _ _
  | push c =>
    rw [Call.step, Turn.command_map]
    cases c with
    | findProjects payload =>
      refine Or.inr ?_
      rw [WebhooksService.Push.step]
      split
      · rfl
      · split
        · rfl
        · exact command_query _ _ _ _ _
    | findSystemConfig => exact Or.inr (command_query _ _ _ _ _)
    | publish | markCanceled | insert | enqueue => exact command_issue w _ _ _ _ _ _
  | createProject c =>
    rw [Call.step, Turn.command_map]
    cases c with
    | findExisting | findGitAccounts => exact Or.inr (command_query _ _ _ _ _)
    | getLatestCommit => exact Or.inr rfl
    | rollback => exact Or.inl rfl
    | insert userId dto installationId commit =>
      rw [ProjectsService.Create.step]
      split
      · exact Or.inl rfl
      · exact Or.inr rfl
    | enqueue => exact command_issue w _ _ _ _ _ _
    | commit =>
      rw [ProjectsService.Create.step, Call.command]
      cases r.outcome <;> exact Or.inl rfl
  | updateProject c =>
    rw [Call.step, Turn.command_map]
    cases c with
    | findOne => exact Or.inr (command_query _ _ _ _ _)
    | update => exact command_issue w _ _ _ _ _ _
  | removeProject c =>
    rw [Call.step, Turn.command_map]
    cases c with
    | findProject => exact Or.inr (command_query _ _ _ _ _)
    | publish cleanup ids =>
      cases ids with
      | nil => exact Or.inr rfl
      | cons => exact command_issue w _ _ _ _ _ _
    | enqueue | delete => exact command_issue w _ _ _ _ _ _
  | createDomain c =>
    rw [Call.step, Turn.command_map]
    cases c with
    | findProject | findExisting => exact Or.inr (command_query _ _ _ _ _)
    | insert => exact command_issue w _ _ _ _ _ _
  | removeDomain c =>
    rw [Call.step, Turn.command_map]
    cases c with
    | find => exact Or.inr (command_query _ _ _ _ _)
    | delete => exact command_issue w _ _ _ _ _ _
  | late c => exact command_issue w _ _ _ _ _ _

def Command.IssuedBy (cfg : Config) (w : World) (r : Reply) (c : Call) : Command → Prop
  | .openDraft draft => ∃ userId dto installationId commit,
    draft = ProjectsService.draft cfg.encryption cfg.deployDomain r.hash r.ivs w.now w.db userId dto
      commit ∧ c = .createProject (.insert userId dto installationId commit)
  | .commitDraft draft => c = .createProject (.commit draft)
  | .createRedeployment d => ∃ userId l installationId commit,
    d = DeploymentsService.row w userId l commit ∧
      c = .createDeployment (.insert userId l installationId commit)
  | .updateProject id dto => c = .updateProject (.update id dto)
  | .createDomain d => ∃ projectId domainName,
    d = { id := w.db.nextId, name := domainName, projectId, createdAt := w.now }
  | _ => True

theorem issuedBy_command (cfg : Config) (w : World) (r : Reply) (c : Call) :
    (c.command cfg w r).IssuedBy cfg w r c := by
  cases c with
  | createDeployment c =>
    cases c with
    | insert => exact ⟨_, _, _, _, rfl, rfl⟩
    | _ => trivial
  | createProject c =>
    cases c with
    | insert => exact ⟨_, _, _, _, rfl, rfl⟩
    | commit draft =>
      rw [Call.command]
      split
      · exact rfl
      · trivial
    | _ => trivial
  | updateProject c =>
    cases c with
    | findOne => trivial
    | update => exact rfl
  | createDomain c =>
    cases c with
    | insert => exact ⟨_, _, rfl⟩
    | _ => trivial
  | removeProject c =>
    cases c with
    | publish cleanup ids => cases ids <;> trivial
    | _ => trivial
  | cancel c | updateStatus c | push c | removeDomain c | late c => cases c <;> trivial

theorem issuedBy_step (cfg : Config) (w : World) (r : Reply) (c : Call) :
    (c.step cfg w r).command.IssuedBy cfg w r c := by
  rcases command_call cfg w r c with h | h <;> rw [h]
  · exact issuedBy_command cfg w r c
  · trivial

def BuildWorker.command (cfg : Config) (r : Reply) : BuildWorker → Command
  | .idle => .popBuildJob
  | .processing b .projectPending => .setOnlineStatus b.job.projectId .pending
  | .processing b .markBuilding => .writeStatus b.job.deploymentId (statusUpdate .building)
  | .processing b .recordImage =>
    .writeStatus b.job.deploymentId
      (.updateDeploymentStatus { status := .building, containerImage := some (sent b.imageName) })
  | .processing b .markDeploying => .writeStatus b.job.deploymentId (statusUpdate .deploying)
  | .processing b (.deploy stage) =>
    match Client.object cfg.baseDomain (deployOptions b) stage with
    | some o => .apply o
    | none => .skip
  | .processing b .markReady =>
    .writeStatus b.job.deploymentId
      (.updateDeploymentStatus { status := .ready, deploymentUrl := deploymentUrl b })
  | .processing b .projectActive => .setOnlineStatus b.job.projectId .active
  | .processing b .stopPrevious =>
    match b.job.previousDeploymentId with
    | some previous => .stopStreaming previous
    | none => .skip
  | .processing b .supersede =>
    match b.job.previousDeploymentId with
    | some previous => .writeStatus previous (statusUpdate .superseded)
    | none => .skip
  | .processing b .startStreaming => .startStreaming b.job.deploymentId (r.outcome == .ok)
  | .cancelling job .markCanceled => .writeStatus job.deploymentId (statusUpdate .canceled)
  | .cancelling job .stopStreaming | .cancelling job .stopStreams | .failing job .stopStreams =>
    .stopStreaming job.deploymentId
  | .cancelling job (.cleanup (kind :: _)) =>
    .delete kind (Client.deleteName kind (cleanupOptions job))
  | .cancelling job .deleteResources => .writeStatus job.deploymentId .deleteDeploymentResources
  | .cancelling job .projectInactive => .setOnlineStatus job.projectId .inactive
  | .cancelling job .clearSignal => .clearCancelSignal job.deploymentId
  | .failing job .markFailed => .writeStatus job.deploymentId (statusUpdate .failed)
  | _ => .skip

theorem command_process (cfg : Config) (w : World) (r : Reply) (b : Build) (pc : Pc) :
    (BuildWorker.processStep cfg w r b pc).command = (BuildWorker.processing b pc).command cfg r ∨
      (BuildWorker.processStep cfg w r b pc).command = .skip := by
  cases pc with
  | checkQueued | checkSettings | checkClone | checkBuild | checkDeploy =>
    rw [BuildWorker.processStep, BuildWorker.check]
    split <;> exact Or.inr rfl
  | projectPending | markBuilding | recordImage | markDeploying | markReady | projectActive =>
    exact command_request w _ _ _ _ _ _
  | getSettings => exact Or.inr rfl
  | startStreaming => exact Or.inl rfl
  | getToken | clone | build => exact Or.inr (command_query _ _ _ _ _)
  | deploy stage =>
    rw [BuildWorker.processStep, BuildWorker.command]
    split
    · rename_i o next ho hnext
      rw [ho]
      exact command_issue w _ _ _ _ _ _
    · exact Or.inr rfl
  | stopPrevious =>
    simp only [BuildWorker.processStep, BuildWorker.command]
    cases b.job.previousDeploymentId <;> exact Or.inl rfl
  | supersede =>
    simp only [BuildWorker.processStep, BuildWorker.command]
    cases b.job.previousDeploymentId with
    | none => exact Or.inl rfl
    | some previous => exact command_request w _ _ _ _ _ _

theorem command_worker (cfg : Config) (w : World) (r : Reply) (b : BuildWorker) :
    (b.step cfg w r).command = b.command cfg r ∨ (b.step cfg w r).command = .skip := by
  cases b with
  | idle =>
    rw [BuildWorker.step]
    split
    · exact Or.inr rfl
    · exact command_issue w _ _ _ _ _ _
  | processing b pc => exact command_process cfg w r b pc
  | cancelling job pc =>
    cases pc with
    | markCanceled | deleteResources | projectInactive => exact command_request w _ _ _ _ _ _
    | stopStreaming | stopStreams => exact Or.inl rfl
    | clearSignal => exact command_issue w _ _ _ _ _ _
    | cleanup left =>
      cases left with
      | nil => exact Or.inl rfl
      | cons => exact command_issue w _ _ _ _ _ _
  | failing job pc =>
    cases pc with
    | markFailed => exact command_request w _ _ _ _ _ _
    | stopStreams => exact Or.inl rfl

def CleanupWorker.command : CleanupWorker → Command
  | .stopStreaming d _ => .stopStreaming d.id
  | .cleanup d (kind :: _) _ => .delete kind (Client.deleteName kind (cleanupOptions d))
  | .markExpired d _ => .writeStatus d.id (.updateDeploymentStatus { status := .expired })
  | .projectInactive d _ => .setOnlineStatus d.projectId .inactive
  | _ => .skip

theorem command_sweep (w : World) (r : Reply) (c : CleanupWorker) :
    (c.step w r).command = c.command ∨ (c.step w r).command = .skip := by
  cases c with
  | idle => exact Or.inr (command_query _ _ _ _ _)
  | fetching configs found => cases configs <;> exact Or.inr (command_query _ _ _ _ _)
  | stopStreaming => exact Or.inl rfl
  | cleanup d left rest =>
    cases left with
    | nil => exact Or.inl rfl
    | cons => exact command_issue w _ _ _ _ _ _
  | markExpired | projectInactive => exact command_request w _ _ _ _ _ _

/-! ## What the store accepts -/

theorem admits_issue {σ : Type} (w : World) (o : Outcome) (c : Command) (ok err : σ)
    (entries errors : List Entry) :
    w.admits (issue w o c ok err entries errors).command = true := by
  rcases issue_cases w o c ok err entries errors with ⟨hadmits, h⟩ | ⟨hadmits, h⟩ | h <;> rw [h]
  · exact hadmits
  · exact hadmits
  · rfl

theorem admits_request {σ : Type} (w : World) (o : Outcome) (c : InternalRequest) (ok err : σ)
    (entries errors : List Entry) :
    w.admits (request w o c ok err entries errors).command = true :=
  admits_issue w o c.command ok err entries errors

theorem admits_query {σ : Type} (w : World) (o : Outcome) (ok err : σ)
    (entries errors : List Entry) :
    w.admits (query o (.pure ok entries) (.pure err errors)).command = true := by
  unfold query
  split <;> rfl

theorem admits_process (cfg : Config) (w : World) (r : Reply) (b : Build) (pc : Pc) :
    w.admits (BuildWorker.processStep cfg w r b pc).command = true := by
  cases pc with
  | checkQueued | checkSettings | checkClone | checkBuild | checkDeploy =>
    rw [BuildWorker.processStep, BuildWorker.check]
    split <;> rfl
  | projectPending | markBuilding | recordImage | markDeploying | markReady | projectActive =>
    exact admits_request w _ _ _ _ _ _
  | getSettings | startStreaming => rfl
  | getToken | clone | build => exact admits_query w _ _ _ _ _
  | deploy stage =>
    rw [BuildWorker.processStep]
    split
    · exact admits_issue w _ _ _ _ _ _
    · rfl
  | stopPrevious =>
    rw [BuildWorker.processStep]
    split <;> rfl
  | supersede =>
    rw [BuildWorker.processStep]
    split
    · exact admits_request w _ _ _ _ _ _
    · rfl

theorem admits_worker (cfg : Config) (w : World) (r : Reply) (b : BuildWorker) :
    w.admits (b.step cfg w r).command = true := by
  cases b with
  | idle =>
    rw [BuildWorker.step]
    split
    · rfl
    · exact admits_issue w _ _ _ _ _ _
  | processing b pc => exact admits_process cfg w r b pc
  | cancelling job pc =>
    cases pc with
    | markCanceled | deleteResources | projectInactive => exact admits_request w _ _ _ _ _ _
    | stopStreaming | stopStreams => rfl
    | clearSignal => exact admits_issue w _ _ _ _ _ _
    | cleanup left =>
      cases left with
      | nil => rfl
      | cons => exact admits_issue w _ _ _ _ _ _
  | failing job pc =>
    cases pc with
    | markFailed => exact admits_request w _ _ _ _ _ _
    | stopStreams => rfl

theorem admits_sweep (w : World) (r : Reply) (c : CleanupWorker) :
    w.admits (c.step w r).command = true := by
  cases c with
  | idle => exact admits_query w _ _ _ _ _
  | fetching configs found => cases configs <;> exact admits_query w _ _ _ _ _
  | stopStreaming d rest => rfl
  | cleanup d left rest =>
    cases left with
    | nil => rfl
    | cons => exact admits_issue w _ _ _ _ _ _
  | markExpired | projectInactive => exact admits_request w _ _ _ _ _ _

theorem admits_projectCleanup (w : World) (r : Reply) (c : ProjectCleanupWorker) :
    w.admits (c.step w r).command = true := by
  cases c with
  | idle =>
    rw [ProjectCleanupWorker.step]
    split
    · rfl
    · exact admits_issue w _ _ _ _ _ _
  | stopStreaming job ids => cases ids <;> rfl
  | cleanup job left =>
    cases left with
    | nil => rfl
    | cons => exact admits_issue w _ _ _ _ _ _

theorem admits_domainWorker (w : World) (r : Reply) (c : DomainWorker) :
    w.admits (c.step w r).command = true := by
  cases c with
  | idle | getIngress => exact admits_query w _ _ _ _ _
  | verify => rfl
  | markPending | markError | markActive => exact admits_request w _ _ _ _ _ _
  | updateHosts => exact admits_issue w _ _ _ _ _ _

theorem admits_call (cfg : Config) (w : World) (r : Reply) (c : Call) :
    w.admits (c.step cfg w r).command = true := by
  cases c with
  | createDeployment c =>
    rw [Call.step, Turn.command_map]
    cases c with
    | getLatestCommit => rfl
    | insert | enqueue => exact admits_issue w _ _ _ _ _ _
    | _ => exact admits_query w _ _ _ _ _
  | cancel c =>
    rw [Call.step, Turn.command_map]
    cases c with
    | find => exact admits_query w _ _ _ _ _
    | update | publish => exact admits_issue w _ _ _ _ _ _
  | updateStatus c =>
    rw [Call.step, Turn.command_map]
    cases c with
    | find => exact admits_query w _ _ _ _ _
    | update => exact admits_issue w _ _ _ _ _ _
  | push c =>
    rw [Call.step, Turn.command_map]
    cases c with
    | findProjects payload =>
      rw [WebhooksService.Push.step]
      split
      · rfl
      · split
        · rfl
        · exact admits_query w _ _ _ _ _
    | findSystemConfig => exact admits_query w _ _ _ _ _
    | publish | markCanceled | insert | enqueue => exact admits_issue w _ _ _ _ _ _
  | createProject c =>
    rw [Call.step, Turn.command_map]
    cases c with
    | findExisting | findGitAccounts => exact admits_query w _ _ _ _ _
    | getLatestCommit | rollback => rfl
    | insert userId dto installationId commit =>
      rw [ProjectsService.Create.step]
      split
      · rename_i hadmits
        exact (Bool.and_eq_true _ _ ▸ hadmits).1
      · rfl
    | enqueue => exact admits_issue w _ _ _ _ _ _
    | commit =>
      rw [ProjectsService.Create.step]
      cases r.outcome <;> rfl
  | updateProject c =>
    rw [Call.step, Turn.command_map]
    cases c with
    | findOne => exact admits_query w _ _ _ _ _
    | update => exact admits_issue w _ _ _ _ _ _
  | removeProject c =>
    rw [Call.step, Turn.command_map]
    cases c with
    | findProject => exact admits_query w _ _ _ _ _
    | publish cleanup ids =>
      cases ids with
      | nil => rfl
      | cons => exact admits_issue w _ _ _ _ _ _
    | enqueue | delete => exact admits_issue w _ _ _ _ _ _
  | createDomain c =>
    rw [Call.step, Turn.command_map]
    cases c with
    | findProject | findExisting => exact admits_query w _ _ _ _ _
    | insert => exact admits_issue w _ _ _ _ _ _
  | removeDomain c =>
    rw [Call.step, Turn.command_map]
    cases c with
    | find => exact admits_query w _ _ _ _ _
    | delete => exact admits_issue w _ _ _ _ _ _
  | late c => exact admits_issue w _ _ _ _ _ _

theorem State.admits_turn {t : Turn Processes} (ht : s.turn cfg e = some t) :
    s.world.admits t.command = true := by
  cases e with
  | tick | request | restart =>
    cases ht
    rfl
  | edit edit =>
    rw [turn] at ht
    split at ht
    · rename_i hadmits
      cases ht
      exact hadmits
    · cases ht
  | call i r =>
    rw [turn, Option.map_eq_some_iff] at ht
    obtain ⟨c, _, rfl⟩ := ht
    exact admits_call cfg s.world r c
  | worker r =>
    cases ht
    exact admits_worker cfg s.world r s.procs.worker
  | sweep r =>
    cases ht
    exact admits_sweep s.world r s.procs.sweep
  | projectCleanup r =>
    cases ht
    exact admits_projectCleanup s.world r s.procs.projectCleanup
  | domainWorker r =>
    cases ht
    exact admits_domainWorker s.world r s.procs.domainWorker

/-! ## Projects -/

def Command.renames (id : ProjectId) : Command → Option ProjectName
  | .updateProject id' dto => if id = id' then dto.name else none
  | _ => none

def Command.setsOnline (id : ProjectId) : Command → Option DomainDnsStatus
  | .setOnlineStatus id' status => if id = id' then some status else none
  | _ => none

structure Project.After (c : Command) (p p' : Project) : Prop where
  id : p'.id = p.id
  userId : p'.userId = p.userId
  name : p'.name = (c.renames p.id).getD p.name
  onlineStatus : p'.onlineStatus = (c.setsOnline p.id).getD p.onlineStatus

theorem Project.After.refl {c : Command} {p : Project} (hname : c.renames p.id = none)
    (honline : c.setsOnline p.id = none) : Project.After c p p :=
  ⟨rfl, rfl, by rw [hname]; rfl, by rw [honline]; rfl⟩

theorem Project.after_map {c : Command} {ps : List Project} {id : ProjectId}
    {f : Project → Project} {p' : Project}
    (h : p' ∈ ps.map fun p => if p.id = id then f p else p)
    (hf : ∀ p, p.id = id → Project.After c p (f p))
    (hne : ∀ p : Project, p.id ≠ id → c.renames p.id = none ∧ c.setsOnline p.id = none) :
    ∃ p ∈ ps, Project.After c p p' := by
  obtain ⟨p, hp, rfl⟩ := List.mem_map.mp h
  refine ⟨p, hp, ?_⟩
  split
  · rename_i hid
    exact hf p hid
  · rename_i hid
    exact .refl (hne p hid).1 (hne p hid).2

theorem World.mem_projects_exec {c : Command} {p' : Project}
    (h : p' ∈ (w.exec cfg c).db.projects) :
    p' ∈ c.projects ∨ ∃ p ∈ w.db.projects, Project.After c p p' := by
  have hold {c : Command} (h : p' ∈ w.db.projects) (hname : c.renames p'.id = none)
      (honline : c.setsOnline p'.id = none) :
      p' ∈ c.projects ∨ ∃ p ∈ w.db.projects, Project.After c p p' :=
    Or.inr ⟨p', h, .refl hname honline⟩
  rw [db_exec] at h
  cases c with
  | commitDraft draft =>
    rcases List.mem_append.mp h with h | h
    · exact hold h rfl rfl
    · exact Or.inl h
  | updateProject id dto =>
    refine Or.inr (Project.after_map h (fun p hid => ?_) fun p hid => ⟨if_neg hid, rfl⟩)
    exact ⟨rfl, rfl, by rw [Command.renames, if_pos hid]; rfl, rfl⟩
  | setOnlineStatus id status =>
    refine Or.inr (Project.after_map h (fun p hid => ?_) fun p hid => ⟨rfl, if_neg hid⟩)
    exact ⟨rfl, rfl, rfl, by rw [Command.setsOnline, if_pos hid]; rfl⟩
  | createRedeployment d =>
    exact Or.inr (Project.after_map h (fun p _ => ⟨rfl, rfl, rfl, rfl⟩) fun p _ => ⟨rfl, rfl⟩)
  | replaceEnvironmentVariables id rows =>
    exact Or.inr (Project.after_map h (fun p _ => ⟨rfl, rfl, rfl, rfl⟩) fun p _ => ⟨rfl, rfl⟩)
  | deleteProject id => exact hold (List.mem_filter.mp h).1 rfl rfl
  | _ => exact hold h rfl rfl

/-! ## Rows -/

theorem mem_projects {c : Command} {p : Project} :
    p ∈ c.projects ↔ ∃ draft, c = .commitDraft draft ∧ p = draft.project := by
  cases c with
  | commitDraft => simp [Command.projects]
  | _ => simp [Command.projects]

theorem mem_inserted {c : Command} {d : Deployment} : d ∈ c.inserted ↔
    c = .createDeployment d ∨ c = .createRedeployment d ∨
      ∃ draft, c = .commitDraft draft ∧ draft.deployment = d := by
  cases c with
  | createDeployment | createRedeployment | commitDraft => simp [Command.inserted, eq_comm]
  | _ => simp [Command.inserted]

end System
end Code2Cloud
