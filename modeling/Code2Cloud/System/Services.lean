import Code2Cloud.Api.Settings
import Code2Cloud.Base.Trim
import Code2Cloud.System.World

/-!
# The API's requests

The methods of the API's services that write, as processes: a state for each awaited
call, holding what the method has read so far.
-/

namespace Code2Cloud
namespace System

open Api Worker

/-- What a step of a method leads to: the next call, or the end of the method. -/
inductive Flow (σ : Type)
  | next (s : σ)
  | done
  | throw (e : HttpException)

/-! ## Loaded projects and their jobs -/

/-- A project with the variables and domains loaded along with it. -/
structure Loaded where
  project : Project
  envVars : List EnvironmentVariable
  domains : List String

def load (db : Database) (p : Project) : Loaded :=
  { project := p
    envVars := db.environmentVariablesOf p.id
    domains := (db.domainsOf p.id).map (·.name) }

/-- `project.installCommand || undefined` and so on: the worker decodes an absent
text as an empty one. -/
def buildConfigOf (p : Project) : BuildConfig :=
  { installCommand := p.installCommand.getD ""
    buildCommand := p.buildCommand.getD ""
    runCommand := p.runCommand.getD ""
    outputDir := p.outputDirectory.getD ""
    framework := p.framework }

/-- The variable a Python project adds. -/
def pythonVersionEnv (p : Project) : EnvMap :=
  match p.pythonVersion with
  | some version => if version.isEmpty then [] else [("RAILPACK_PYTHON_VERSION", version)]
  | none => []

/-- `Number(installationId)` -/
def numberOf (s : String) : Number := .ofTrimmed (trim SettingsService.isTrimmed s.toList)

/-- Assignments to the properties of a plain object: one to `__proto__` leaves it as it is. -/
def assigned (kvs : EnvMap) : EnvMap := kvs.filter fun kv => kv.1 != "__proto__"

theorem mem_assigned {kvs : EnvMap} {kv : String × String} :
    kv ∈ assigned kvs ↔ kv ∈ kvs ∧ kv.1 ≠ "__proto__" := by
  rw [assigned, List.mem_filter, bne_iff_ne]

theorem nodup_assigned {kvs : EnvMap} (h : (kvs.map (·.1)).Nodup) :
    ((assigned kvs).map (·.1)).Nodup :=
  h.sublist (List.filter_sublist.map _)

/-- `installationId`, unless it is absent or empty. -/
def installed (a : GitAccount) : Option String := a.installationId.filter fun id => !id.isEmpty

/-- The account of the repository's owner, otherwise the first one. -/
def matchingAccount (accounts : List GitAccount) (owner : String) : Option GitAccount :=
  (accounts.find? fun a => a.username == owner) <|> accounts.head?

/-- `GithubAppService.getLatestCommit`: a failure is answered with a placeholder. -/
def latestCommit (r : Reply) : CommitData :=
  if r.outcome = .ok then r.commitData
  else { sha := "HEAD", message := "Initial deployment", author := "System" }

/-! ## DeploymentsService -/

namespace DeploymentsService

inductive Create
  | findProject (userId : UserId) (projectId : ProjectId)
  | findGitAccounts (userId : UserId) (project : Loaded)
  | findLatest (userId : UserId) (project : Loaded) (accounts : List GitAccount)
  | getLatestCommit (userId : UserId) (project : Loaded) (installationId : String)
  | insert (userId : UserId) (project : Loaded) (installationId : String) (commit : CommitData)
  | enqueue (job : BuildJob)

/-- The variables with the production target; one that does not decrypt is left out. -/
def jobEnvVars (e : EncryptionService) (l : Loaded) : EnvMap :=
  let production := l.envVars.filter fun v => v.targets.contains .production
  let decrypted := production.filterMap fun v =>
    match e.decrypt v.value with
    | .ok value => some (v.key, value)
    | .error _ => none
  EnvMap.merge [assigned decrypted, pythonVersionEnv l.project]

def job (e : EncryptionService) (l : Loaded) (installationId : String) (commit : CommitData)
    (deploymentId : DeploymentId) : BuildJob :=
  { deploymentId
    projectId := l.project.id
    projectName := l.project.name
    gitUrl := "https://github.com/" ++ l.project.gitRepoOwner ++ "/" ++ l.project.gitRepoName
      ++ ".git"
    installationId := numberOf installationId
    branch := l.project.gitBranch
    commitHash := commit.sha
    rootDirectory := l.project.rootDirectory
    buildConfig := buildConfigOf l.project
    domains := l.domains
    envVars := jobEnvVars e l
    previousDeploymentId := none }

def row (w : World) (userId : UserId) (l : Loaded) (commit : CommitData) : Deployment :=
  { id := w.db.nextId
    commitHash := commit.sha
    commitMessage := commit.message
    commitAuthor := commit.author
    branch := l.project.gitBranch
    deploymentUrl := l.domains.head?
    deploymentRegion := ProjectsService.regionOf (w.db.systemConfigOf userId)
    startedAt := w.now
    projectId := l.project.id
    initiatorId := some userId }

def Create.step (cfg : Config) (w : World) (r : Reply) : Create → Turn (Flow Create)
  | .findProject userId projectId =>
    query r.outcome
      (.pure <| match w.db.findOwnedProject projectId userId with
        | none => .throw (.notFound "Project not found")
        | some p => .next (.findGitAccounts userId (load w.db p)))
      (.pure (.throw .internal))
  | .findGitAccounts userId project =>
    query r.outcome
      (.pure <| match w.db.gitAccountsOf userId with
        | [] => .throw (.badRequest "No linked GitHub accounts found.")
        | a :: as => .next (.findLatest userId project (a :: as)))
      (.pure (.throw .internal))
  | .findLatest userId project accounts =>
    query r.outcome
      (.pure <|
        if (Database.latest (w.db.deploymentsOf project.project.id)).any
            fun d => d.status.inProgress then
          .throw (.badRequest "A deployment is already in progress for this project.")
        else
          match (matchingAccount accounts project.project.gitRepoOwner).bind installed with
          | none => .throw (.badRequest "Selected GitHub account is not installed.")
          | some installationId => .next (.getLatestCommit userId project installationId))
      (.pure (.throw .internal))
  | .getLatestCommit userId project installationId =>
    .pure (.next (.insert userId project installationId (latestCommit r)))
  | .insert userId project installationId commit =>
    let d := row w userId project commit
    issue w r.outcome (.createRedeployment d)
      (.next (.enqueue (job cfg.encryption project installationId commit d.id)))
      (.throw .internal)
  | .enqueue job => issue w r.outcome (.addBuildJob job) .done (.throw .internal)

inductive Cancel
  | find (userId : UserId) (id : DeploymentId)
  | update (id : DeploymentId)
  | publish (id : DeploymentId)

def Cancel.step (w : World) (r : Reply) : Cancel → Turn (Flow Cancel)
  | .find userId id =>
    query r.outcome
      (.pure <| match w.db.findOwnedDeployment id userId with
        | none => .throw (.notFound "Deployment not found")
        | some d =>
          -- only in-progress deployments can be cancelled
          if d.status.inProgress then .next (.update id)
          else
            .throw (.badRequest ("Deployment cannot be cancelled in status: " ++ d.status.text)))
      (.pure (.throw .internal))
  | .update id =>
    issue w r.outcome (.writeStatus id .cancel) (.next (.publish id)) (.throw .internal)
  | .publish id =>
    issue w r.outcome (.publishCancelSignal id) .done (.throw .internal) [.acknowledged id]

inductive UpdateStatus
  | find (userId : UserId) (id : DeploymentId) (status : DeploymentStatus)
  | update (id : DeploymentId) (status : DeploymentStatus)

def UpdateStatus.step (w : World) (r : Reply) : UpdateStatus → Turn (Flow UpdateStatus)
  | .find userId id status =>
    query r.outcome
      (.pure <| match w.db.findOwnedDeployment id userId with
        | none => .throw (.notFound "Deployment not found")
        | some _ => .next (.update id status))
      (.pure (.throw .internal))
  | .update id status =>
    issue w r.outcome (.writeStatus id (.updateStatus status)) .done (.throw .internal)

end DeploymentsService

/-! ## WebhooksService -/

namespace WebhooksService

/-- `text.replace(pattern, "")`: the first occurrence goes. -/
def removeFirst (pattern : List Char) : List Char → List Char
  | [] => []
  | c :: text =>
    if pattern.isPrefixOf (c :: text) then (c :: text).drop pattern.length
    else c :: removeFirst pattern text

/-- `payload.ref.replace("refs/heads/", "")` -/
def branchOf (ref : String) : String :=
  String.ofList (removeFirst "refs/heads/".toList ref.toList)

structure TriggerOptions where
  branch : String
  commitHash : String
  installationId : Nat
  commitMessage : String
  commitAuthor : String

/-- A project the push concerns, with its latest active deployment. -/
structure Candidate where
  loaded : Loaded
  current : Option (DeploymentId × DeploymentStatus)

def candidate (db : Database) (p : Project) : Candidate :=
  let active := (db.deploymentsOf p.id).filter fun d => d.status.active
  { loaded := load db p
    current := (Database.latest active).map fun d => (d.id, d.status) }

def candidates (db : Database) (payload : PushEventPayload) : List Candidate :=
  (db.projects.filter fun p =>
    p.gitRepoOwner == payload.repositoryOwner && p.gitRepoName == payload.repositoryName &&
      p.gitBranch == branchOf payload.ref).map (candidate db)

/-- `payload.installation?.id`, which must be there and not be 0. -/
def installationOf (payload : PushEventPayload) : Option Nat :=
  payload.installationId.filter fun id => id != 0

def optionsOf (payload : PushEventPayload) (installationId : Nat) : TriggerOptions :=
  { branch := branchOf payload.ref
    commitHash := payload.after
    installationId
    commitMessage := payload.headMessage.getD ""
    commitAuthor := match payload.headAuthor with
      | some name => if name.isEmpty then payload.sender else name
      | none => payload.sender }

/-- Every variable decrypted; a failure is an error of the whole trigger. -/
def jobEnvVars (e : EncryptionService) (l : Loaded) : Option EnvMap :=
  match EnvironmentVariables.decryptAll e l.envVars with
  | .error _ => none
  | .ok vs =>
    some (EnvMap.merge [assigned (vs.map fun v => (v.key, v.value)), pythonVersionEnv l.project])

def job (opts : TriggerOptions) (l : Loaded) (envVars : EnvMap) (previous : Option DeploymentId)
    (deploymentId : DeploymentId) : BuildJob :=
  { deploymentId
    projectId := l.project.id
    projectName := l.project.name
    gitUrl := l.project.gitCloneUrl
    installationId := .ofNat opts.installationId
    branch := opts.branch
    commitHash := opts.commitHash
    rootDirectory := l.project.rootDirectory
    buildConfig := buildConfigOf l.project
    domains := l.domains
    envVars
    previousDeploymentId := previous }

def row (w : World) (opts : TriggerOptions) (l : Loaded) (region : String) : Deployment :=
  { id := w.db.nextId
    commitHash := opts.commitHash
    commitMessage := opts.commitMessage
    commitAuthor := opts.commitAuthor
    branch := opts.branch
    deploymentUrl := l.domains.head?
    deploymentRegion := region
    startedAt := w.now
    projectId := l.project.id
    initiatorId := some l.project.userId
    trigger := .webhook }

/-- `handlePushEvent` with the call of `triggerDeployment` it is in; `rest` are the
projects still to come. -/
inductive Push
  | findProjects (payload : PushEventPayload)
  | publish (opts : TriggerOptions) (l : Loaded) (id : DeploymentId) (rest : List Candidate)
  | markCanceled (opts : TriggerOptions) (l : Loaded) (id : DeploymentId) (rest : List Candidate)
  | findSystemConfig (opts : TriggerOptions) (l : Loaded) (envVars : EnvMap)
      (previous : Option DeploymentId) (rest : List Candidate)
  | insert (opts : TriggerOptions) (l : Loaded) (envVars : EnvMap)
      (previous : Option DeploymentId) (region : String) (rest : List Candidate)
  | enqueue (opts : TriggerOptions) (job : BuildJob) (rest : List Candidate)

namespace Push

variable (e : EncryptionService) (opts : TriggerOptions)

/-- The loop over the projects, up to its next call.  An error inside
`triggerDeployment` is caught and the loop goes on. -/
def loop : List Candidate → Flow Push
  | [] => .done
  | c :: rest =>
    if c.loaded.project.autoDeploy then
      match c.current with
      | some (id, status) =>
        if status.inProgress then .next (.publish opts c.loaded id rest)
        else
          match jobEnvVars e c.loaded with
          | none => loop rest
          | some envVars =>
            .next (.findSystemConfig opts c.loaded envVars
              (if status = .ready then some id else none) rest)
      | none =>
        match jobEnvVars e c.loaded with
        | none => loop rest
        | some envVars => .next (.findSystemConfig opts c.loaded envVars none rest)
    else loop rest

/-- After a cancellation: decrypt, then go on with `triggerDeployment`. -/
def afterCancel (l : Loaded) (rest : List Candidate) : Flow Push :=
  match jobEnvVars e l with
  | none => loop e opts rest
  | some envVars => .next (.findSystemConfig opts l envVars none rest)

end Push

def Push.step (cfg : Config) (w : World) (r : Reply) : Push → Turn (Flow Push)
  | .findProjects payload =>
    if payload.deleted then .pure .done
    else
      match installationOf payload with
      | none => .pure .done
      | some installationId =>
        query r.outcome
          (.pure (loop cfg.encryption (optionsOf payload installationId)
            (candidates w.db payload)))
          (.pure (.throw .internal))
  | .publish opts l id rest =>
    issue w r.outcome (.publishCancelSignal id) (.next (.markCanceled opts l id rest))
      (loop cfg.encryption opts rest)
  | .markCanceled opts l id rest =>
    issue w r.outcome (.writeStatus id .webhookCancel) (afterCancel cfg.encryption opts l rest)
      (loop cfg.encryption opts rest) [.acknowledged id]
  | .findSystemConfig opts l envVars previous rest =>
    query r.outcome
      (.pure (.next (.insert opts l envVars previous
        (ProjectsService.regionOf (w.db.systemConfigOf l.project.userId)) rest)))
      (.pure (loop cfg.encryption opts rest))
  | .insert opts l envVars previous region rest =>
    let d := row w opts l region
    issue w r.outcome (.createDeployment d)
      (.next (.enqueue opts (job opts l envVars previous d.id) rest))
      (loop cfg.encryption opts rest)
  | .enqueue opts job rest =>
    issue w r.outcome (.addBuildJob job) (loop cfg.encryption opts rest)
      (loop cfg.encryption opts rest)

end WebhooksService

/-! ## ProjectsService -/

namespace ProjectsService

inductive Create
  | findExisting (userId : UserId) (dto : CreateProjectDto)
  | findGitAccounts (userId : UserId) (dto : CreateProjectDto)
  | getLatestCommit (userId : UserId) (dto : CreateProjectDto) (installationId : String)
  /-- The transaction up to its call of `addBuildJob`. -/
  | insert (userId : UserId) (dto : CreateProjectDto) (installationId : String)
      (commit : CommitData)
  | enqueue (draft : Draft) (job : BuildJob)
  | commit (draft : Draft)
  | rollback (draft : Draft)

/-- The first build of a project. -/
def job (dto : CreateProjectDto) (installationId : String) (d : Draft) : BuildJob :=
  { deploymentId := d.deployment.id
    projectId := d.project.id
    projectName := d.project.name
    gitUrl := dto.gitCloneUrl
    installationId := numberOf installationId
    branch := d.project.gitBranch
    commitHash := d.deployment.commitHash
    rootDirectory := d.project.rootDirectory
    buildConfig := buildConfigOf d.project
    domains := [d.domain.name]
    envVars := EnvMap.merge [dto.envVars, pythonVersionEnv d.project]
    previousDeploymentId := none }

def Create.step (cfg : Config) (w : World) (r : Reply) : Create → Turn (Flow Create)
  | .findExisting userId dto =>
    query r.outcome
      (.pure <| if w.db.projects.any fun p => p.name == dto.name then
          .throw (.badRequest "Project name is already taken. Please choose another.")
        else .next (.findGitAccounts userId dto))
      (.pure (.throw .internal))
  | .findGitAccounts userId dto =>
    query r.outcome
      (.pure <| match w.db.gitAccountsOf userId with
        | [] => .throw (.badRequest "No linked GitHub accounts found.")
        | a :: as =>
          match (matchingAccount (a :: as) dto.gitRepoOwner).bind installed with
          | none => .throw (.badRequest "Selected GitHub account is not installed.")
          | some installationId => .next (.getLatestCommit userId dto installationId))
      (.pure (.throw .internal))
  | .getLatestCommit userId dto installationId =>
    .pure (.next (.insert userId dto installationId (latestCommit r)))
  | .insert userId dto installationId commitData =>
    let d := ProjectsService.draft cfg.encryption cfg.deployDomain r.hash r.ivs w.now w.db userId
      dto commitData
    if w.admits (.openDraft d) && r.outcome == .ok then
      { command := .openDraft d, next := .next (.enqueue d (job dto installationId d)) }
    else .pure (.throw .internal)
  | .enqueue draft job =>
    issue w r.outcome (.addBuildJob job) (.next (.commit draft)) (.next (.rollback draft))
  | .commit draft =>
    match r.outcome with
    | .ok => { command := .commitDraft draft, next := .done }
    | .lost => { command := .commitDraft draft, next := .throw .internal }
    | .fail | .late => { command := .rollbackDraft draft.project.id, next := .throw .internal }
  | .rollback draft => { command := .rollbackDraft draft.project.id, next := .throw .internal }

inductive Update
  | findOne (id : ProjectId) (userId : UserId) (dto : UpdateProjectDto)
  | update (id : ProjectId) (dto : UpdateProjectDto)

def Update.step (w : World) (r : Reply) : Update → Turn (Flow Update)
  | .findOne id userId dto =>
    query r.outcome
      (.pure <| match w.db.findOwnedProject id userId with
        | none => .throw (.notFound "Project not found")
        | some _ => .next (.update id dto))
      (.pure (.throw .internal))
  | .update id dto => issue w r.outcome (.updateProject id dto) .done (.throw .internal)

inductive Remove
  | findProject (id : ProjectId) (userId : UserId)
  | publish (cleanup : ProjectCleanupJob) (ids : List DeploymentId)
  | enqueue (cleanup : ProjectCleanupJob)
  | delete (id : ProjectId)

/-- After the cancel signals: a project with active deployments is cleaned up. -/
def Remove.afterPublish (cleanup : ProjectCleanupJob) : Remove :=
  if cleanup.activeDeploymentIds.isEmpty then .delete cleanup.projectId else .enqueue cleanup

def Remove.step (w : World) (r : Reply) : Remove → Turn (Flow Remove)
  | .findProject id userId =>
    query r.outcome
      (.pure <| match w.db.findOwnedProject id userId with
        | none => .throw (.notFound "Project not found")
        | some p =>
          let active := (w.db.deploymentsOf p.id).filter fun d => d.status.active
          let cleanup : ProjectCleanupJob :=
            { projectId := p.id, projectName := p.name, activeDeploymentIds := active.map (·.id) }
          match active.filter fun d => d.status.inProgress with
          | [] => .next (afterPublish cleanup)
          | d :: ds => .next (.publish cleanup ((d :: ds).map (·.id))))
      (.pure (.throw .internal))
  | .publish cleanup ids =>
    match ids with
    | [] => .pure (.next (afterPublish cleanup))
    | id :: ids =>
      issue w r.outcome (.publishCancelSignal id)
        (.next (if ids.isEmpty then afterPublish cleanup else .publish cleanup ids))
        (.throw .internal)
  | .enqueue cleanup =>
    -- a failure is logged and the deletion goes on
    issue w r.outcome (.addProjectCleanupJob cleanup) (.next (.delete cleanup.projectId))
      (.next (.delete cleanup.projectId))
  | .delete id => issue w r.outcome (.deleteProject id) .done (.throw .internal)

end ProjectsService

/-! ## DomainsService -/

namespace DomainsService

inductive Create
  | findProject (userId : UserId) (projectId : ProjectId) (domainName : DomainName)
  | findExisting (projectId : ProjectId) (domainName : DomainName)
  | insert (projectId : ProjectId) (domainName : DomainName)

def Create.step (w : World) (r : Reply) : Create → Turn (Flow Create)
  | .findProject userId projectId domainName =>
    query r.outcome
      (.pure <| match w.db.findOwnedProject projectId userId with
        | none => .throw (.notFound "Project not found")
        | some _ => .next (.findExisting projectId domainName))
      (.pure (.throw .internal))
  | .findExisting projectId domainName =>
    query r.outcome
      (.pure <| if w.db.domains.any fun d => d.name == domainName.val then
          .throw (.badRequest "Domain is already in use")
        else .next (.insert projectId domainName))
      (.pure (.throw .internal))
  | .insert projectId domainName =>
    issue w r.outcome
      (.createDomain { id := w.db.nextId, name := domainName.val, projectId, createdAt := w.now })
      .done (.throw .internal)

inductive Remove
  | find (userId : UserId) (id : DomainId)
  | delete (id : DomainId)

def Remove.step (w : World) (r : Reply) : Remove → Turn (Flow Remove)
  | .find userId id =>
    query r.outcome
      (.pure <| match w.db.findOwnedDomain id userId with
        | none => .throw (.notFound "Domain not found")
        | some _ => .next (.delete id))
      (.pure (.throw .internal))
  | .delete id => issue w r.outcome (.deleteDomain id) .done (.throw .internal)

end DomainsService

end System
end Code2Cloud
