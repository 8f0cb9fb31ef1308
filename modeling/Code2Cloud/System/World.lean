import Code2Cloud.Api.Projects
import Code2Cloud.System.Redis
import Code2Cloud.Worker.Deploy

/-!
# The world and its commands

Everything the processes share: the clock, the database, Redis, the cluster and the
worker's table of log streams.  A process acts on it one command at a time; a
command is one request to one store.
-/

namespace Code2Cloud
namespace System

open Api Worker

/-- How a request ended: done and reported, refused, done but reported as failed, or
reported as failed and done later. -/
inductive Outcome
  | ok | fail | lost | late
  deriving DecidableEq

/-- What the world answers to one step of a process. -/
structure Reply where
  outcome : Outcome := .ok
  /-- GitHub's branch head. -/
  commitData : CommitData := { sha := "", message := "", author := "" }
  /-- The head of a fresh clone. -/
  head : String := ""
  /-- The random suffix of a generated address. -/
  hash : String := ""
  /-- The nonces drawn for a list of variables. -/
  ivs : Nat → Iv := fun _ => zeroIv
  /-- The result of a DNS check, and its message where it failed. -/
  verified : Bool := true
  dnsError : String := ""

/-- How `processJob` returned. -/
inductive JobResult
  | completed | cancelled | failed
  deriving DecidableEq

/-- What happened, in order. -/
inductive Entry
  /-- The cancel signal of a deployment was set, at a time. -/
  | published (id : DeploymentId) (time : Nat)
  /-- A cancellation of a deployment returned to its caller. -/
  | acknowledged (id : DeploymentId)
  /-- The worker popped a deployment's job. -/
  | popped (id : DeploymentId)
  /-- The worker called `k8s.Deploy`. -/
  | deployCalled (id : DeploymentId)
  /-- The Deployment object of a project was written for a deployment. -/
  | applied (projectId : ProjectId) (id : DeploymentId)
  /-- `k8s.Deploy` returned without an error. -/
  | deployed (id : DeploymentId) (projectName : ProjectName)
  /-- `processJob` returned. -/
  | finished (id : DeploymentId) (result : JobResult)
  deriving DecidableEq

structure World where
  /-- Milliseconds. -/
  now : Nat
  db : Database
  redis : Redis
  cluster : Cluster
  /-- `activeStreams`: whether the context of an entry is live. -/
  streams : DeploymentId → Option Bool
  log : List Entry

structure Config where
  encryption : EncryptionService
  deployDomain : String
  baseDomain : GoString
  registryUrl : GoString

def Config.clear : Config where
  encryption := .clear
  deployDomain := "example.dev"
  baseDomain := utf8 "example.dev"
  registryUrl := utf8 "registry.example.dev"

inductive Command
  | skip
  | tick (milliseconds : Nat)
  -- the database
  | openDraft (draft : Draft)
  | commitDraft (draft : Draft)
  | rollbackDraft (id : ProjectId)
  | createDeployment (d : Deployment)
  /-- With the transaction of `DeploymentsService.create`. -/
  | createRedeployment (d : Deployment)
  | writeStatus (id : DeploymentId) (w : StatusWrite)
  | updateProject (id : ProjectId) (dto : UpdateProjectDto)
  | setOnlineStatus (id : ProjectId) (status : DomainDnsStatus)
  | deleteProject (id : ProjectId)
  | createDomain (d : Domain)
  | deleteDomain (id : DomainId)
  | updateDomainStatus (id : DomainId) (status : DomainDnsStatus) (error : Option String)
  -- Redis
  | addBuildJob (job : BuildJob)
  | popBuildJob
  | addProjectCleanupJob (job : ProjectCleanupJob)
  | popProjectCleanup
  | publishCancelSignal (id : DeploymentId)
  | clearCancelSignal (id : DeploymentId)
  -- the cluster
  | apply (o : Object)
  | delete (kind : Kind) (name : GoString)
  | updateIngressHosts (name : GoString) (hosts : List GoString)
  -- log streams
  | startStreaming (id : DeploymentId) (live : Bool)
  | stopStreaming (id : DeploymentId)
  | stopAll
  -- the users' other edits, and rows changing places in a table
  | replaceEnvironmentVariables (id : ProjectId) (rows : List EnvironmentVariable)
  | setGitAccounts (accounts : List GitAccount)
  | setSystemConfigs (configs : List SystemConfig)
  | shuffleDeployments (rows : List Deployment)

/-- The worker's requests to the API that write. -/
inductive InternalRequest
  | writeStatus (id : DeploymentId) (w : StatusWrite)
  | setOnlineStatus (id : ProjectId) (status : DomainDnsStatus)
  | updateDomainStatus (id : DomainId) (status : DomainDnsStatus) (error : Option String)

def InternalRequest.command : InternalRequest → Command
  | writeStatus id w => .writeStatus id w
  | setOnlineStatus id status => .setOnlineStatus id status
  | updateDomainStatus id status error => .updateDomainStatus id status error

/-- `ProjectsService.update`: the fields present in the dto. -/
def applyUpdate (now : Nat) (dto : UpdateProjectDto) (p : Project) : Project :=
  { p with
    name := dto.name.getD p.name
    gitRepoName := dto.gitRepoName.getD p.gitRepoName
    gitRepoOwner := dto.gitRepoOwner.getD p.gitRepoOwner
    gitBranch := dto.gitBranch.getD p.gitBranch
    gitCloneUrl := dto.gitCloneUrl.getD p.gitCloneUrl
    framework := dto.framework.getD p.framework
    rootDirectory := dto.rootDirectory.getD p.rootDirectory
    installCommand := dto.installCommand <|> p.installCommand
    buildCommand := dto.buildCommand <|> p.buildCommand
    runCommand := dto.runCommand <|> p.runCommand
    outputDirectory := dto.outputDirectory <|> p.outputDirectory
    pythonVersion := dto.pythonVersion <|> p.pythonVersion
    autoDeploy := dto.autoDeploy.getD p.autoDeploy
    updatedAt := now }

/-- `updateDomainStatus`: an error that is sent replaces the stored one, and an empty
one clears it. -/
def applyDomainStatus (status : DomainDnsStatus) (error : Option String) (d : Domain) : Domain :=
  { d with
    status
    error := match error with
      | some text => if text.isEmpty then none else some text
      | none => d.error }

namespace World

/-- The store accepts the command: the row it names exists and no committed row has
its unique key. -/
def admits (w : World) : Command → Bool
  | .openDraft draft => w.db.admitsDraft draft
  | .createDeployment d | .createRedeployment d => (w.db.findProject d.projectId).isSome
  | .writeStatus id _ => (w.db.findDeployment id).isSome
  | .updateProject id dto =>
    (w.db.findProject id).isSome &&
      dto.name.all fun name => w.db.projects.all fun p => p.name != name || p.id == id
  | .setOnlineStatus id _ => (w.db.findProject id).isSome
  | .deleteProject id => (w.db.findProject id).isSome
  | .createDomain d =>
    (w.db.findProject d.projectId).isSome && w.db.domains.all fun e => e.name != d.name
  | .deleteDomain id | .updateDomainStatus id _ _ => (w.db.findDomain id).isSome
  | .updateIngressHosts name _ => (w.cluster.ingresses name).isSome
  | .shuffleDeployments rows => decide (rows.Perm w.db.deployments)
  | .replaceEnvironmentVariables id rows => rows.all fun v => v.projectId == id
  | _ => true

/-- The command waits for an open transaction that holds its unique key. -/
def blocks (w : World) : Command → Bool
  | .openDraft draft =>
    w.db.holdsProjectName draft.project.name || w.db.holdsDomainName draft.domain.name
  | .updateProject _ dto => dto.name.any w.db.holdsProjectName
  | .createDomain d => w.db.holdsDomainName d.name
  | _ => false

def exec (cfg : Config) (w : World) : Command → World
  | .skip => w
  | .tick milliseconds => { w with now := w.now + milliseconds }
  | .openDraft draft => { w with db := w.db.openDraft draft }
  | .commitDraft draft =>
    { w with db := (w.db.closeDraft draft.project.id).insertDraft draft }
  | .rollbackDraft id => { w with db := w.db.closeDraft id }
  | .createDeployment d => { w with db := w.db.createDeployment d }
  | .createRedeployment d =>
    { w with
      db := (w.db.createDeployment d).updateProject d.projectId
        fun p => { p with configChanged := false, updatedAt := w.now } }
  | .writeStatus id s => { w with db := w.db.updateDeployment id fun d => s.apply w.now d }
  | .updateProject id dto => { w with db := w.db.updateProject id (applyUpdate w.now dto) }
  | .setOnlineStatus id status =>
    { w with
      db := w.db.updateProject id fun p => { p with onlineStatus := status, updatedAt := w.now } }
  | .deleteProject id => { w with db := w.db.deleteProject id }
  | .createDomain d => { w with db := w.db.createDomain d }
  | .deleteDomain id => { w with db := w.db.deleteDomain id }
  | .updateDomainStatus id status error =>
    { w with db := w.db.updateDomain id (applyDomainStatus status error) }
  | .addBuildJob job => { w with redis.toQueues := w.redis.toQueues.addBuildJob job }
  | .popBuildJob =>
    match w.redis.toQueues.waitForJob with
    | none => w
    | some (job, queues) =>
      { w with redis.toQueues := queues, log := w.log ++ [.popped job.deploymentId] }
  | .addProjectCleanupJob job =>
    { w with redis.toQueues := w.redis.toQueues.addProjectCleanupJob job }
  | .popProjectCleanup =>
    match w.redis.toQueues.popProjectCleanup with
    | none => w
    | some (_, queues) => { w with redis.toQueues := queues }
  | .publishCancelSignal id =>
    { w with
      redis := w.redis.publishCancelSignal w.now id
      log := w.log ++ [.published id w.now] }
  | .clearCancelSignal id => { w with redis := w.redis.clearCancelSignal id }
  | .apply o =>
    { w with
      cluster := w.cluster.apply o
      log := match o with
        | .deployment _ d => w.log ++ [.applied d.projectId d.deploymentId]
        | _ => w.log }
  | .delete kind name => { w with cluster := w.cluster.delete kind name }
  | .updateIngressHosts name hosts =>
    match w.cluster.ingresses name with
    | none => w
    | some ingress =>
      { w with
        cluster := w.cluster.apply
          (.ingress name (Client.updateIngressHosts cfg.baseDomain name hosts ingress)) }
  | .startStreaming id live =>
    { w with streams := fun d => if d = id then some live else w.streams d }
  | .stopStreaming id => { w with streams := fun d => if d = id then none else w.streams d }
  | .stopAll => { w with streams := fun _ => none }
  | .replaceEnvironmentVariables id rows =>
    { w with
      db := (w.db.replaceEnvironmentVariables id rows).updateProject id
        fun p => { p with configChanged := true, updatedAt := w.now } }
  | .setGitAccounts accounts => { w with db.gitAccounts := accounts }
  | .setSystemConfigs configs => { w with db.systemConfigs := configs }
  | .shuffleDeployments rows => { w with db.deployments := rows }

def record (w : World) (entries : List Entry) : World := { w with log := w.log ++ entries }

@[simp] theorem record_now (w : World) (entries : List Entry) :
    (w.record entries).now = w.now := rfl
@[simp] theorem record_db (w : World) (entries : List Entry) : (w.record entries).db = w.db := rfl
@[simp] theorem record_redis (w : World) (entries : List Entry) :
    (w.record entries).redis = w.redis := rfl
@[simp] theorem record_cluster (w : World) (entries : List Entry) :
    (w.record entries).cluster = w.cluster := rfl
@[simp] theorem record_log (w : World) (entries : List Entry) :
    (w.record entries).log = w.log ++ entries := rfl

def empty : World where
  now := 0
  db := Database.empty
  redis := Redis.empty
  cluster := Cluster.empty
  streams := fun _ => none
  log := []

end World

/-! ## Tables -/

def Command.change (now : Nat) (db : Database) : Command → Database
  | .openDraft draft => db.openDraft draft
  | .commitDraft draft => (db.closeDraft draft.project.id).insertDraft draft
  | .rollbackDraft id => db.closeDraft id
  | .createDeployment d => db.createDeployment d
  | .createRedeployment d =>
    (db.createDeployment d).updateProject d.projectId
      fun p => { p with configChanged := false, updatedAt := now }
  | .writeStatus id s => db.updateDeployment id fun d => s.apply now d
  | .updateProject id dto => db.updateProject id (applyUpdate now dto)
  | .setOnlineStatus id status =>
    db.updateProject id fun p => { p with onlineStatus := status, updatedAt := now }
  | .deleteProject id => db.deleteProject id
  | .createDomain d => db.createDomain d
  | .deleteDomain id => db.deleteDomain id
  | .updateDomainStatus id status error => db.updateDomain id (applyDomainStatus status error)
  | .replaceEnvironmentVariables id rows =>
    (db.replaceEnvironmentVariables id rows).updateProject id
      fun p => { p with configChanged := true, updatedAt := now }
  | .setGitAccounts gitAccounts => { db with gitAccounts }
  | .setSystemConfigs systemConfigs => { db with systemConfigs }
  | .shuffleDeployments deployments => { db with deployments }
  | _ => db

theorem World.db_exec (cfg : Config) (w : World) (c : Command) :
    (w.exec cfg c).db = c.change w.now w.db := by
  cases c with
  | popBuildJob =>
    rw [exec]
    cases w.redis.toQueues.waitForJob <;> rfl
  | popProjectCleanup =>
    rw [exec]
    cases w.redis.toQueues.popProjectCleanup <;> rfl
  | updateIngressHosts name hosts =>
    rw [exec]
    cases w.cluster.ingresses name <;> rfl
  | _ => rfl

/-! ## Turns -/

/-- One step of a process: the command it issues, what becomes of the process, and
what it reports. -/
structure Turn (σ : Type) where
  command : Command
  next : σ
  entries : List Entry := []
  /-- A request the process gave up on that will still be executed. -/
  deferred : List InternalRequest := []

namespace Turn

/-- Read, or compute, without a request that changes anything. -/
def pure {σ : Type} (next : σ) (entries : List Entry := []) : Turn σ :=
  { command := .skip, next, entries }

end Turn

/-- Issue a command.  The caller continues with `ok` if the store accepted it and said
so, and with `err` otherwise; it reports `entries` in the first case and `errors` in
the second. -/
def issue {σ : Type} (w : World) (o : Outcome) (c : Command) (ok err : σ)
    (entries : List Entry := []) (errors : List Entry := []) : Turn σ :=
  if w.admits c then
    match o with
    | .ok => { command := c, next := ok, entries }
    | .lost => { command := c, next := err, entries := errors }
    | .fail | .late => { command := .skip, next := err, entries := errors }
  else { command := .skip, next := err, entries := errors }

/-- Issue a request to the API.  One that the worker gave up on may still be executed. -/
def request {σ : Type} (w : World) (o : Outcome) (c : InternalRequest) (ok err : σ)
    (entries : List Entry := []) (errors : List Entry := []) : Turn σ :=
  { issue w o c.command ok err entries errors with deferred := if o = .late then [c] else [] }

theorem next_issue {σ : Type} (w : World) (o : Outcome) (c : Command) (ok err : σ)
    (entries errors : List Entry) :
    (issue w o c ok err entries errors).next = ok ∨
      (issue w o c ok err entries errors).next = err := by
  unfold issue
  split
  · cases o <;> simp
  · exact Or.inr rfl

theorem command_issue {σ : Type} (w : World) (o : Outcome) (c : Command) (ok err : σ)
    (entries errors : List Entry) :
    (issue w o c ok err entries errors).command = c ∨
      (issue w o c ok err entries errors).command = .skip := by
  unfold issue
  split
  · cases o <;> simp
  · exact Or.inr rfl

theorem next_issue_ok {σ : Type} {w : World} {c : Command} {ok err : σ}
    {entries errors : List Entry}
    (h : (issue w .ok c ok err entries errors).command ≠ .skip) :
    (issue w .ok c ok err entries errors).next = ok := by
  unfold issue at h ⊢
  split at h
  · rename_i hadmits
    rw [if_pos hadmits]
  · exact absurd rfl h

theorem command_request {σ : Type} (w : World) (o : Outcome) (c : InternalRequest) (ok err : σ)
    (entries errors : List Entry) :
    (request w o c ok err entries errors).command = c.command ∨
      (request w o c ok err entries errors).command = .skip :=
  command_issue w o c.command ok err entries errors

/-- Ask for something that changes nothing. -/
def query {σ : Type} (o : Outcome) (ok err : Turn σ) : Turn σ :=
  if o = .ok then ok else err

end System
end Code2Cloud
