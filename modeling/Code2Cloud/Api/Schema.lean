import Code2Cloud.Base.Number

/-!
# Database schema

The rows of the API's database that the deployment pipeline reads or writes, with
their enumerations and the payloads the API puts on its queues.  Identifiers are
numbers: only their equality matters.
-/

namespace Code2Cloud
namespace Api

abbrev UserId := Nat
abbrev ProjectId := Nat
abbrev DeploymentId := Nat
abbrev DomainId := Nat

inductive DeploymentStatus
  | queued | building | deploying | ready | failed | canceled | expired | superseded
  deriving DecidableEq

inductive EnvironmentType
  | production | preview | development
  deriving DecidableEq

inductive DomainDnsStatus
  | active | inactive | pending | verifying | error
  deriving DecidableEq

inductive DeploymentTrigger
  | manual | webhook | rollback
  deriving DecidableEq

namespace DeploymentStatus

/-- `["QUEUED", "BUILDING", "DEPLOYING"].includes(status)` -/
def inProgress : DeploymentStatus → Bool
  | queued | building | deploying => true
  | _ => false

/-- The status as the database and the messages spell it. -/
def text : DeploymentStatus → String
  | queued => "QUEUED"
  | building => "BUILDING"
  | deploying => "DEPLOYING"
  | ready => "READY"
  | failed => "FAILED"
  | canceled => "CANCELED"
  | expired => "EXPIRED"
  | superseded => "SUPERSEDED"

/-- The statuses the webhook and `ProjectsService.remove` treat as active. -/
def active (st : DeploymentStatus) : Bool := st.inProgress || st == ready

end DeploymentStatus

/-! ## Checked strings -/

/-- `BaseProjectDto.name`: `/^[a-zA-Z0-9-]+$/`. -/
def acceptsProjectName (s : String) : Bool :=
  !s.toList.isEmpty && s.toList.all fun c => c.isAlphanum || c == '-'

abbrev ProjectName := {s : String // acceptsProjectName s = true}

def shopName : ProjectName := ⟨"shop", by decide⟩

/-- `AddDomainDto.name`: labels separated by dots; the last has two to eleven
letters, the one before it at least two characters of which the first is
alphanumeric.  The pattern's opening lookahead excludes nothing more, since no
label contains `:` or `/`. -/
def acceptsDomainName (s : String) : Bool :=
  let word (c : Char) : Bool := c.isAlphanum || c == '-' || c == '_'
  match (s.toList.splitOnP (· == '.')).reverse with
  | tld :: name :: subdomains =>
    (2 ≤ tld.length && tld.length ≤ 11 && tld.all Char.isAlpha) &&
      (2 ≤ name.length && name.head?.any Char.isAlphanum && name.all word) &&
      subdomains.all fun l => !l.isEmpty && l.all word
  | _ => false

abbrev DomainName := {s : String // acceptsDomainName s = true}

/-! ## Rows -/

structure GitAccount where
  username : String
  provider : String := "github"
  installationId : Option String
  userId : UserId
  deriving DecidableEq

structure Project where
  id : ProjectId
  name : ProjectName
  framework : String := "other"
  rootDirectory : String := "./"
  installCommand : Option String := none
  buildCommand : Option String := none
  runCommand : Option String := none
  outputDirectory : Option String := none
  pythonVersion : Option String := none
  gitRepoOwner : String
  gitRepoName : String
  gitBranch : String
  gitCloneUrl : String
  configChanged : Bool := false
  autoDeploy : Bool := true
  onlineStatus : DomainDnsStatus := .pending
  updatedAt : Nat
  userId : UserId
  deriving DecidableEq

structure EnvironmentVariable where
  key : String
  value : String
  targets : List EnvironmentType := [.production, .preview, .development]
  projectId : ProjectId
  deriving DecidableEq

structure Deployment where
  id : DeploymentId
  status : DeploymentStatus := .queued
  isSuccess : Bool := false
  commitHash : String
  commitMessage : String
  commitAuthor : String
  branch : String
  containerImage : Option String := none
  deploymentUrl : Option String := none
  deploymentRegion : String := "us-ashburn-1"
  startedAt : Nat
  finishedAt : Option Nat := none
  duration : Option Nat := none
  projectId : ProjectId
  initiatorId : Option UserId
  trigger : DeploymentTrigger := .manual
  deriving DecidableEq

structure Domain where
  id : DomainId
  name : String
  status : DomainDnsStatus := .pending
  error : Option String := none
  projectId : ProjectId
  createdAt : Nat
  deriving DecidableEq

structure SystemConfig where
  userId : UserId
  defaultRegion : String := "us-ashburn-1"
  maxConcurrentBuilds : Nat := 1
  logRetentionDays : Int := 1
  turboMode : Bool := false
  globalTTLMinutes : Int := 5
  autoDeploy : Bool := true
  slackWebhook : Option String := none
  emailDeployFailed : Bool := true
  emailDeploySuccess : Bool := true
  deriving DecidableEq

/-! ## Queue payloads -/

structure BuildConfig where
  installCommand : String
  buildCommand : String
  runCommand : String
  outputDir : String
  framework : String
  deriving DecidableEq

/-- `BuildJobData`, as the worker decodes it: an absent text is empty. -/
structure BuildJob where
  deploymentId : DeploymentId
  projectId : ProjectId
  projectName : ProjectName
  gitUrl : String
  installationId : Number
  branch : String
  commitHash : String
  rootDirectory : String
  buildConfig : BuildConfig
  domains : List String
  envVars : List (String × String)
  previousDeploymentId : Option DeploymentId
  deriving DecidableEq

structure ProjectCleanupJob where
  projectId : ProjectId
  projectName : ProjectName
  activeDeploymentIds : List DeploymentId
  deriving DecidableEq

/-! ## Requests -/

/-- The fields of `BaseProjectDto` that the services read. -/
structure BaseProjectDto where
  name : ProjectName
  gitRepoName : String
  gitRepoOwner : String
  gitBranch : String
  gitCloneUrl : String
  framework : Option String := none
  rootDirectory : Option String := none
  installCommand : Option String := none
  buildCommand : Option String := none
  runCommand : Option String := none
  outputDirectory : Option String := none
  pythonVersion : Option String := none

structure CreateProjectDto extends BaseProjectDto where
  envVars : List (String × String) := []

/-- `PartialType(BaseProjectDto)` with `autoDeploy`: an absent field is left as it
is. -/
structure UpdateProjectDto where
  name : Option ProjectName := none
  gitRepoName : Option String := none
  gitRepoOwner : Option String := none
  gitBranch : Option String := none
  gitCloneUrl : Option String := none
  framework : Option String := none
  rootDirectory : Option String := none
  installCommand : Option String := none
  buildCommand : Option String := none
  runCommand : Option String := none
  outputDirectory : Option String := none
  pythonVersion : Option String := none
  autoDeploy : Option Bool := none

/-- An absent field is left as it is. -/
structure UpdateSettingsDto where
  defaultRegion : Option String := none
  maxConcurrentBuilds : Option Nat := none
  logRetentionDays : Option Int := none
  turboMode : Option Bool := none
  globalTTLMinutes : Option Int := none
  autoDeploy : Option Bool := none
  slackWebhook : Option String := none
  emailDeployFailed : Option Bool := none
  emailDeploySuccess : Option Bool := none

/-- The fields of GitHub's push payload that `handlePushEvent` reads. -/
structure PushEventPayload where
  ref : String
  after : String
  deleted : Bool := false
  repositoryName : String
  repositoryOwner : String
  sender : String
  installationId : Option Nat
  headMessage : Option String := none
  headAuthor : Option String := none

/-- What `GithubAppService.getLatestCommit` answers. -/
structure CommitData where
  sha : String
  message : String
  author : String

structure UpdateDeploymentStatusDto where
  status : DeploymentStatus
  containerImage : Option String := none
  deploymentUrl : Option String := none
  deriving DecidableEq

/-! ## Errors -/

/-- The exceptions the services throw.  `internal` is any failure of the database,
of Redis or of GitHub that a service does not catch. -/
inductive HttpException
  | notFound (message : String)
  | badRequest (message : String)
  | internal
  deriving DecidableEq

end Api
end Code2Cloud
