import Code2Cloud.System.World

/-!
# The build worker

`Worker.Start` and `Worker.processJob` as a process: a state for each request it
makes.  Notifications change nothing that is modelled and are left out.
-/

namespace Code2Cloud
namespace System

open Api Worker

/-- The requests of `processJob`, in order. -/
inductive Pc
  /-- Cancel check: job may have been cancelled while queued. -/
  | checkQueued
  | projectPending
  | markBuilding
  /-- Cancel check: before fetching settings. -/
  | checkSettings
  | getSettings
  | getToken
  /-- Cancel check: before cloning. -/
  | checkClone
  | clone
  /-- Cancel check: before building. -/
  | checkBuild
  | build
  | recordImage
  /-- Cancel check: before deploying to Kubernetes. -/
  | checkDeploy
  | markDeploying
  | deploy (stage : Client.DeployStage)
  | markReady
  | projectActive
  | stopPrevious
  | supersede
  | startStreaming
  deriving DecidableEq

structure Build where
  job : BuildJob
  turboMode : Bool := false
  commitHash : String := ""
  imageName : GoString := []
  deriving DecidableEq

/-- The error branch of `Start` for a cancelled job, with `cancelCleanup`. -/
inductive CancelPc
  | markCanceled
  | stopStreaming
  | cleanup (left : List Kind)
  | deleteResources
  | projectInactive
  | clearSignal
  | stopStreams
  deriving DecidableEq

/-- The error branch of `Start` for any other error. -/
inductive FailPc
  | markFailed
  | stopStreams
  deriving DecidableEq

inductive BuildWorker
  | idle
  | processing (b : Build) (pc : Pc)
  | cancelling (job : BuildJob) (pc : CancelPc)
  | failing (job : BuildJob) (pc : FailPc)
  deriving DecidableEq

namespace BuildWorker

def job : BuildWorker → Option BuildJob
  | idle => none
  | processing b _ => some b.job
  | cancelling job _ | failing job _ => some job

/-- The job of a build at a request of `processJob`. -/
def processingAt (pc : Pc) : BuildWorker → Option BuildJob
  | processing b pc' => if pc' = pc then some b.job else none
  | _ => none

theorem exists_of_processingAt {b : BuildWorker} {pc : Pc} {id : DeploymentId}
    (h : (b.processingAt pc).any (·.deploymentId == id) = true) :
    ∃ build, b = processing build pc ∧ build.job.deploymentId = id := by
  cases b with
  | processing build pc' =>
    rw [processingAt] at h
    split at h
    · rename_i hpc
      exact ⟨build, by rw [hpc], by simpa using h⟩
    · cases h
  | _ => cases h

/-- `UpdateDeploymentStatus` -/
def statusUpdate (status : DeploymentStatus) : StatusWrite := .updateDeploymentStatus { status }

/-- Text the worker assembled, as the API receives it. -/
def sent (s : GoString) : String := Utf8.decode s

/-- `registry/name:commit` -/
def imageNameOf (cfg : Config) (job : BuildJob) (commitHash : String) : GoString :=
  cfg.registryUrl ++ utf8 "/" ++ sanitizeName (utf8 job.projectName.val) ++ utf8 ":" ++
    (utf8 commitHash).take 8

def deployOptions (b : Build) : DeployOptions :=
  { deploymentId := b.job.deploymentId
    projectId := b.job.projectId
    projectName := utf8 b.job.projectName.val
    imageName := b.imageName
    port := resolvePort b.job.envVars
    cpuRequest := if b.turboMode then "200m" else "100m"
    cpuLimit := if b.turboMode then "1000m" else "500m"
    memoryRequest := if b.turboMode then "256Mi" else "128Mi"
    memoryLimit := if b.turboMode then "1Gi" else "512Mi"
    replicas := 1
    envVars := runtimeEnvVars b.job.envVars b.job.buildConfig.framework
    domains := b.job.domains.map utf8 }

/-- `cancelCleanup`'s options for `Client.Cleanup`. -/
def cleanupOptions (job : BuildJob) : Client.CleanupOptions :=
  { deploymentId := some job.deploymentId, projectName := utf8 job.projectName.val }

/-- `GetProjectSettings`: the owner's configuration, or the defaults on an error. -/
def turboModeOf (db : Database) (id : ProjectId) : Bool :=
  match db.findProject id with
  | none => false
  | some p =>
    match db.systemConfigOf p.userId with
    | none => false
    | some c => c.turboMode

/-- `URLs[0]`, the address of the first host. -/
def deploymentUrl (b : Build) : Option String :=
  (Client.allHosts (deployOptions b)).head?.map fun host => sent (utf8 "https://" ++ host)

/-- `checkCancelled`: a failed request counts as no signal. -/
def check (w : World) (r : Reply) (b : Build) (next : Pc) : Turn (Option BuildWorker) :=
  if r.outcome = .ok ∧ w.redis.isCancelled w.now b.job.deploymentId then
    .pure (some (.cancelling b.job .markCanceled)) [.finished b.job.deploymentId .cancelled]
  else .pure (some (.processing b next))

/-- After the pods are ready, and after a rollout too slow to wait for: without a
host `URLs[0]` panics. -/
def afterDeploy (b : Build) : Option BuildWorker :=
  if (deploymentUrl b).isSome then some (.processing b .markReady) else none

/-- The previous deployment is retired if the job names one. -/
def afterActive (b : Build) : BuildWorker :=
  .processing b (if b.job.previousDeploymentId.isSome then .stopPrevious else .startStreaming)

def processStep (cfg : Config) (w : World) (r : Reply) (b : Build) :
    Pc → Turn (Option BuildWorker)
  | .checkQueued => check w r b .projectPending
  | .projectPending =>
    request w r.outcome (.setOnlineStatus b.job.projectId .pending)
      (some (.processing b .markBuilding)) (some (.processing b .markBuilding))
  | .markBuilding =>
    -- the banner slices the first eight bytes of the commit
    request w r.outcome (.writeStatus b.job.deploymentId (statusUpdate .building))
      (if (utf8 b.job.commitHash).length < 8 then none
        else some (.processing b .checkSettings))
      (some (.failing b.job .markFailed)) [] [.finished b.job.deploymentId .failed]
  | .checkSettings => check w r b .getSettings
  | .getSettings =>
    let turboMode := r.outcome == .ok && turboModeOf w.db b.job.projectId
    .pure (some (.processing { b with turboMode } .getToken))
  | .getToken =>
    query r.outcome (.pure (some (.processing b .checkClone)))
      (.pure (some (.failing b.job .markFailed)) [.finished b.job.deploymentId .failed])
  | .checkClone => check w r b .clone
  | .clone =>
    let commitHash := if b.job.commitHash.isEmpty then r.head else b.job.commitHash
    query r.outcome
      (.pure (if (utf8 commitHash).length < 8 then none
        else some (.processing { b with commitHash } .checkBuild)))
      (.pure (some (.failing b.job .markFailed)) [.finished b.job.deploymentId .failed])
  | .checkBuild => check w r b .build
  | .build =>
    let imageName := imageNameOf cfg b.job b.commitHash
    query r.outcome (.pure (some (.processing { b with imageName } .recordImage)))
      (.pure (some (.failing b.job .markFailed)) [.finished b.job.deploymentId .failed])
  | .recordImage =>
    request w r.outcome
      (.writeStatus b.job.deploymentId
        (.updateDeploymentStatus
          { status := .building, containerImage := some (sent b.imageName) }))
      (some (.processing b .checkDeploy)) (some (.processing b .checkDeploy))
  | .checkDeploy => check w r b .markDeploying
  | .markDeploying =>
    request w r.outcome (.writeStatus b.job.deploymentId (statusUpdate .deploying))
      (some (.processing b (.deploy .serviceAccount))) (some (.failing b.job .markFailed))
      [.deployCalled b.job.deploymentId] [.finished b.job.deploymentId .failed]
  | .deploy stage =>
    match Client.object cfg.baseDomain (deployOptions b) stage, stage.next with
    | some o, some next =>
      issue w r.outcome (.apply o) (some (.processing b (.deploy next)))
        (some (.failing b.job .markFailed)) [] [.finished b.job.deploymentId .failed]
    | _, _ => .pure (afterDeploy b) [.deployed b.job.deploymentId b.job.projectName]
  | .markReady =>
    request w r.outcome
      (.writeStatus b.job.deploymentId
        (.updateDeploymentStatus { status := .ready, deploymentUrl := deploymentUrl b }))
      (some (.processing b .projectActive)) (some (.failing b.job .markFailed))
      [] [.finished b.job.deploymentId .failed]
  | .projectActive =>
    request w r.outcome (.setOnlineStatus b.job.projectId .active) (some (afterActive b))
      (some (afterActive b))
  | .stopPrevious =>
    match b.job.previousDeploymentId with
    | some previous =>
      { command := .stopStreaming previous, next := some (.processing b .supersede) }
    | none => .pure (some (.processing b .startStreaming))
  | .supersede =>
    match b.job.previousDeploymentId with
    | some previous =>
      request w r.outcome (.writeStatus previous (statusUpdate .superseded))
        (some (.processing b .startStreaming)) (some (.processing b .startStreaming))
    | none => .pure (some (.processing b .startStreaming))
  | .startStreaming =>
    { command := .startStreaming b.job.deploymentId (r.outcome == .ok), next := some .idle
      entries := [.finished b.job.deploymentId .completed] }

def cancelStep (w : World) (r : Reply) (job : BuildJob) : CancelPc → Turn (Option BuildWorker)
  | .markCanceled =>
    request w r.outcome (.writeStatus job.deploymentId (statusUpdate .canceled))
      (some (.cancelling job .stopStreaming)) (some (.cancelling job .stopStreaming))
  | .stopStreaming =>
    { command := .stopStreaming job.deploymentId
      next := some (.cancelling job (.cleanup Client.cleanupStages)) }
  | .cleanup [] => .pure (some (.cancelling job .deleteResources))
  | .cleanup (kind :: left) =>
    issue w r.outcome (.delete kind (Client.deleteName kind (cleanupOptions job)))
      (some (.cancelling job (.cleanup left))) (some (.cancelling job (.cleanup left)))
  | .deleteResources =>
    request w r.outcome (.writeStatus job.deploymentId .deleteDeploymentResources)
      (some (.cancelling job .projectInactive)) (some (.cancelling job .projectInactive))
  | .projectInactive =>
    request w r.outcome (.setOnlineStatus job.projectId .inactive)
      (some (.cancelling job .clearSignal)) (some (.cancelling job .clearSignal))
  | .clearSignal =>
    issue w r.outcome (.clearCancelSignal job.deploymentId)
      (some (.cancelling job .stopStreams)) (some (.cancelling job .stopStreams))
  | .stopStreams => { command := .stopStreaming job.deploymentId, next := some .idle }

def failStep (w : World) (r : Reply) (job : BuildJob) : FailPc → Turn (Option BuildWorker)
  | .markFailed =>
    request w r.outcome (.writeStatus job.deploymentId (statusUpdate .failed))
      (some (.failing job .stopStreams)) (some (.failing job .stopStreams))
  | .stopStreams => { command := .stopStreaming job.deploymentId, next := some .idle }

def step (cfg : Config) (w : World) (r : Reply) : BuildWorker → Turn (Option BuildWorker)
  | .idle =>
    match w.redis.toQueues.waitForJob with
    | none => .pure (some .idle)
    | some (job, _) =>
      issue w r.outcome .popBuildJob (some (.processing { job } .checkQueued)) (some .idle)
  | .processing b pc => processStep cfg w r b pc
  | .cancelling job pc => cancelStep w r job pc
  | .failing job pc => failStep w r job pc

end BuildWorker

end System
end Code2Cloud
