import Code2Cloud.System.World

/-!
# The background workers

The expiry sweep, the cleanup of deleted projects and the domain worker: loops of the
worker process that run beside the build worker.
-/

namespace Code2Cloud
namespace System

open Api Worker

/-! ## The expiry sweep -/

structure ExpiredDeployment where
  id : DeploymentId
  projectId : ProjectId
  projectName : ProjectName
  deriving DecidableEq

/-- One query of `getExpiredDeployments`: a user's deployments past their time to
live. -/
def expiredOf (w : World) (config : SystemConfig) : List ExpiredDeployment :=
  w.db.deployments.filterMap fun d =>
    (w.db.findOwnedProject d.projectId config.userId).bind fun p =>
      if d.status = .ready ∧ (d.startedAt : Int) + config.globalTTLMinutes * 60 * 1000 < w.now then
        some { id := d.id, projectId := d.projectId, projectName := p.name }
      else none

inductive CleanupWorker
  | idle
  /-- `getExpiredDeployments`, with the users still to ask for. -/
  | fetching (configs : List SystemConfig) (found : List ExpiredDeployment)
  | stopStreaming (d : ExpiredDeployment) (rest : List ExpiredDeployment)
  | cleanup (d : ExpiredDeployment) (left : List Kind) (rest : List ExpiredDeployment)
  | markExpired (d : ExpiredDeployment) (rest : List ExpiredDeployment)
  | projectInactive (d : ExpiredDeployment) (rest : List ExpiredDeployment)

namespace CleanupWorker

def loop : List ExpiredDeployment → CleanupWorker
  | [] => idle
  | d :: rest => stopStreaming d rest

def cleanupOptions (d : ExpiredDeployment) : Client.CleanupOptions :=
  { deploymentId := some d.id, projectName := utf8 d.projectName.val }

def step (w : World) (r : Reply) : CleanupWorker → Turn CleanupWorker
  | idle => query r.outcome (.pure (fetching w.db.systemConfigs [])) (.pure idle)
  | fetching [] found => query r.outcome (.pure (loop found)) (.pure idle)
  | fetching (config :: configs) found =>
    query r.outcome (.pure (fetching configs (found ++ expiredOf w config))) (.pure idle)
  | stopStreaming d rest =>
    { command := .stopStreaming d.id, next := cleanup d Client.cleanupStages rest }
  | cleanup d [] rest => .pure (markExpired d rest)
  | cleanup d (kind :: left) rest =>
    issue w r.outcome (.delete kind (Client.deleteName kind (cleanupOptions d)))
      (cleanup d left rest) (cleanup d left rest)
  | markExpired d rest =>
    request w r.outcome (.writeStatus d.id (.updateDeploymentStatus { status := .expired }))
      (projectInactive d rest) (loop rest)
  | projectInactive d rest =>
    request w r.outcome (.setOnlineStatus d.projectId .inactive) (loop rest) (loop rest)

end CleanupWorker

/-! ## Deleted projects -/

inductive ProjectCleanupWorker
  | idle
  | stopStreaming (job : ProjectCleanupJob) (ids : List DeploymentId)
  | cleanup (job : ProjectCleanupJob) (left : List Kind)

namespace ProjectCleanupWorker

def cleanupOptions (job : ProjectCleanupJob) : Client.CleanupOptions :=
  { deploymentId := none, projectName := utf8 job.projectName.val }

def step (w : World) (r : Reply) : ProjectCleanupWorker → Turn ProjectCleanupWorker
  | idle =>
    match w.redis.toQueues.popProjectCleanup with
    | none => .pure idle
    | some (job, _) =>
      issue w r.outcome .popProjectCleanup (stopStreaming job job.activeDeploymentIds) idle
  | stopStreaming job [] => .pure (cleanup job Client.cleanupStages)
  | stopStreaming job (id :: ids) =>
    { command := .stopStreaming id, next := stopStreaming job ids }
  | cleanup _ [] => .pure idle
  | cleanup job (kind :: left) =>
    issue w r.outcome (.delete kind (Client.deleteName kind (cleanupOptions job)))
      (cleanup job left) (cleanup job left)

end ProjectCleanupWorker

/-! ## Domains -/

structure PendingDomain where
  id : DomainId
  domain : GoString
  projectName : ProjectName
  deriving DecidableEq

/-- `getPendingDomains`, oldest first. -/
def pendingDomains (db : Database) : List PendingDomain :=
  ((db.domains.filter fun d => d.status == .pending).insertionSort
    fun a b => a.createdAt ≤ b.createdAt).filterMap fun d =>
      (db.findProject d.projectId).map fun p =>
        { id := d.id, domain := utf8 d.name, projectName := p.name }

inductive DomainWorker
  | idle
  | verify (d : PendingDomain) (rest : List PendingDomain)
  | markPending (d : PendingDomain) (error : String) (rest : List PendingDomain)
  /-- `AddDomain`: read the hosts of the ingress. -/
  | getIngress (d : PendingDomain) (rest : List PendingDomain)
  /-- `AddDomain`: write them back with the new one. -/
  | updateHosts (d : PendingDomain) (hosts : List GoString) (rest : List PendingDomain)
  | markError (d : PendingDomain) (rest : List PendingDomain)
  | markActive (d : PendingDomain) (rest : List PendingDomain)

namespace DomainWorker

def loop : List PendingDomain → DomainWorker
  | [] => idle
  | d :: rest => verify d rest

/-- The ingress that `AddDomain` reads. -/
def ingressName (d : PendingDomain) : GoString := sanitizeK8sName (utf8 d.projectName.val)

/-- The hosts of an ingress: keys of a map, so each once. -/
def existingHosts (ingress : IngressObject) : List GoString :=
  (ingress.rules.map (·.host)).dedup

def step (w : World) (r : Reply) : DomainWorker → Turn DomainWorker
  | idle => query r.outcome (.pure (loop (pendingDomains w.db))) (.pure idle)
  | verify d rest =>
    .pure (if r.verified then getIngress d rest else markPending d r.dnsError rest)
  | markPending d error rest =>
    request w r.outcome (.updateDomainStatus d.id .pending (some error)) (loop rest) (loop rest)
  | getIngress d rest =>
    query r.outcome
      (.pure <| match w.cluster.ingresses (ingressName d) with
        | none => markError d rest
        | some ingress =>
          let hosts := existingHosts ingress
          if hosts.contains d.domain then markActive d rest
          else updateHosts d (hosts ++ [d.domain]) rest)
      (.pure (markError d rest))
  | updateHosts d hosts rest =>
    issue w r.outcome (.updateIngressHosts (sanitizeK8sName (ingressName d)) hosts)
      (markActive d rest) (markError d rest)
  | markError d rest =>
    request w r.outcome
      (.updateDomainStatus d.id .error
        (some "DNS verified but failed to configure routing. Will retry."))
      (loop rest) (loop rest)
  | markActive d rest =>
    request w r.outcome (.updateDomainStatus d.id .active (some "")) (loop rest) (loop rest)

end DomainWorker

end System
end Code2Cloud
