import Code2Cloud.Api.Logs
import Code2Cloud.Api.Nest

/-!
# The internal routes

The handlers of `InternalController` with their decorators, the classes of their bodies and the
guard before them.
-/

namespace Code2Cloud
namespace Api
namespace InternalController

open Dto

/-! ## Bodies -/

def sourceText : Logs.LogSource → String
  | .build => "BUILD"
  | .runtime => "RUNTIME"
  | .system => "SYSTEM"

def dnsStatusText : DomainDnsStatus → String
  | .active => "ACTIVE"
  | .inactive => "INACTIVE"
  | .pending => "PENDING"
  | .verifying => "VERIFYING"
  | .error => "ERROR"

def deploymentStatuses : List DeploymentStatus :=
  [.queued, .building, .deploying, .ready, .failed, .canceled, .expired, .superseded]

def domainDnsStatuses : List DomainDnsStatus := [.active, .inactive, .pending, .verifying, .error]

def logSources : List Logs.LogSource := [.build, .runtime, .system]

def updateDeploymentStatusDto : List Property := [
  { name := "status"
    check := fun j => isEnum (deploymentStatuses.map (·.text)) j && isNotEmpty j },
  { name := "containerImage", optional := true, check := isString },
  { name := "deploymentUrl", optional := true, check := isString }]

def logEntryDto : List Property := [
  { name := "source"
    check := fun j => isEnum (logSources.map sourceText) j && isNotEmpty j },
  { name := "message", check := fun j => isString j && isNotEmpty j },
  { name := "timestamp", optional := true, check := isString }]

def createLogsDto : List Property := [{ name := "logs", check := isArrayOf logEntryDto }]

def updateProjectStatusDto : List Property := [
  { name := "onlineStatus"
    check := fun j => isEnum (domainDnsStatuses.map dnsStatusText) j && isNotEmpty j }]

def updateDomainStatusDto : List Property := [
  { name := "status"
    check := fun j => isEnum (domainDnsStatuses.map dnsStatusText) j && isNotEmpty j },
  { name := "error", optional := true, check := isString }]

def deploymentNotificationDto : List Property := [
  { name := "deploymentId", check := fun j => isString j && isNotEmpty j },
  { name := "status"
    check := fun j => isEnum (deploymentStatuses.map (·.text)) j && isNotEmpty j },
  { name := "message", optional := true, check := isString },
  { name := "projectName", optional := true, check := isString },
  { name := "deploymentUrl", optional := true, check := isString }]

structure LogEntryDto where
  source : Logs.LogSource
  message : String
  timestamp : Option String
  deriving DecidableEq

structure DeploymentNotificationDto where
  deploymentId : String
  status : DeploymentStatus
  message : Option String
  projectName : Option String
  deploymentUrl : Option String
  deriving DecidableEq

inductive Handler
  | updateDeploymentStatus (id : String) (dto : UpdateDeploymentStatusDto)
  | createLogs (id : String) (logs : List LogEntryDto)
  | getLogs (id : String)
  | getInstallationToken (installationId : String)
  | getSettingsByProject (projectId : String)
  | getExpiredDeployments
  | cleanupLogs
  | deleteDeploymentResources (id : String)
  | updateProjectStatus (id : String) (onlineStatus : DomainDnsStatus)
  | getPendingDomains
  | updateDomainStatus (id : String) (status : DomainDnsStatus) (error : Option String)
  | sendDeploymentNotification (dto : DeploymentNotificationDto)
  deriving DecidableEq

/-! ### Reading a checked body -/

def enumOf {α : Type} (values : List α) (text : α → String) (j : Option Json) : Option α :=
  (textOf j).bind fun s => values.find? fun a => text a == s

def members : Json → List (String × Json)
  | .obj ms => ms
  | _ => []

/-- An optional text.  The pipe lets `null` pass, which is not of its type. -/
def readOptional : Option Json → Option (Option String)
  | none => some none
  | some (.str s) => some (some s)
  | some _ => none

theorem readOptional_str (s : String) : readOptional (some (.str s)) = some (some s) := rfl

theorem readOptional_map (value : Option String) : readOptional (value.map .str) = some value := by
  cases value <;> rfl

def readDeploymentStatus (j : Json) : Option UpdateDeploymentStatusDto :=
  (enumOf deploymentStatuses (·.text) (get (members j) "status")).bind fun status =>
    (readOptional (get (members j) "containerImage")).bind fun containerImage =>
      (readOptional (get (members j) "deploymentUrl")).map fun deploymentUrl =>
        { status, containerImage, deploymentUrl }

def readLogEntry (j : Json) : Option LogEntryDto :=
  (enumOf logSources sourceText (get (members j) "source")).bind fun source =>
    (textOf (get (members j) "message")).bind fun message =>
      (readOptional (get (members j) "timestamp")).map fun timestamp =>
        { source, message, timestamp }

def readLogEntries : List Json → Option (List LogEntryDto)
  | [] => some []
  | j :: js => (readLogEntry j).bind fun x => (readLogEntries js).map (x :: ·)

def readLogs (j : Json) : Option (List LogEntryDto) :=
  match get (members j) "logs" with
  | some (.arr elems) => readLogEntries elems
  | _ => none

def readOnlineStatus (j : Json) : Option DomainDnsStatus :=
  enumOf domainDnsStatuses dnsStatusText (get (members j) "onlineStatus")

def readDomainStatus (j : Json) : Option (DomainDnsStatus × Option String) :=
  (enumOf domainDnsStatuses dnsStatusText (get (members j) "status")).bind fun status =>
    (readOptional (get (members j) "error")).map fun error => (status, error)

def readNotification (j : Json) : Option DeploymentNotificationDto :=
  (textOf (get (members j) "deploymentId")).bind fun deploymentId =>
    (enumOf deploymentStatuses (·.text) (get (members j) "status")).bind fun status =>
      (readOptional (get (members j) "message")).bind fun message =>
        (readOptional (get (members j) "projectName")).bind fun projectName =>
          (readOptional (get (members j) "deploymentUrl")).map fun deploymentUrl =>
            { deploymentId, status, message, projectName, deploymentUrl }

/-! ## Routes -/

def withId (f : String → Option Json → Option Handler) : List String → Option Json → Option Handler
  | [id], body => f id body
  | _, _ => none

namespace Route

def updateDeploymentStatus : Route Handler where
  method := "PATCH"
  pattern := [.lit "internal", .lit "deployments", .param, .lit "status"]
  body := some updateDeploymentStatusDto
  handle := withId fun id body =>
    (body.bind readDeploymentStatus).map (.updateDeploymentStatus id)

def createLogs : Route Handler where
  method := "POST"
  pattern := [.lit "internal", .lit "deployments", .param, .lit "logs"]
  body := some createLogsDto
  handle := withId fun id body => (body.bind readLogs).map (.createLogs id)

def getLogs : Route Handler where
  method := "GET"
  pattern := [.lit "internal", .lit "deployments", .param, .lit "logs"]
  body := none
  handle := withId fun id _ => some (.getLogs id)

def getInstallationToken : Route Handler where
  method := "GET"
  pattern := [.lit "internal", .lit "git", .lit "installation-token", .param]
  body := none
  handle := withId fun id _ => some (.getInstallationToken id)

def getSettingsByProject : Route Handler where
  method := "GET"
  pattern := [.lit "internal", .lit "settings", .lit "by-project", .param]
  body := none
  handle := withId fun id _ => some (.getSettingsByProject id)

def getExpiredDeployments : Route Handler where
  method := "GET"
  pattern := [.lit "internal", .lit "deployments", .lit "expired"]
  body := none
  handle := fun _ _ => some .getExpiredDeployments

def cleanupLogs : Route Handler where
  method := "POST"
  pattern := [.lit "internal", .lit "logs", .lit "cleanup"]
  body := none
  handle := fun _ _ => some .cleanupLogs

def deleteDeploymentResources : Route Handler where
  method := "DELETE"
  pattern := [.lit "internal", .lit "deployments", .param, .lit "resources"]
  body := none
  handle := withId fun id _ => some (.deleteDeploymentResources id)

def updateProjectStatus : Route Handler where
  method := "PATCH"
  pattern := [.lit "internal", .lit "projects", .param, .lit "status"]
  body := some updateProjectStatusDto
  handle := withId fun id body => (body.bind readOnlineStatus).map (.updateProjectStatus id)

def getPendingDomains : Route Handler where
  method := "GET"
  pattern := [.lit "internal", .lit "domains", .lit "pending"]
  body := none
  handle := fun _ _ => some .getPendingDomains

def updateDomainStatus : Route Handler where
  method := "PATCH"
  pattern := [.lit "internal", .lit "domains", .param, .lit "status"]
  body := some updateDomainStatusDto
  handle := withId fun id body =>
    (body.bind readDomainStatus).map fun d => .updateDomainStatus id d.1 d.2

def sendDeploymentNotification : Route Handler where
  method := "POST"
  pattern := [.lit "internal", .lit "notifications", .lit "deployment"]
  body := some deploymentNotificationDto
  handle := fun _ body => (body.bind readNotification).map .sendDeploymentNotification

end Route

def routes : List (Route Handler) :=
  [Route.updateDeploymentStatus, Route.createLogs, Route.getLogs, Route.getInstallationToken,
    Route.getSettingsByProject, Route.getExpiredDeployments, Route.cleanupLogs,
    Route.deleteDeploymentResources, Route.updateProjectStatus, Route.getPendingDomains,
    Route.updateDomainStatus, Route.sendDeploymentNotification]

def canActivate (validApiKey : Option String) (r : HttpRequest) : Bool :=
  match r.headers.lookup "x-worker-api-key" with
  | some apiKey => !apiKey.isEmpty && validApiKey.any fun key => !key.isEmpty && apiKey == key
  | none => false

/-! ## The routes -/

/-- No two routes of one method match the same path. -/
theorem routes_apart :
    routes.Pairwise fun a b => a.method ≠ b.method ∨ apart a.pattern b.pattern := by
  decide

theorem canActivate_iff {valid : Option String} {r : HttpRequest} {apiKey : String}
    (h : r.headers.lookup "x-worker-api-key" = some apiKey) :
    canActivate valid r = true ↔ valid = some apiKey ∧ apiKey ≠ "" := by
  rw [canActivate, h]
  constructor
  · intro hactivates
    rw [Bool.and_eq_true, Bool.not_eq_true', Option.any_eq_true] at hactivates
    obtain ⟨hne, key, hkey, heq⟩ := hactivates
    rw [Bool.and_eq_true, beq_iff_eq] at heq
    refine ⟨by rw [hkey, heq.2], fun hempty => ?_⟩
    rw [hempty] at hne
    exact absurd hne (by decide)
  · rintro ⟨rfl, hne⟩
    have hempty : apiKey.isEmpty = false := by
      rw [Bool.eq_false_iff, Ne, String.isEmpty_iff]
      exact hne
    simp [hempty]

end InternalController
end Api
end Code2Cloud
