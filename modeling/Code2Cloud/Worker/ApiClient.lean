import Code2Cloud.Api.InternalController
import Code2Cloud.Worker.Scanner

/-!
# The worker's API client

The HTTP request that each method of `Client` sends.
-/

namespace Code2Cloud

namespace Worker
namespace Client

open Api

/-- An identifier, as it stands in a path. -/
abbrev PathId := {s : String // HttpRequest.isPlainSegment s = true}

/-- A key of visible characters, which a header carries as it is. -/
abbrev ApiKey := {s : String // s.toList.all (fun c => '!' ≤ c && c ≤ '~') = true}

/-! ## json.Marshal -/

/-- `encoding/json` also escapes what HTML and JavaScript might take for their own. -/
def marshalEscaping : Json.Escaping where
  also c := c == '<' || c == '>' || c == '&' || c.toNat == 0x2028 || c.toNat == 0x2029
  basic c h := by
    simp only [Bool.or_eq_true, beq_iff_eq] at h
    rcases h with (((rfl | rfl) | rfl) | h) | h
    · decide
    · decide
    · decide
    · omega
    · omega

def marshal (j : Json) : Bytes := GoString.ofRunes (Json.print marshalEscaping j)

/-- A string in a body. -/
def jsonText (s : GoString) : Json := .str (GoString.text s)

/-- A pointer with `omitempty`. -/
def omitEmpty (key : String) : Option GoString → List (String × Json)
  | none => []
  | some s => [(key, jsonText s)]

/-! ## The calls -/

structure DeploymentStatusUpdate where
  status : DeploymentStatus
  containerImage : Option GoString := none
  deploymentURL : Option GoString := none

def DeploymentStatusUpdate.json (u : DeploymentStatusUpdate) : Json :=
  .obj (("status", .str u.status.text) :: (omitEmpty "containerImage" u.containerImage ++
    omitEmpty "deploymentUrl" u.deploymentURL))

structure SaveLogEntry where
  source : Logs.LogSource
  message : GoString
  timestamp : GoString

/-- An empty timestamp is left out. -/
def SaveLogEntry.json (x : SaveLogEntry) : Json :=
  .obj ([("source", .str (InternalController.sourceText x.source)),
      ("message", jsonText x.message)] ++
    omitEmpty "timestamp" (if x.timestamp.isEmpty then none else some x.timestamp))

structure DeploymentNotification where
  deploymentID : PathId
  status : DeploymentStatus
  projectName : GoString
  deploymentURL : Option GoString := none
  message : Option GoString := none

def DeploymentNotification.json (n : DeploymentNotification) : Json :=
  .obj ([("deploymentId", .str n.deploymentID.val), ("status", .str n.status.text),
    ("projectName", jsonText n.projectName)] ++ omitEmpty "deploymentUrl" n.deploymentURL ++
    omitEmpty "message" n.message)

/-- The calls of `Client` on the internal routes, `GetLogs` with its query apart.  Sources and
statuses are those of the enumerations. -/
inductive Call
  | updateDeploymentStatus (id : PathId) (status : DeploymentStatus)
  | updateDeploymentWithImage (id : PathId) (status : DeploymentStatus) (imageName : GoString)
  | updateDeploymentWithURL (id : PathId) (status : DeploymentStatus) (url : GoString)
  | failDeployment (id : PathId) (errorMsg : GoString)
  | getExpiredDeployments
  | cleanupDeployment (id : PathId)
  | getPendingDomains
  | updateDomainStatus (id : PathId) (status : DomainDnsStatus) (errorMsg : GoString)
  | getInstallationToken (installationID : Nat)
  /-- `now` is the text of the time. -/
  | saveLogs (id : PathId) (source : Logs.LogSource) (messages : List GoString) (now : GoString)
  | saveLogsRaw (id : PathId) (source : Logs.LogSource) (messages : List GoString) (now : GoString)
  | triggerLogCleanup
  | notifySuccess (id : PathId) (projectName url : GoString) (duration : Int)
  | notifyFailure (id : PathId) (projectName errorMsg : GoString)
  | getProjectSettings (id : PathId)
  | updateProjectStatus (id : PathId) (status : DomainDnsStatus)

def doRequest (apiKey : ApiKey) (method path : String) (body : Option Json) : HttpRequest where
  method
  path
  headers := [("content-type", "application/json"), ("x-worker-api-key", apiKey.val)]
  body := body.map marshal

/-- The lines that are saved: blank ones are not. -/
def logEntries (source : Logs.LogSource) (messages : List GoString) (now : GoString) :
    List SaveLogEntry :=
  (messages.filter fun msg => !Logs.isBlank (GoString.text msg)).map fun message =>
    { source, message, timestamp := now }

def statusPath (id : PathId) : String := "/internal/deployments/" ++ id.val ++ "/status"

/-- The request that saves the lines, if there is one to save. -/
def saveRequest (apiKey : ApiKey) (id : PathId) (logs : List SaveLogEntry) : Option HttpRequest :=
  if logs.isEmpty then none
  else
    some (doRequest apiKey "POST" ("/internal/deployments/" ++ id.val ++ "/logs")
      (some (.obj [("logs", .arr (logs.map SaveLogEntry.json))])))

def request (apiKey : ApiKey) : Call → Option HttpRequest
  | .updateDeploymentStatus id status =>
    some (doRequest apiKey "PATCH" (statusPath id) (DeploymentStatusUpdate.json { status }))
  | .updateDeploymentWithImage id status imageName =>
    some (doRequest apiKey "PATCH" (statusPath id)
      (DeploymentStatusUpdate.json { status, containerImage := imageName }))
  | .updateDeploymentWithURL id status url =>
    some (doRequest apiKey "PATCH" (statusPath id)
      (DeploymentStatusUpdate.json { status, deploymentURL := url }))
  -- the error's text is not sent
  | .failDeployment id _ =>
    some (doRequest apiKey "PATCH" (statusPath id)
      (DeploymentStatusUpdate.json { status := .failed }))
  | .getExpiredDeployments =>
    some (doRequest apiKey "GET" "/internal/deployments/expired" none)
  | .cleanupDeployment id =>
    some (doRequest apiKey "DELETE" ("/internal/deployments/" ++ id.val ++ "/resources") none)
  | .getPendingDomains => some (doRequest apiKey "GET" "/internal/domains/pending" none)
  | .updateDomainStatus id status errorMsg =>
    -- the keys of a map are sorted
    some (doRequest apiKey "PATCH" ("/internal/domains/" ++ id.val ++ "/status")
      (some (.obj [("error", jsonText errorMsg),
        ("status", .str (InternalController.dnsStatusText status))])))
  | .getInstallationToken installationID =>
    some (doRequest apiKey "GET" ("/internal/git/installation-token/" ++ toString installationID)
      none)
  | .saveLogs id source messages now | .saveLogsRaw id source messages now =>
    saveRequest apiKey id (logEntries source messages now)
  | .triggerLogCleanup => some (doRequest apiKey "POST" "/internal/logs/cleanup" none)
  -- nor is the duration
  | .notifySuccess id projectName url _ =>
    some (doRequest apiKey "POST" "/internal/notifications/deployment"
      (DeploymentNotification.json
        { deploymentID := id, status := .ready, projectName, deploymentURL := url }))
  | .notifyFailure id projectName errorMsg =>
    some (doRequest apiKey "POST" "/internal/notifications/deployment"
      (DeploymentNotification.json
        { deploymentID := id, status := .failed, projectName, message := errorMsg }))
  | .getProjectSettings id =>
    some (doRequest apiKey "GET" ("/internal/settings/by-project/" ++ id.val) none)
  | .updateProjectStatus id status =>
    some (doRequest apiKey "PATCH" ("/internal/projects/" ++ id.val ++ "/status")
      (some (.obj [("onlineStatus", .str (InternalController.dnsStatusText status))])))

end Client
end Worker
end Code2Cloud
