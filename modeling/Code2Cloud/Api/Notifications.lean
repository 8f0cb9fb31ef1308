import Code2Cloud.Api.GithubCallback
import Code2Cloud.Api.InternalController
import Code2Cloud.Api.Payloads
import Code2Cloud.Api.Settings

/-!
# Notifications

`sendDeploymentNotification` of `InternalService`: what is sent to Slack and by mail when the
worker tells how a deployment ended.
-/

namespace Code2Cloud
namespace Api

structure Person where
  email : String
  name : Option String
  deriving DecidableEq

inductive MailTemplate
  | deploymentSuccess (projectName deploymentUrl : String)
      (commitMessage authorName : Option String)
  | deploymentFailed (projectName : String) (commitMessage authorName : Option String)
  deriving DecidableEq

structure Mail where
  sender : String
  recipient : String
  subject : String
  template : MailTemplate
  deriving DecidableEq

inductive Notice
  | slack (webhookUrl : String) (message : Json)
  | mail (mail : Mail)

structure MailService where
  resendApiKey : Option String
  resendFromEmail : Option String

namespace MailService

variable (m : MailService)

def fromEmail : String := (truthy m.resendFromEmail).getD "notifications@code2cloud.dev"

/-- Without a key there is nothing to send with. -/
def send (recipient subject : String) (template : MailTemplate) : List Notice :=
  match truthy m.resendApiKey with
  | none => []
  | some _ =>
    [.mail { sender := "Code2Cloud <" ++ m.fromEmail ++ ">", recipient, subject, template }]

def sendDeploymentSuccess (recipient projectName deploymentUrl : String)
    (commitMessage authorName : Option String) : List Notice :=
  m.send recipient ("Deployment Successful: " ++ projectName)
    (.deploymentSuccess projectName deploymentUrl commitMessage authorName)

def sendDeploymentFailure (recipient projectName : String)
    (commitMessage authorName : Option String) : List Notice :=
  m.send recipient ("Deployment Failed: " ++ projectName)
    (.deploymentFailed projectName commitMessage authorName)

theorem mem_send {m : MailService} {recipient subject : String} {template : MailTemplate}
    {n : Notice} (h : n ∈ m.send recipient subject template) :
    ∃ mail, n = .mail mail ∧ mail.recipient = recipient := by
  rw [send] at h
  split at h
  · cases h
  · exact ⟨_, List.mem_singleton.mp h, rfl⟩

end MailService

namespace InternalService

open InternalController (DeploymentNotificationDto)

/-! ## Slack -/

def getStatusEmoji : DeploymentStatus → String
  | .queued => "⏳"
  | .building => "🔨"
  | .deploying => "🚀"
  | .ready => "✅"
  | .failed => "❌"
  | .canceled => "🚫"
  | .expired => "🧹"
  | .superseded => "♻️"

def getStatusColor : DeploymentStatus → String
  | .queued | .canceled => "#808080"
  | .building => "#FFA500"
  | .deploying => "#0000FF"
  | .ready => "#00FF00"
  | .failed => "#FF0000"
  | .expired => "#A52A2A"
  | .superseded => "#ff7b00"

def mrkdwn (text : String) : Json := .obj [("type", .str "mrkdwn"), ("text", .str text)]

/-- The name of who started the deployment, else the address. -/
def initiatedBy (initiator : Option Person) : String :=
  match initiator with
  | none => "System"
  | some x => ((truthy x.name) <|> truthy (some x.email)).getD "System"

def slackMessage (initiator : Option Person) (projectName : String)
    (dto : DeploymentNotificationDto) : Json :=
  .obj [("attachments", .arr [.obj [
    ("color", .str (getStatusColor dto.status)),
    ("blocks", .arr ([
      .obj [("type", .str "section"),
        ("text", mrkdwn (getStatusEmoji dto.status ++ " *Deployment " ++ dto.status.text ++
          "*\n*Project:* " ++ (truthy dto.projectName).getD projectName))],
      .obj [("type", .str "section"),
        ("fields", .arr [
          mrkdwn ("*Initiated by:*\n" ++ initiatedBy initiator),
          mrkdwn ("*URL:*\n" ++ (truthy dto.deploymentUrl).getD "N/A")])]] ++
      (truthy dto.message).toList.map fun message =>
        .obj [("type", .str "section"), ("text", mrkdwn ("*Message:* " ++ message))]))]])]

/-- A webhook that does not decrypt is passed over. -/
def slackNotices (e : EncryptionService) (config : Option SystemConfig)
    (initiator : Option Person) (projectName : String) (dto : DeploymentNotificationDto) :
    List Notice :=
  match config.bind fun c => truthy c.slackWebhook with
  | none => []
  | some stored =>
    match e.decrypt stored with
    | .error _ => []
    | .ok webhookUrl => [.slack webhookUrl (slackMessage initiator projectName dto)]

/-! ## Mail -/

def mailNotices (m : MailService) (config : Option SystemConfig) (initiator : Option Person)
    (projectName : String) (dto : DeploymentNotificationDto) : List Notice :=
  match initiator.bind fun x => truthy (some x.email) with
  | none => []
  | some recipientEmail =>
    let authorName := initiator.bind (·.name)
    (if config.any (·.emailDeploySuccess) && dto.status = .ready then
      m.sendDeploymentSuccess recipientEmail projectName (dto.deploymentUrl.getD "") dto.message
        authorName
    else []) ++
    if config.any (·.emailDeployFailed) && dto.status = .failed then
      m.sendDeploymentFailure recipientEmail projectName dto.message authorName
    else []

/-! ## The deployment -/

/-- What a notification sends, for a project of this name under these settings. -/
def notices (e : EncryptionService) (m : MailService) (config : Option SystemConfig)
    (initiator : Option Person) (projectName : String) (dto : DeploymentNotificationDto) :
    List Notice :=
  slackNotices e config initiator projectName dto ++ mailNotices m config initiator projectName dto

/-- `users` are the rows of the users.  A deployment whose project is missing cannot be read. -/
def sendDeploymentNotification (e : EncryptionService) (m : MailService)
    (users : UserId → Option Person) (ids : IdText) (db : Database)
    (dto : DeploymentNotificationDto) : Except HttpException (List Notice) :=
  match db.deployments.find? fun d => ids.text d.id == dto.deploymentId with
  | none => .error (.notFound "Deployment not found")
  | some d =>
    match db.findProject d.projectId with
    | none => .error .internal
    | some p =>
      .ok (notices e m (db.systemConfigOf p.userId) (d.initiatorId.bind users) p.name.val dto)

/-! ## Recipients -/

/-- The request goes where the owner of the settings wants to be told of such a status. -/
def AddressedTo (e : EncryptionService) (config : SystemConfig) (owner : Option Person)
    (status : DeploymentStatus) : Notice → Prop
  | .slack webhookUrl _ => ∃ stored, config.slackWebhook = some stored ∧ stored ≠ "" ∧
      e.decrypt stored = .ok webhookUrl
  | .mail mail => (∃ x, owner = some x ∧ mail.recipient = x.email) ∧
      (status = .ready ∧ config.emailDeploySuccess = true ∨
        status = .failed ∧ config.emailDeployFailed = true)

variable {e : EncryptionService} {m : MailService} {config : Option SystemConfig}
  {owner : Option Person} {projectName : String} {dto : DeploymentNotificationDto}

theorem addressedTo_of_mem {n : Notice} (h : n ∈ notices e m config owner projectName dto) :
    ∃ c, config = some c ∧ AddressedTo e c owner dto.status n := by
  rcases List.mem_append.mp h with h | h
  · rw [slackNotices] at h
    split at h
    · cases h
    · rename_i stored hstored
      obtain ⟨c, hc, hwebhook⟩ := Option.bind_eq_some_iff.mp hstored
      obtain ⟨hset, hnonempty⟩ := truthy_eq_some_iff.mp hwebhook
      split at h
      · cases h
      · rename_i webhookUrl hdecrypted
        rw [List.mem_singleton.mp h]
        exact ⟨c, hc, stored, hset, hnonempty, hdecrypted⟩
  · rw [mailNotices] at h
    split at h
    · cases h
    · rename_i recipientEmail hrecipient
      obtain ⟨x, hx, hemail⟩ := Option.bind_eq_some_iff.mp hrecipient
      have hto : x.email = recipientEmail := by
        simpa using (truthy_eq_some_iff.mp hemail).1
      rcases List.mem_append.mp h with h | h
      · split at h
        · rename_i hwanted
          rw [Bool.and_eq_true, Option.any_eq_true, decide_eq_true_eq] at hwanted
          obtain ⟨⟨c, hc, hswitch⟩, hready⟩ := hwanted
          obtain ⟨mail, rfl, hmail⟩ := MailService.mem_send h
          exact ⟨c, hc, ⟨x, hx, hmail.trans hto.symm⟩, Or.inl ⟨hready, hswitch⟩⟩
        · cases h
      · split at h
        · rename_i hwanted
          rw [Bool.and_eq_true, Option.any_eq_true, decide_eq_true_eq] at hwanted
          obtain ⟨⟨c, hc, hswitch⟩, hfailed⟩ := hwanted
          obtain ⟨mail, rfl, hmail⟩ := MailService.mem_send h
          exact ⟨c, hc, ⟨x, hx, hmail.trans hto.symm⟩, Or.inr ⟨hfailed, hswitch⟩⟩
        · cases h

end InternalService
end Api
end Code2Cloud
