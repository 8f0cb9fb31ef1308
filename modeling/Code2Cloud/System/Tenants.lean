import Code2Cloud.Api.Methods
import Code2Cloud.System.Commands

/-!
# Tenants

Users call the services' methods, which make their requests to one database in any order.  The rest
of the system, the worker and the webhooks, changes rows in between.
-/

namespace Code2Cloud
namespace System

open Api Worker
open Logs (LogEntry)

/-- The methods that users call. -/
inductive Operation
  -- DeploymentsService
  | createDeployment (projectId : ProjectId)
  | findDeployments
  | findDeploymentsByProject (projectId : ProjectId)
  | findDeployment (id : DeploymentId)
  | getLogs (id : DeploymentId) (options : Methods.DeploymentsService.LogsOptions)
  | updateStatus (id : DeploymentId) (status : DeploymentStatus)
  | cancel (id : DeploymentId)
  -- ProjectsService
  | createProject (dto : CreateProjectDto)
  | findProjects
  | findProject (id : ProjectId)
  | updateProject (id : ProjectId) (dto : UpdateProjectDto)
  | removeProject (id : ProjectId)
  -- DomainsService
  | createDomain (projectId : ProjectId) (domainName : DomainName)
  | findDomains (projectId : ProjectId)
  | removeDomain (id : DomainId)
  -- EnvVarsService
  | findEnvVars (projectId : ProjectId)
  | saveEnvVars (projectId : ProjectId) (items : List EnvVarItem)
  -- SettingsService
  | getConfig
  | updateConfig (dto : UpdateSettingsDto)
  -- AnalyticsService
  | getOverview
  | getProjectAnalytics (projectId : ProjectId)

inductive Running
  | call (c : Call) (value : Option Result)
  | method (m : Method)

/-- A method that was called, with the user the request's token names. -/
structure Session where
  user : UserId
  running : Running

/-- What a method returns or throws. -/
abbrev Answer := Except HttpException (Option Result)

structure Tenants where
  world : World
  logs : List LogEntry
  sessions : List Session
  answers : List (UserId × Answer)

structure Move where
  command : Command
  entries : List Entry := []
  next : Running ⊕ Answer

/-- Log lines go with their deployment. -/
def keptLogs (db : Database) (logs : List LogEntry) : List LogEntry :=
  logs.filter fun x => (db.findDeployment x.deploymentId).isSome

def storeOf (w : World) (logs : List LogEntry) : Store where
  db := w.db
  logs := keptLogs w.db logs
  now := w.now

/-! ## Methods that write -/

/-- The exception a method ends with. -/
def Flow.failure {σ : Type} : Flow σ → Option HttpException
  | .throw e => some e
  | _ => none

def Call.failure (cfg : Config) (w : World) (r : Reply) : Call → Option HttpException
  | .createDeployment c => (c.step cfg w r).next.failure
  | .cancel c => (c.step w r).next.failure
  | .updateStatus c => (c.step w r).next.failure
  | .push c => (c.step cfg w r).next.failure
  | .createProject c => (c.step cfg w r).next.failure
  | .updateProject c => (c.step w r).next.failure
  | .removeProject c => (c.step w r).next.failure
  | .createDomain c => (c.step w r).next.failure
  | .removeDomain c => (c.step w r).next.failure
  | .late _ => none

def Command.returned (cfg : Config) (w : World) (c : Command) : Option Result :=
  match c with
  | .createRedeployment d => some (.deployment d)
  | .writeStatus id _ => ((w.exec cfg c).db.findDeployment id).map .deployment
  | .updateProject id _ => ((w.exec cfg c).db.findProject id).map .project
  | .deleteProject id => (w.db.findProject id).map .project
  | .createDomain d => some (.domain d)
  | .deleteDomain id => (w.db.findDomain id).map .domain
  | _ => none

def Call.created : Call → Option ProjectId
  | .createProject (.commit draft) => some draft.project.id
  | _ => none

def Call.move (cfg : Config) (w : World) (r : Reply) (user : UserId) (c : Call)
    (value : Option Result) : Move :=
  let t := c.step cfg w r
  let value := t.command.returned cfg w <|> value
  { command := t.command
    entries := t.entries
    next :=
      match t.next with
      | some c => .inl (.call c value)
      | none =>
        match c.failure cfg w r with
        | some e => .inr (.error e)
        | none =>
          match c.created with
          | some id => .inl (.method (Methods.ProjectsService.findOne id user))
          | none => .inr (.ok value) }

/-! ## The other methods -/

/-- What a write does, unless a constraint of the tables refuses it. -/
def Write.command (cfg : Config) (db : Database) (r : Reply) : Write → Option Command
  | .saveAll projectId items =>
    if (db.findProject projectId).isSome ∧ (items.map (·.key)).Nodup then
      some (.replaceEnvironmentVariables projectId (EnvironmentVariables.encryptAll cfg.encryption
        r.ivs (items.map (EnvironmentVariables.plain projectId))))
    else none
  | .upsert userId dto =>
    some (.setSystemConfigs
      (SettingsService.upsert cfg.encryption (r.ivs 0) userId dto db.systemConfigs))

def moveMethod (cfg : Config) (w : World) (logs : List LogEntry) (r : Reply) : Method → Move
  | .pure a => { command := .skip, next := .inr (.ok (some a)) }
  | .throw e => { command := .skip, next := .inr (.error e) }
  | .query next =>
    { command := .skip
      next :=
        if r.outcome = .ok then .inl (.method (next (storeOf w logs)))
        else .inr (.error .internal) }
  | .write c next =>
    match Write.command cfg w.db r c with
    | none => { command := .skip, next := .inr (.error .internal) }
    | some command =>
      match r.outcome with
      | .ok => { command, next := .inl (.method (next (storeOf (w.exec cfg command) logs))) }
      | .lost => { command, next := .inr (.error .internal) }
      | .fail | .late => { command := .skip, next := .inr (.error .internal) }

def Session.move (cfg : Config) (w : World) (logs : List LogEntry) (r : Reply) (s : Session) :
    Move :=
  match s.running with
  | .call c value => c.move cfg w r s.user value
  | .method m => moveMethod cfg w logs r m

/-! ## Runs -/

section

variable (cfg : Config) (collation : String → String → Bool) (zone : AnalyticsService.Zone)

def Operation.start (now : Nat) (user : UserId) : Operation → Running
  | createDeployment projectId => .call (Request.createDeployment user projectId).start none
  | findDeployments => .method (Methods.DeploymentsService.findAll user)
  | findDeploymentsByProject projectId =>
    .method (Methods.DeploymentsService.findAllByProject user projectId)
  | findDeployment id => .method (Methods.DeploymentsService.findOne user id)
  | getLogs id options => .method (Methods.DeploymentsService.getLogs user id options)
  | updateStatus id status => .call (Request.updateStatus user id status).start none
  | cancel id => .call (Request.cancel user id).start none
  | createProject dto => .call (Request.createProject user dto).start none
  | findProjects => .method (Methods.ProjectsService.findAll cfg.encryption user)
  | findProject id => .method (Methods.ProjectsService.findOne id user)
  | updateProject id dto => .call (Request.updateProject id user dto).start none
  | removeProject id => .call (Request.removeProject id user).start none
  | createDomain projectId domainName =>
    .call (Request.createDomain user projectId domainName).start none
  | findDomains projectId => .method (Methods.DomainsService.findAll user projectId)
  | removeDomain id => .call (Request.removeDomain user id).start none
  | findEnvVars projectId =>
    .method (Methods.EnvVarsService.findAll cfg.encryption collation user projectId)
  | saveEnvVars projectId items => .method (Methods.EnvVarsService.saveAll user projectId items)
  | getConfig => .method (Methods.SettingsService.getConfig cfg.encryption user)
  | updateConfig dto => .method (Methods.SettingsService.updateConfig user dto)
  | getOverview => .method (Methods.AnalyticsService.getOverview zone now user)
  | getProjectAnalytics projectId =>
    .method (Methods.AnalyticsService.getProjectAnalytics zone now user projectId)

/-- What the worker, the webhooks and the linking of accounts may do: projects and domains come and
go by the users' own requests only. -/
def Command.ofSystem (w : World) : Command → Bool
  | .createDeployment d => d.id == w.db.nextId
  | .skip | .tick _ | .writeStatus _ _ | .setOnlineStatus _ _ | .updateDomainStatus _ _ _
  | .addBuildJob _ | .popBuildJob | .addProjectCleanupJob _ | .popProjectCleanup
  | .publishCancelSignal _ | .clearCancelSignal _ | .apply _ | .delete _ _
  | .updateIngressHosts _ _ | .startStreaming _ _ | .stopStreaming _ | .stopAll
  | .setGitAccounts _ | .shuffleDeployments _ => true
  | _ => false

namespace Tenants

inductive Event
  /-- A user calls a method. -/
  | call (user : UserId) (op : Operation)
  /-- The session at a position makes its next request. -/
  | go (i : Nat) (r : Reply)
  | system (c : Command)
  /-- The worker saves a log line. -/
  | log (x : LogEntry)

def after (x : Tenants) (i : Nat) (user : UserId) (m : Move) : Tenants :=
  let world := (x.world.exec cfg m.command).record m.entries
  let logs := keptLogs world.db x.logs
  match m.next with
  | .inl running =>
    { x with world, logs, sessions := x.sessions.set i { user, running } }
  | .inr answer =>
    { world, logs, sessions := x.sessions.eraseIdx i, answers := x.answers ++ [(user, answer)] }

def step (x : Tenants) : Event → Option Tenants
  | .call user op =>
    let running := op.start cfg collation zone x.world.now user
    some { x with sessions := x.sessions ++ [{ user, running }] }
  | .go i r =>
    match x.sessions[i]? with
    | none => none
    | some s =>
      let m := s.move cfg x.world x.logs r
      if x.world.blocks m.command then none else some (x.after cfg i s.user m)
  | .system c =>
    if c.ofSystem x.world && x.world.admits c then
      some { x with world := x.world.exec cfg c, logs := keptLogs (x.world.exec cfg c).db x.logs }
    else none
  | .log line =>
    if (x.world.db.findDeployment line.deploymentId).isSome then
      some { x with logs := x.logs ++ [line] }
    else none

end Tenants
end

end System
end Code2Cloud
