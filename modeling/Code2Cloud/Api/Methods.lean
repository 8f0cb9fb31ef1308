import Code2Cloud.Api.Analytics
import Code2Cloud.Api.Logs
import Code2Cloud.Api.Projects
import Code2Cloud.Api.Settings
import Code2Cloud.Base.Resumption

/-!
# The services' other methods

The methods that list and show a user's rows, and those that save variables and settings: one
request to the database after another, each of which finds it as it is by then.
-/

namespace Code2Cloud
namespace Api

open Logs AnalyticsService

/-- What a method reads: the tables, and the clock. -/
structure Store where
  db : Database
  logs : List LogEntry
  now : Nat

/-- What a method writes, in one transaction. -/
inductive Write
  | saveAll (projectId : ProjectId) (items : List EnvVarItem)
  | upsert (userId : UserId) (dto : UpdateSettingsDto)

/-! ## Returned values -/

/-- A deployment with the fields of its project that the dashboard shows. -/
structure DeploymentView where
  deployment : Deployment
  projectName : ProjectName
  framework : String
  deriving DecidableEq

/-- A project with the rows `ProjectsService.findOne` includes; the variables stay encrypted. -/
structure ProjectDetails where
  project : Project
  envVars : List EnvironmentVariable
  domains : List Domain
  deployments : List Deployment
  deriving DecidableEq

inductive Result
  | deployment (d : Deployment)
  | project (p : Project)
  | domain (d : Domain)
  | deployments (views : List DeploymentView)
  | history (rows : List Deployment)
  | deploymentDetails (d : Deployment) (p : Project)
  | logs (page : LogsPage)
  | projects (views : List ProjectsService.ProjectView)
  | projectDetails (p : ProjectDetails)
  | domains (rows : List Domain)
  | envVars (rows : List EnvironmentVariable)
  | saved (count : Nat)
  | settings (c : SystemConfig)
  | overview (o : Overview)
  | projectAnalytics (a : ProjectAnalytics)

abbrev Method := Resumption Store Write HttpException Result

namespace Database

variable (db : Database)

/-- `where: { project: { userId } }` -/
def deploymentsOfUser (userId : UserId) : List Deployment :=
  db.deployments.filter fun d => (db.findOwnedProject d.projectId userId).isSome

/-- `orderBy: { startedAt: 'desc' }`: rows that started together stay as the table has them. -/
def latestFirst (ds : List Deployment) : List Deployment :=
  ds.insertionSort fun a b => b.startedAt ≤ a.startedAt

/-- `include: { project: { select: { name, framework } } }` -/
def deploymentViews (ds : List Deployment) : List DeploymentView :=
  ds.filterMap fun d => (db.findProject d.projectId).map fun p =>
    { deployment := d, projectName := p.name, framework := p.framework }

end Database

/-- `findFirst({ where: { id, userId } })`, or an error where there is none. -/
def ownedProject (projectId : ProjectId) (userId : UserId) (st : Store) :
    Except HttpException Project :=
  match st.db.findOwnedProject projectId userId with
  | none => .error (.notFound "Project not found")
  | some p => .ok p

def ownedDeployment (id : DeploymentId) (userId : UserId) (st : Store) :
    Except HttpException Deployment :=
  match st.db.findOwnedDeployment id userId with
  | none => .error (.notFound "Deployment not found")
  | some d => .ok d

namespace Methods

/-! ## DeploymentsService -/

namespace DeploymentsService

def findAll (userId : UserId) : Method :=
  .read (fun st => .ok (st.db.deploymentViews
    ((Database.latestFirst (st.db.deploymentsOfUser userId)).take 10)))
    fun views => .pure (.deployments views)

def findAllByProject (userId : UserId) (projectId : ProjectId) : Method :=
  .read (ownedProject projectId userId) fun _ =>
    .read (fun st => .ok ((Database.latestFirst (st.db.deploymentsOf projectId)).take 20))
      fun rows => .pure (.history rows)

def findOne (userId : UserId) (id : DeploymentId) : Method :=
  .read
    (fun st =>
      match st.db.findOwnedDeployment id userId with
      | none => .error (.notFound "Deployment not found")
      | some d => .ok ((st.db.findProject d.projectId).map fun p => (d, p)))
    fun found =>
      match found with
      | none => .throw .internal
      | some (d, p) => .pure (.deploymentDetails d p)

structure LogsOptions where
  source : Option LogSource := none
  after : Option Nat := none
  /-- 0 where there is none; a number below 0 takes rows from the end. -/
  limit : Int := 0

/-- `Math.min(options.limit || 200, 500)` -/
def takeOf (options : LogsOptions) : Int :=
  min (if options.limit = 0 then 200 else options.limit) 500

def takeRows (take : Int) (rows : List LogEntry) : List LogEntry :=
  if 0 ≤ take then rows.take take.toNat else rows.drop (rows.length - take.natAbs)

def logRows (id : DeploymentId) (options : LogsOptions) (st : Store) : List LogEntry :=
  takeRows (takeOf options)
    ((st.logs.filter fun x => (Viewer.mk id options.source).follows x && later options.after x)
      |>.insertionSort fun a b => a.timestamp ≤ b.timestamp)

def getLogs (userId : UserId) (id : DeploymentId) (options : LogsOptions) : Method :=
  .read (ownedDeployment id userId) fun d =>
    .read (fun st => .ok (logRows id options st)) fun logs =>
      .pure (.logs
        { logs
          nextCursor := logs.getLast?.map (·.timestamp)
          hasMore := decide ((logs.length : Int) = takeOf options)
          status := d.status
          isLive := d.status.inProgress })

end DeploymentsService

/-! ## ProjectsService -/

namespace ProjectsService

variable (e : EncryptionService)

def findAll (userId : UserId) : Method :=
  .read (fun st => Api.ProjectsService.findAll e st.db userId) fun views => .pure (.projects views)

def details (db : Database) (p : Project) : ProjectDetails :=
  { project := p
    envVars := db.environmentVariablesOf p.id
    domains := db.domains.filter fun d => d.projectId == p.id
    deployments := (Database.latestFirst (db.deploymentsOf p.id)).take 5 }

def findOne (id : ProjectId) (userId : UserId) : Method :=
  .read (fun st => (ownedProject id userId st).map (details st.db)) fun found =>
    .pure (.projectDetails found)

end ProjectsService

/-! ## DomainsService -/

namespace DomainsService

def findAll (userId : UserId) (projectId : ProjectId) : Method :=
  .read (ownedProject projectId userId) fun _ =>
    .read
      (fun st => .ok ((st.db.domains.filter fun d => d.projectId == projectId).insertionSort
        fun a b => b.createdAt ≤ a.createdAt))
      fun rows => .pure (.domains rows)

end DomainsService

/-! ## EnvVarsService -/

namespace EnvVarsService

variable (e : EncryptionService) (collation : String → String → Bool)

def findAll (userId : UserId) (projectId : ProjectId) : Method :=
  .read (ownedProject projectId userId) fun _ =>
    .read
      (fun st => EnvironmentVariables.decryptAll e
        (EnvironmentVariables.orderByKey collation (st.db.environmentVariablesOf projectId)))
      fun rows => .pure (.envVars rows)

def saveAll (userId : UserId) (projectId : ProjectId) (items : List EnvVarItem) : Method :=
  .read (ownedProject projectId userId) fun _ =>
    .write (.saveAll projectId items) fun _ => .pure (.saved items.length)

end EnvVarsService

/-! ## SettingsService -/

namespace SettingsService

variable (e : EncryptionService)

def getConfig (userId : UserId) : Method :=
  .write (.upsert userId {}) fun st =>
    match st.db.systemConfigOf userId with
    | none => .throw .internal
    | some c =>
      match Api.SettingsService.decrypted e c with
      | .error err => .throw err
      | .ok c => .pure (.settings c)

def updateConfig (userId : UserId) (dto : UpdateSettingsDto) : Method :=
  .write (.upsert userId dto) fun st =>
    match st.db.systemConfigOf userId with
    | none => .throw .internal
    | some c => .pure (.settings c)

end SettingsService

/-! ## AnalyticsService -/

namespace AnalyticsService

/-- `now - days`, where `now` is the time at which the method was called. -/
def daysBefore (now days : Nat) : Nat := now - days * dayMs

/-- The queries of `Promise.all` go in the order in which they are issued. -/
def getOverview (zone : Zone) (now : Nat) (userId : UserId) : Method :=
  .read (fun st => .ok (st.db.deploymentsOfUser userId).length) fun totalDeployments =>
  .read (fun st => .ok (st.db.projects.filter fun p => p.userId == userId).length)
    fun totalProjects =>
  .read (fun st => .ok (recentDeployments (st.db.deploymentsOfUser userId)
    (daysBefore now 7)).length) fun deploymentsThisWeek =>
  .read (fun st => .ok (Api.AnalyticsService.statusDistribution (st.db.deploymentsOfUser userId)))
    fun statusDistribution =>
  .read (fun st => .ok (recentDeployments (st.db.deploymentsOfUser userId)
    (daysBefore now 30))) fun recent =>
  .read (fun st => .ok (projectDeploymentCounts (recentDeployments
    (st.db.deploymentsOfUser userId) (daysBefore now 30)))) fun counts =>
  .read (fun st => .ok (st.db.projects.filter fun p => (counts.map (·.1)).contains p.id))
    fun projects =>
  .pure (.overview
    { totalDeployments
      totalProjects
      deploymentsThisWeek
      avgBuildTime := avgBuildTime recent
      successRate := Api.AnalyticsService.successRate recent
      deploymentsOverTime := groupByDay zone recent (daysBefore now 30) now
      statusDistribution
      deploymentsByProject := deploymentsByProject projects counts
      buildTimeTrend := computeBuildTimeTrend zone recent (daysBefore now 30) now })

def getProjectAnalytics (zone : Zone) (now : Nat) (userId : UserId) (projectId : ProjectId) :
    Method :=
  .read (ownedProject projectId userId) fun p =>
  .read (fun st => .ok (st.db.deploymentsOf projectId).length) fun totalDeployments =>
  .read (fun st => .ok (recentDeployments (st.db.deploymentsOf projectId)
    (daysBefore now 7)).length) fun deploymentsThisWeek =>
  .read (fun st => .ok (Api.AnalyticsService.statusDistribution (st.db.deploymentsOf projectId)))
    fun statusDistribution =>
  .read (fun st => .ok (recentDeployments (st.db.deploymentsOf projectId) (daysBefore now 30)))
    fun recent =>
  .pure (.projectAnalytics
    { projectId := p.id
      projectName := p.name
      framework := p.framework
      totalDeployments
      deploymentsThisWeek
      avgBuildTime := avgBuildTime recent
      successRate := Api.AnalyticsService.successRate recent
      fastestBuild := (buildTimes recent).min?.getD 0
      slowestBuild := (buildTimes recent).max?.getD 0
      statusDistribution
      deploymentsOverTime := groupByDay zone recent (daysBefore now 30) now
      buildTimeTrend := computeBuildTimeTrend zone recent (daysBefore now 30) now
      recentActivity := (recent.take 10).map activityOf })

end AnalyticsService
end Methods
end Api
end Code2Cloud
