import Code2Cloud.Api.Schema
import Code2Cloud.Base.Table
import Mathlib.Data.List.Sort

/-!
# The database

The tables, the queries the services make, and the writes.  A transaction that has
not committed yet keeps its rows apart as a draft.
-/

namespace Code2Cloud
namespace Api

/-- The rows that the transaction of `ProjectsService.create` inserts. -/
structure Draft where
  project : Project
  environmentVariables : List EnvironmentVariable
  deployment : Deployment
  domain : Domain
  /-- The first deployment waits for the worker. -/
  queued : deployment.status = .queued
  deriving DecidableEq

structure Database where
  projects : List Project
  environmentVariables : List EnvironmentVariable
  deployments : List Deployment
  domains : List Domain
  gitAccounts : List GitAccount
  systemConfigs : List SystemConfig
  /-- Rows of open transactions. -/
  drafts : List Draft
  /-- The next fresh identifier. -/
  nextId : Nat
  deriving DecidableEq

namespace Database

def empty : Database where
  projects := []
  environmentVariables := []
  deployments := []
  domains := []
  gitAccounts := []
  systemConfigs := []
  drafts := []
  nextId := 1

/-! ## Queries -/

variable (db : Database)

def findProject (id : ProjectId) : Option Project := db.projects.find? fun p => p.id == id

/-- `findFirst({ where: { id, userId } })` -/
def findOwnedProject (id : ProjectId) (userId : UserId) : Option Project :=
  db.projects.find? fun p => p.id == id && p.userId == userId

def findDeployment (id : DeploymentId) : Option Deployment :=
  db.deployments.find? fun d => d.id == id

/-- `findFirst({ where: { id, project: { userId } } })` -/
def findOwnedDeployment (id : DeploymentId) (userId : UserId) : Option Deployment :=
  db.deployments.find? fun d => d.id == id && (db.findOwnedProject d.projectId userId).isSome

def findDomain (id : DomainId) : Option Domain := db.domains.find? fun d => d.id == id

def findOwnedDomain (id : DomainId) (userId : UserId) : Option Domain :=
  db.domains.find? fun d => d.id == id && (db.findOwnedProject d.projectId userId).isSome

def gitAccountsOf (userId : UserId) : List GitAccount :=
  db.gitAccounts.filter fun a => a.userId == userId

def systemConfigOf (userId : UserId) : Option SystemConfig :=
  db.systemConfigs.find? fun c => c.userId == userId

def environmentVariablesOf (id : ProjectId) : List EnvironmentVariable :=
  db.environmentVariables.filter fun v => v.projectId == id

/-- A project's domains, oldest first. -/
def domainsOf (id : ProjectId) : List Domain :=
  (db.domains.filter fun d => d.projectId == id).insertionSort fun a b => a.createdAt ≤ b.createdAt

def deploymentsOf (id : ProjectId) : List Deployment :=
  db.deployments.filter fun d => d.projectId == id

/-- `orderBy: { startedAt: 'desc' }`, first row: of rows that started together the
database may return any, here the first in the table. -/
def latest : List Deployment → Option Deployment
  | [] => none
  | d :: ds =>
    match latest ds with
    | none => some d
    | some e => if d.startedAt < e.startedAt then some e else some d

theorem mem_of_latest {ds : List Deployment} {d : Deployment} (h : latest ds = some d) :
    d ∈ ds := by
  induction ds generalizing d with
  | nil => simp [latest] at h
  | cons e ds ih =>
    rw [latest] at h
    cases hl : latest ds with
    | none =>
      rw [hl] at h
      cases h
      exact List.mem_cons_self
    | some f =>
      simp only [hl] at h
      split at h
      · cases h
        exact List.mem_cons_of_mem e (ih hl)
      · cases h
        exact List.mem_cons_self

/-- A row that started later than all others is the latest. -/
theorem latest_eq_some {ds : List Deployment} {d : Deployment} (hd : d ∈ ds)
    (h : ∀ e ∈ ds, e = d ∨ e.startedAt < d.startedAt) : latest ds = some d := by
  induction ds with
  | nil => cases hd
  | cons e ds ih =>
    have hrest : ∀ f ∈ ds, f = d ∨ f.startedAt < d.startedAt :=
      fun f hf => h f (List.mem_cons_of_mem e hf)
    rw [latest]
    rcases List.mem_cons.mp hd with rfl | hd
    · cases hl : latest ds with
      | none => rfl
      | some f =>
        dsimp only
        rcases hrest f (mem_of_latest hl) with rfl | hlt
        · exact ite_self _
        · exact if_neg (Nat.lt_asymm hlt)
    · rw [ih hd hrest]
      dsimp only
      rcases h e List.mem_cons_self with rfl | hlt
      · exact ite_self _
      · exact if_pos hlt

/-! ## Writes -/

/-- The unique constraints a draft's inserts meet among the committed rows. -/
def admitsDraft (draft : Draft) : Bool :=
  db.projects.all (fun p => p.name != draft.project.name) &&
    db.domains.all (fun d => d.name != draft.domain.name) &&
    decide (draft.environmentVariables.map (·.key)).Nodup

/-- An insert waits while an open transaction holds a row with the same key. -/
def holdsProjectName (name : ProjectName) : Bool :=
  db.drafts.any fun draft => draft.project.name == name

def holdsDomainName (name : String) : Bool := db.drafts.any fun draft => draft.domain.name == name

def openDraft (draft : Draft) : Database :=
  { db with drafts := db.drafts ++ [draft], nextId := db.nextId + 3 }

def closeDraft (id : ProjectId) : Database :=
  { db with drafts := db.drafts.filter fun draft => draft.project.id != id }

def insertDraft (draft : Draft) : Database :=
  { db with
    projects := db.projects ++ [draft.project]
    environmentVariables := db.environmentVariables ++ draft.environmentVariables
    deployments := db.deployments ++ [draft.deployment]
    domains := db.domains ++ [draft.domain] }

def updateProject (id : ProjectId) (f : Project → Project) : Database :=
  { db with projects := db.projects.map fun p => if p.id = id then f p else p }

def createDeployment (d : Deployment) : Database :=
  { db with deployments := db.deployments ++ [d], nextId := db.nextId + 1 }

def updateDeployment (id : DeploymentId) (f : Deployment → Deployment) : Database :=
  { db with deployments := db.deployments.map fun d => if d.id = id then f d else d }

def createDomain (d : Domain) : Database :=
  { db with domains := db.domains ++ [d], nextId := db.nextId + 1 }

def updateDomain (id : DomainId) (f : Domain → Domain) : Database :=
  { db with domains := db.domains.map fun d => if d.id = id then f d else d }

def deleteDomain (id : DomainId) : Database :=
  { db with domains := db.domains.filter fun d => d.id != id }

/-- `deleteMany` and `createMany` of a project's variables. -/
def replaceEnvironmentVariables (id : ProjectId) (rows : List EnvironmentVariable) : Database :=
  { db with
    environmentVariables := db.environmentVariables.filter (fun v => v.projectId != id) ++ rows }

def deleteProject (id : ProjectId) : Database :=
  { db with
    projects := db.projects.filter fun p => p.id != id
    environmentVariables := db.environmentVariables.filter fun v => v.projectId != id
    deployments := db.deployments.filter fun d => d.projectId != id
    domains := db.domains.filter fun d => d.projectId != id }

end Database

/-! ## The writers of a deployment's status -/

/-- A `deployment.update` that sets the status, by the method that issues it. -/
inductive StatusWrite
  /-- `InternalService.updateDeploymentStatus` -/
  | updateDeploymentStatus (dto : UpdateDeploymentStatusDto)
  /-- `InternalService.deleteDeploymentResources` -/
  | deleteDeploymentResources
  /-- `DeploymentsService.cancel` -/
  | cancel
  /-- `DeploymentsService.updateStatus` -/
  | updateStatus (status : DeploymentStatus)
  /-- `WebhooksService.triggerDeployment` -/
  | webhookCancel
  deriving DecidableEq

namespace StatusWrite

def status : StatusWrite → DeploymentStatus
  | updateDeploymentStatus dto => dto.status
  | deleteDeploymentResources | cancel | webhookCancel => .canceled
  | updateStatus status => status

/-- A field sent as an optional text: an empty one counts as absent. -/
def given (text : Option String) (stored : Option String) : Option String :=
  match text with
  | some t => if t.isEmpty then stored else some t
  | none => stored

/-- `Math.floor((Date.now() - startedAt) / 1000)` -/
def durationAt (now : Nat) (d : Deployment) : Nat := (now - d.startedAt) / 1000

def apply (now : Nat) (d : Deployment) : StatusWrite → Deployment
  | updateDeploymentStatus dto =>
    let finished := [.ready, .failed, .canceled].contains dto.status
    { d with
      status := dto.status
      containerImage := given dto.containerImage d.containerImage
      deploymentUrl := given dto.deploymentUrl d.deploymentUrl
      finishedAt := if finished then some now else d.finishedAt
      duration := if finished then some (durationAt now d) else d.duration
      isSuccess := d.isSuccess || dto.status == .ready }
  | deleteDeploymentResources => { d with status := .canceled, finishedAt := some now }
  | cancel =>
    { d with status := .canceled, finishedAt := some now, duration := some (durationAt now d) }
  | updateStatus status => { d with status }
  | webhookCancel => { d with status := .canceled }

@[simp] theorem apply_status (now : Nat) (d : Deployment) (w : StatusWrite) :
    (w.apply now d).status = w.status := by
  cases w <;> rfl

@[simp] theorem apply_id (now : Nat) (d : Deployment) (w : StatusWrite) :
    (w.apply now d).id = d.id := by
  cases w <;> rfl

@[simp] theorem apply_projectId (now : Nat) (d : Deployment) (w : StatusWrite) :
    (w.apply now d).projectId = d.projectId := by
  cases w <;> rfl

@[simp] theorem apply_startedAt (now : Nat) (d : Deployment) (w : StatusWrite) :
    (w.apply now d).startedAt = d.startedAt := by
  cases w <;> rfl

end StatusWrite
end Api
end Code2Cloud
