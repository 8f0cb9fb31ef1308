import Code2Cloud.Api.Methods
import Code2Cloud.Base.Register

/-!
# Deeds

Which user a row belongs to.  A row keeps its identifier and its project, a project keeps its user,
and no identifier is used twice: what is noted of a row when it appears stays true.
-/

namespace Code2Cloud
namespace Api

inductive RowKey
  | user (id : UserId)
  | project (id : ProjectId)
  | deployment (id : DeploymentId)
  | domain (id : DomainId)
  deriving DecidableEq

structure Deeds where
  project : Register ProjectId UserId
  deployment : Register DeploymentId ProjectId
  domain : Register DomainId ProjectId

namespace Deeds

/-- Later deeds have all entries of earlier ones. -/
instance : Preorder Deeds where
  le δ δ' := δ.project.Extends δ'.project ∧ δ.deployment.Extends δ'.deployment ∧
    δ.domain.Extends δ'.domain
  le_refl _ := ⟨fun _ _ h => h, fun _ _ h => h, fun _ _ h => h⟩
  le_trans _ _ _ h h' :=
    ⟨fun _ _ hk => h'.1 _ _ (h.1 _ _ hk), fun _ _ hk => h'.2.1 _ _ (h.2.1 _ _ hk),
      fun _ _ hk => h'.2.2 _ _ (h.2.2 _ _ hk)⟩

def owner (δ : Deeds) : RowKey → Option UserId
  | .user id => some id
  | .project id => δ.project id
  | .deployment id => (δ.deployment id).bind δ.project
  | .domain id => (δ.domain id).bind δ.project

variable {δ δ' : Deeds} {u v : UserId}

theorem owner_mono (h : δ ≤ δ') {k : RowKey} (hk : δ.owner k = some u) : δ'.owner k = some u := by
  cases k with
  | user id => exact hk
  | project id => exact h.1 _ _ hk
  | deployment id =>
    obtain ⟨p, hp, hu⟩ := Option.bind_eq_some_iff.mp hk
    exact Option.bind_eq_some_iff.mpr ⟨p, h.2.1 _ _ hp, h.1 _ _ hu⟩
  | domain id =>
    obtain ⟨p, hp, hu⟩ := Option.bind_eq_some_iff.mp hk
    exact Option.bind_eq_some_iff.mpr ⟨p, h.2.2 _ _ hp, h.1 _ _ hu⟩

end Deeds

/-! ## The tables -/

structure Draft.Whole (t : Draft) : Prop where
  environmentVariables : ∀ v ∈ t.environmentVariables, v.projectId = t.project.id
  deployment : t.deployment.projectId = t.project.id
  domain : t.domain.projectId = t.project.id

namespace Database

variable (db : Database)

def everyProject : List Project := db.projects ++ db.drafts.map (·.project)

def everyDeployment : List Deployment := db.deployments ++ db.drafts.map (·.deployment)

def everyDomain : List Domain := db.domains ++ db.drafts.map (·.domain)

def HasProject (id : ProjectId) : Prop := ∃ p ∈ db.projects, p.id = id

structure Linked : Prop where
  environmentVariables : ∀ v ∈ db.environmentVariables, db.HasProject v.projectId
  deployments : ∀ d ∈ db.deployments, db.HasProject d.projectId
  domains : ∀ d ∈ db.domains, db.HasProject d.projectId

/-- The rows of one user.  The counter is left out, since identifiers are drawn for all users. -/
def own (u : UserId) : Database where
  projects := db.projects.filter fun p => p.userId == u
  environmentVariables :=
    db.environmentVariables.filter fun v => (db.findOwnedProject v.projectId u).isSome
  deployments := db.deploymentsOfUser u
  domains := db.domains.filter fun d => (db.findOwnedProject d.projectId u).isSome
  gitAccounts := db.gitAccountsOf u
  systemConfigs := db.systemConfigs.filter fun c => c.userId == u
  drafts := db.drafts.filter fun t => t.project.userId == u
  nextId := 0

/-- The rows of one user by the deeds. -/
def ownBy (δ : Deeds) (u : UserId) : Database where
  projects := db.projects.filter fun p => δ.project p.id == some u
  environmentVariables := db.environmentVariables.filter fun v => δ.project v.projectId == some u
  deployments := db.deployments.filter fun d => δ.project d.projectId == some u
  domains := db.domains.filter fun d => δ.project d.projectId == some u
  gitAccounts := db.gitAccountsOf u
  systemConfigs := db.systemConfigs.filter fun c => c.userId == u
  drafts := db.drafts.filter fun t => t.project.userId == u
  nextId := 0

end Database

namespace Deeds

def extend (δ : Deeds) (db : Database) : Deeds where
  project := δ.project.note (·.id) (·.userId) db.everyProject
  deployment := δ.deployment.note (·.id) (·.projectId) db.everyDeployment
  domain := δ.domain.note (·.id) (·.projectId) db.everyDomain

def ofDatabase (db : Database) : Deeds :=
  extend { project := fun _ => none, deployment := fun _ => none, domain := fun _ => none } db

theorem le_extend (δ : Deeds) (db : Database) : δ ≤ δ.extend db :=
  ⟨Register.extends_note, Register.extends_note, Register.extends_note⟩

structure Covers (δ : Deeds) (db : Database) : Prop where
  projects : δ.project.Lists (·.id) (·.userId) db.everyProject
  deployments : δ.deployment.Lists (·.id) (·.projectId) db.everyDeployment
  domains : δ.domain.Lists (·.id) (·.projectId) db.everyDomain
  projectsBelow : δ.project.Below db.nextId
  deploymentsBelow : δ.deployment.Below db.nextId
  domainsBelow : δ.domain.Below db.nextId
  drafts : ∀ t ∈ db.drafts, t.Whole
  linked : db.Linked

structure Holds (δ : Deeds) (t : Draft) : Prop where
  project : δ.project t.project.id = some t.project.userId
  deployment : δ.deployment t.deployment.id = some t.deployment.projectId
  domain : δ.domain t.domain.id = some t.domain.projectId
  whole : t.Whole

variable {δ δ' : Deeds} {db : Database} {u v : UserId} {id : ProjectId}

theorem Holds.mono {t : Draft} (h : δ.Holds t) (hδ : δ ≤ δ') : δ'.Holds t where
  project := hδ.1 _ _ h.project
  deployment := hδ.2.1 _ _ h.deployment
  domain := hδ.2.2 _ _ h.domain
  whole := h.whole

namespace Covers

variable (h : δ.Covers db)
include h

theorem project {p : Project} (hp : p ∈ db.projects) : δ.project p.id = some p.userId :=
  h.projects p (List.mem_append_left _ hp)

theorem deployment {d : Deployment} (hd : d ∈ db.deployments) :
    δ.deployment d.id = some d.projectId :=
  h.deployments d (List.mem_append_left _ hd)

theorem domain {d : Domain} (hd : d ∈ db.domains) : δ.domain d.id = some d.projectId :=
  h.domains d (List.mem_append_left _ hd)

theorem draft {t : Draft} (ht : t ∈ db.drafts) : δ.Holds t where
  project := h.projects _ (List.mem_append_right _ (List.mem_map_of_mem ht))
  deployment := h.deployments _ (List.mem_append_right _ (List.mem_map_of_mem ht))
  domain := h.domains _ (List.mem_append_right _ (List.mem_map_of_mem ht))
  whole := h.drafts t ht

theorem isSome_findOwnedProject (hid : db.HasProject id) :
    (db.findOwnedProject id u).isSome = (δ.project id == some u) := by
  obtain ⟨p, hp, rfl⟩ := hid
  rw [Bool.eq_iff_iff, Database.findOwnedProject, List.find?_isSome, beq_iff_eq]
  constructor
  · rintro ⟨q, hq, hqp⟩
    rw [Bool.and_eq_true, beq_iff_eq, beq_iff_eq] at hqp
    rw [← hqp.1, h.project hq, hqp.2]
  · intro hu
    refine ⟨p, hp, ?_⟩
    rw [h.project hp, Option.some.injEq] at hu
    simp [hu]

/-- The deeds and the tables agree on which rows a user owns. -/
theorem own_eq : db.own u = db.ownBy δ u := by
  have hprojects : (db.projects.filter fun p => p.userId == u) =
      db.projects.filter fun p => δ.project p.id == some u := by
    refine List.filter_congr fun p hp => ?_
    rw [h.project hp, Option.some_beq_some]
  rw [Database.own, Database.ownBy, hprojects]
  congr 1
  · exact List.filter_congr fun v hv =>
      h.isSome_findOwnedProject (h.linked.environmentVariables v hv)
  · exact List.filter_congr fun d hd => h.isSome_findOwnedProject (h.linked.deployments d hd)
  · exact List.filter_congr fun d hd => h.isSome_findOwnedProject (h.linked.domains d hd)

end Covers
end Deeds
end Api
end Code2Cloud
