import Code2Cloud.Api.Deeds

/-!
# Discretion

What the methods of a user read is a function of the user's rows, and what they return are rows of
the user, whatever happens to the tables between two requests.
-/

namespace Code2Cloud
namespace Api

open Logs AnalyticsService

variable {δ : Deeds} {u : UserId}

/-! ## Queries -/

namespace Database

variable {db : Database} {id : ProjectId}

@[simp] theorem findOwnedProject_own :
    (db.own u).findOwnedProject id u = db.findOwnedProject id u :=
  Table.find?_filter_and (fun p : Project => p.userId == u) fun p => p.id == id

theorem findDeployment_own {id : DeploymentId} :
    (db.own u).findDeployment id = db.findOwnedDeployment id u :=
  Table.find?_filter_eq _ _

@[simp] theorem findOwnedDeployment_own {id : DeploymentId} :
    (db.own u).findOwnedDeployment id u = db.findOwnedDeployment id u := by
  rw [findOwnedDeployment]
  simp only [findOwnedProject_own]
  exact Table.find?_filter_and _ _

@[simp] theorem findOwnedDomain_own {id : DomainId} :
    (db.own u).findOwnedDomain id u = db.findOwnedDomain id u := by
  rw [findOwnedDomain]
  simp only [findOwnedProject_own]
  exact Table.find?_filter_and _ _

@[simp] theorem deploymentsOfUser_own :
    (db.own u).deploymentsOfUser u = db.deploymentsOfUser u := by
  rw [deploymentsOfUser]
  simp only [findOwnedProject_own]
  exact Table.filter_filter_self _

@[simp] theorem projects_own :
    ((db.own u).projects.filter fun p => p.userId == u) =
      db.projects.filter fun p => p.userId == u :=
  Table.filter_filter_self _

@[simp] theorem gitAccountsOf_own : (db.own u).gitAccountsOf u = db.gitAccountsOf u :=
  Table.filter_filter_self _

@[simp] theorem systemConfigOf_own : (db.own u).systemConfigOf u = db.systemConfigOf u := by
  rw [systemConfigOf, own, Table.find?_filter_eq]
  simp only [Bool.and_self]
  rfl

end Database

namespace Deeds.Covers

variable {db : Database} {id : ProjectId}

theorem filter_own {α : Type} {key : α → ProjectId} (rows : List α) (hid : δ.project id = some u) :
    ((rows.filter fun a => δ.project (key a) == some u).filter fun a => key a == id) =
      rows.filter fun a => key a == id := by
  rw [List.filter_filter]
  refine List.filter_congr fun a _ => ?_
  by_cases ha : key a = id
  · simp [ha, hid]
  · simp [ha]

variable (h : δ.Covers db)
include h

theorem findProject_own (hid : δ.project id = some u) :
    (db.own u).findProject id = db.findProject id := by
  rw [h.own_eq, Database.findProject, Database.findProject, Database.ownBy, ← List.head?_filter,
    ← List.head?_filter, filter_own db.projects hid]

theorem deploymentsOf_own (hid : δ.project id = some u) :
    (db.own u).deploymentsOf id = db.deploymentsOf id := by
  rw [h.own_eq]
  exact filter_own db.deployments hid

theorem environmentVariablesOf_own (hid : δ.project id = some u) :
    (db.own u).environmentVariablesOf id = db.environmentVariablesOf id := by
  rw [h.own_eq]
  exact filter_own db.environmentVariables hid

theorem domains_own (hid : δ.project id = some u) :
    ((db.own u).domains.filter fun d => d.projectId == id) =
      db.domains.filter fun d => d.projectId == id := by
  rw [h.own_eq]
  exact filter_own db.domains hid

/-! ## Found rows -/

theorem of_findOwnedProject {p : Project} (hp : db.findOwnedProject id u = some p) :
    p.id = id ∧ p.userId = u ∧ δ.project id = some u := by
  have hfound := List.find?_some hp
  rw [Bool.and_eq_true, beq_iff_eq, beq_iff_eq] at hfound
  have hproject := h.project (List.mem_of_find?_eq_some hp)
  rw [hfound.1, hfound.2] at hproject
  exact ⟨hfound.1, hfound.2, hproject⟩

theorem of_findOwnedDeployment {id : DeploymentId} {d : Deployment}
    (hd : db.findOwnedDeployment id u = some d) :
    d.id = id ∧ δ.deployment id = some d.projectId ∧ δ.project d.projectId = some u := by
  have hfound := List.find?_some hd
  rw [Bool.and_eq_true, beq_iff_eq, Option.isSome_iff_exists] at hfound
  obtain ⟨hid, p, hp⟩ := hfound
  exact ⟨hid, hid ▸ h.deployment (List.mem_of_find?_eq_some hd), (h.of_findOwnedProject hp).2.2⟩

theorem of_findOwnedDomain {id : DomainId} {d : Domain} (hd : db.findOwnedDomain id u = some d) :
    d.id = id ∧ δ.domain id = some d.projectId ∧ δ.project d.projectId = some u := by
  have hfound := List.find?_some hd
  rw [Bool.and_eq_true, beq_iff_eq, Option.isSome_iff_exists] at hfound
  obtain ⟨hid, p, hp⟩ := hfound
  exact ⟨hid, hid ▸ h.domain (List.mem_of_find?_eq_some hd), (h.of_findOwnedProject hp).2.2⟩

theorem mem_deploymentsOfUser {d : Deployment} (hd : d ∈ db.deploymentsOfUser u) :
    d ∈ db.deployments ∧ δ.project d.projectId = some u := by
  obtain ⟨hmem, hsome⟩ := List.mem_filter.mp hd
  obtain ⟨p, hp⟩ := Option.isSome_iff_exists.mp hsome
  exact ⟨hmem, (h.of_findOwnedProject hp).2.2⟩

theorem of_mem_project {p : Project} (hp : p ∈ db.projects) (hu : p.userId = u) :
    δ.project p.id = some u := by
  rw [h.project hp, hu]

end Deeds.Covers

/-! ## Rows in a value -/

def Project.keys (p : Project) : List RowKey := [.project p.id, .user p.userId]

def EnvironmentVariable.keys (v : EnvironmentVariable) : List RowKey := [.project v.projectId]

def Deployment.keys (d : Deployment) : List RowKey := [.deployment d.id, .project d.projectId]

def Domain.keys (d : Domain) : List RowKey := [.domain d.id, .project d.projectId]

def Result.keys : Result → List RowKey
  | .deployment d => d.keys
  | .project p => p.keys
  | .domain d => d.keys
  | .deployments views => views.flatMap fun v => v.deployment.keys
  | .history rows => rows.flatMap (·.keys)
  | .deploymentDetails d p => d.keys ++ p.keys
  | .logs page => page.logs.map fun x => .deployment x.deploymentId
  | .projects views => views.flatMap fun v =>
      v.project.keys ++ v.deployment.toList.flatMap (·.keys) ++ v.domains.flatMap (·.keys) ++
        v.envVars.flatMap (·.keys)
  | .projectDetails p =>
      p.project.keys ++ p.deployments.flatMap (·.keys) ++ p.domains.flatMap (·.keys) ++
        p.envVars.flatMap (·.keys)
  | .domains rows => rows.flatMap (·.keys)
  | .envVars rows => rows.flatMap (·.keys)
  | .saved _ => []
  | .settings c => [.user c.userId]
  | .overview o => o.deploymentsByProject.map fun group => .project group.projectId
  | .projectAnalytics a =>
      .project a.projectId :: a.recentActivity.map fun x => .deployment x.id

namespace Deeds

def Owns (δ : Deeds) (u : UserId) (keys : List RowKey) : Prop := ∀ k ∈ keys, δ.owner k = some u

theorem Owns.mono {δ δ' : Deeds} {keys : List RowKey} (h : δ.Owns u keys) (hδ : δ ≤ δ') :
    δ'.Owns u keys :=
  fun k hk => owner_mono hδ (h k hk)

@[simp] theorem owns_nil : δ.Owns u [] := nofun

theorem owns_append {keys keys' : List RowKey} :
    δ.Owns u (keys ++ keys') ↔ δ.Owns u keys ∧ δ.Owns u keys' :=
  List.forall_mem_append

theorem owns_flatMap {α : Type} {rows : List α} {f : α → List RowKey} :
    δ.Owns u (rows.flatMap f) ↔ ∀ a ∈ rows, δ.Owns u (f a) := by
  simp only [Owns, List.mem_flatMap]
  exact ⟨fun h a ha k hk => h k ⟨a, ha, hk⟩, fun h k ⟨a, ha, hk⟩ => h a ha k hk⟩

theorem owns_map {α : Type} {rows : List α} {f : α → RowKey} :
    δ.Owns u (rows.map f) ↔ ∀ a ∈ rows, δ.owner (f a) = some u :=
  List.forall_mem_map

namespace Covers

variable {db : Database} (h : δ.Covers db)
include h

theorem owns_project {p : Project} (hp : p ∈ db.projects) (hu : δ.project p.id = some u) :
    δ.Owns u p.keys := by
  have huser := h.project hp
  rw [hu, Option.some.injEq] at huser
  simp [Owns, Project.keys, owner, hu, ← huser]

theorem owns_deployment {d : Deployment} (hd : d ∈ db.deployments)
    (hu : δ.project d.projectId = some u) : δ.Owns u d.keys := by
  simp [Owns, Deployment.keys, owner, h.deployment hd, hu]

theorem owns_domain {d : Domain} (hd : d ∈ db.domains) (hu : δ.project d.projectId = some u) :
    δ.Owns u d.keys := by
  simp [Owns, Domain.keys, owner, h.domain hd, hu]

end Covers
end Deeds

/-! ## The policy -/

namespace Store

def own (st : Store) (u : UserId) : Store where
  db := st.db.own u
  logs := st.logs.filter fun x => (st.db.findOwnedDeployment x.deploymentId u).isSome
  now := st.now

/-- The tables are as the deeds say, and every log line is of a deployment. -/
structure Good (δ : Deeds) (st : Store) : Prop where
  covers : δ.Covers st.db
  logs : ∀ x ∈ st.logs, (st.db.findDeployment x.deploymentId).isSome

end Store

def discretion (u : UserId) : Policy Deeds Store Write Result where
  good δ st := st.Good δ
  view st := st.own u
  allows δ
    | .saveAll projectId _ => δ.project projectId = some u
    | .upsert userId _ => userId = u
  owns δ a := δ.Owns u a.keys
  allows_mono {δ δ' c} h hc := by
    cases c with
    | saveAll projectId items => exact h.1 _ _ hc
    | upsert userId dto => exact hc
  owns_mono h ha := ha.mono h

end Api
end Code2Cloud
