import Code2Cloud.Api.Schema
import Code2Cloud.Worker.Env
import Code2Cloud.Worker.Names

/-!
# The cluster

The objects the worker keeps for a project in its namespace, what `Client.Deploy`
writes to them stage by stage, and the names under which `Client.Cleanup` deletes
them.
-/

namespace Code2Cloud
namespace Worker

open GoString

/-! ## Objects -/

inductive Kind
  | ingress | service | deployment | networkPolicy | serviceAccount
  deriving DecidableEq

structure DeploymentObject where
  /-- The `app` label: the selector of the Deployment and the label of its pods. -/
  app : GoString
  deploymentId : Api.DeploymentId
  projectId : Api.ProjectId
  serviceAccountName : GoString
  image : GoString
  port : Nat
  envVars : EnvMap
  cpuRequest : String
  cpuLimit : String
  memoryRequest : String
  memoryLimit : String
  replicas : Nat
  deriving DecidableEq

structure ServiceObject where
  /-- The `app` label, which is also the selector. -/
  app : GoString
  projectId : Api.ProjectId
  targetPort : Nat
  deriving DecidableEq

structure IngressRule where
  host : GoString
  serviceName : GoString
  deriving DecidableEq

structure IngressTLS where
  hosts : List GoString
  secretName : GoString
  deriving DecidableEq

structure IngressObject where
  app : GoString
  projectId : Api.ProjectId
  rules : List IngressRule
  tls : List IngressTLS
  /-- Whether the `cert-manager.io/cluster-issuer` annotation is present. -/
  clusterIssuer : Bool
  deriving DecidableEq

/-- The two peers a policy admits. -/
inductive PolicyPeer
  | pods (app : GoString)
  | namespace (name : GoString)
  deriving DecidableEq

structure NetworkPolicyObject where
  app : GoString
  deploymentId : Api.DeploymentId
  projectId : Api.ProjectId
  /-- The `app` label of the pods the policy governs. -/
  podSelector : GoString
  ingressFrom : List PolicyPeer
  deriving DecidableEq

structure ServiceAccountObject where
  app : GoString
  deploymentId : Api.DeploymentId
  projectId : Api.ProjectId
  deriving DecidableEq

namespace NetworkPolicyObject

/-- The policy governs pods with this `app` label. -/
def selects (p : NetworkPolicyObject) (app : GoString) : Prop := p.podSelector = app

/-- The policy lets pods of the worker's namespace with this `app` label in. -/
def admits (p : NetworkPolicyObject) (app : GoString) : Prop := .pods app ∈ p.ingressFrom

end NetworkPolicyObject

/-- The worker's namespace, object by name for each kind. -/
structure Cluster where
  ingresses : GoString → Option IngressObject
  services : GoString → Option ServiceObject
  deployments : GoString → Option DeploymentObject
  networkPolicies : GoString → Option NetworkPolicyObject
  serviceAccounts : GoString → Option ServiceAccountObject

/-- An object to create or update, with its name. -/
inductive Object
  | ingress (name : GoString) (o : IngressObject)
  | service (name : GoString) (o : ServiceObject)
  | deployment (name : GoString) (o : DeploymentObject)
  | networkPolicy (name : GoString) (o : NetworkPolicyObject)
  | serviceAccount (name : GoString) (o : ServiceAccountObject)
  deriving DecidableEq

namespace Object

def kind : Object → Kind
  | ingress .. => .ingress
  | service .. => .service
  | deployment .. => .deployment
  | networkPolicy .. => .networkPolicy
  | serviceAccount .. => .serviceAccount

def name : Object → GoString
  | ingress n _ | service n _ | deployment n _ | networkPolicy n _ | serviceAccount n _ => n

/-- The `code2cloud/project-id` label. -/
def projectId : Object → Api.ProjectId
  | ingress _ o => o.projectId
  | service _ o => o.projectId
  | deployment _ o => o.projectId
  | networkPolicy _ o => o.projectId
  | serviceAccount _ o => o.projectId

end Object

namespace Cluster

def put {α : Type} (m : GoString → Option α) (name : GoString) (o : Option α) :
    GoString → Option α :=
  fun n => if n = name then o else m n

def empty : Cluster where
  ingresses := fun _ => none
  services := fun _ => none
  deployments := fun _ => none
  networkPolicies := fun _ => none
  serviceAccounts := fun _ => none

def has (cl : Cluster) : Kind → GoString → Bool
  | .ingress, n => (cl.ingresses n).isSome
  | .service, n => (cl.services n).isSome
  | .deployment, n => (cl.deployments n).isSome
  | .networkPolicy, n => (cl.networkPolicies n).isSome
  | .serviceAccount, n => (cl.serviceAccounts n).isSome

def projectOf (cl : Cluster) : Kind → GoString → Option Api.ProjectId
  | .ingress, n => (cl.ingresses n).map (·.projectId)
  | .service, n => (cl.services n).map (·.projectId)
  | .deployment, n => (cl.deployments n).map (·.projectId)
  | .networkPolicy, n => (cl.networkPolicies n).map (·.projectId)
  | .serviceAccount, n => (cl.serviceAccounts n).map (·.projectId)

def apply (cl : Cluster) : Object → Cluster
  | .ingress n o => { cl with ingresses := put cl.ingresses n (some o) }
  | .service n o => { cl with services := put cl.services n (some o) }
  | .deployment n o => { cl with deployments := put cl.deployments n (some o) }
  | .networkPolicy n o => { cl with networkPolicies := put cl.networkPolicies n (some o) }
  | .serviceAccount n o => { cl with serviceAccounts := put cl.serviceAccounts n (some o) }

def delete (cl : Cluster) : Kind → GoString → Cluster
  | .ingress, n => { cl with ingresses := put cl.ingresses n none }
  | .service, n => { cl with services := put cl.services n none }
  | .deployment, n => { cl with deployments := put cl.deployments n none }
  | .networkPolicy, n => { cl with networkPolicies := put cl.networkPolicies n none }
  | .serviceAccount, n => { cl with serviceAccounts := put cl.serviceAccounts n none }

def Same (cl cl' : Cluster) : Kind → GoString → Prop
  | .ingress, n => cl.ingresses n = cl'.ingresses n
  | .service, n => cl.services n = cl'.services n
  | .deployment, n => cl.deployments n = cl'.deployments n
  | .networkPolicy, n => cl.networkPolicies n = cl'.networkPolicies n
  | .serviceAccount, n => cl.serviceAccounts n = cl'.serviceAccounts n

/-! ## Frames -/

theorem Same.refl (cl : Cluster) (k : Kind) (n : GoString) : Same cl cl k n := by
  cases k <;> rfl

theorem Same.trans {cl cl' cl'' : Cluster} {k : Kind} {n : GoString} (h : Same cl cl' k n)
    (h' : Same cl' cl'' k n) : Same cl cl'' k n := by
  cases k <;> exact Eq.trans h h'

theorem Same.has_eq {cl cl' : Cluster} {k : Kind} {n : GoString} (h : Same cl cl' k n) :
    cl'.has k n = cl.has k n := by
  cases k <;> simp only [Same] at h <;> simp only [has, h]

theorem put_ne {α : Type} (m : GoString → Option α) {name n : GoString} (o : Option α)
    (h : n ≠ name) : put m name o n = m n := by
  simp [put, h]

theorem same_apply (cl : Cluster) (o : Object) {k : Kind} {n : GoString}
    (h : o.kind = k → o.name ≠ n) : Same cl (cl.apply o) k n := by
  cases o <;> cases k <;>
    first
      | rfl
      | exact (put_ne _ _ (Ne.symm (h rfl))).symm

theorem put_eq {α : Type} (m : GoString → Option α) (name : GoString) (o : Option α) :
    put m name o name = o := by
  simp [put]

theorem Same.projectOf_eq {cl cl' : Cluster} {k : Kind} {n : GoString} (h : Same cl cl' k n) :
    cl'.projectOf k n = cl.projectOf k n := by
  cases k <;> simp only [Same] at h <;> simp only [projectOf, h]

theorem projectOf_apply_self (cl : Cluster) (o : Object) :
    (cl.apply o).projectOf o.kind o.name = some o.projectId := by
  cases o <;> simp [apply, projectOf, Object.kind, Object.name, Object.projectId, put_eq]

theorem projectOf_delete_self (cl : Cluster) (k : Kind) (n : GoString) :
    (cl.delete k n).projectOf k n = none := by
  cases k <;> simp [delete, projectOf, put_eq]

theorem has_apply {cl : Cluster} {k : Kind} {n : GoString} (o : Object) (h : cl.has k n = true) :
    (cl.apply o).has k n = true := by
  by_cases hsame : o.kind = k → o.name ≠ n
  · exact (same_apply cl o hsame).has_eq.trans h
  · simp only [ne_eq, Classical.not_imp, not_not] at hsame
    obtain ⟨rfl, rfl⟩ := hsame
    cases o <;> simp [apply, has, Object.kind, Object.name, put_eq]

def holds (cl : Cluster) : Object → Prop
  | .ingress n o => cl.ingresses n = some o
  | .service n o => cl.services n = some o
  | .deployment n o => cl.deployments n = some o
  | .networkPolicy n o => cl.networkPolicies n = some o
  | .serviceAccount n o => cl.serviceAccounts n = some o

instance (cl : Cluster) (o : Object) : Decidable (cl.holds o) :=
  match o with
  | .ingress n o => inferInstanceAs (Decidable (cl.ingresses n = some o))
  | .service n o => inferInstanceAs (Decidable (cl.services n = some o))
  | .deployment n o => inferInstanceAs (Decidable (cl.deployments n = some o))
  | .networkPolicy n o => inferInstanceAs (Decidable (cl.networkPolicies n = some o))
  | .serviceAccount n o => inferInstanceAs (Decidable (cl.serviceAccounts n = some o))

theorem same_delete (cl : Cluster) {k k' : Kind} {n n' : GoString} (h : k = k' → n ≠ n') :
    Same cl (cl.delete k n) k' n' := by
  cases k <;> cases k' <;>
    first
      | rfl
      | exact (put_ne _ _ (Ne.symm (h rfl))).symm

/-! ## Objects of different kinds -/

theorem Same.symm {cl cl' : Cluster} {k : Kind} {n : GoString} (h : Same cl cl' k n) :
    Same cl' cl k n := by
  cases k <;> exact Eq.symm h

theorem Same.holds_iff {cl cl' : Cluster} {o : Object} (h : Same cl cl' o.kind o.name) :
    cl'.holds o ↔ cl.holds o := by
  cases o <;> simp only [Same, Object.kind, Object.name] at h <;> simp only [holds, h]

theorem Same.apply {cl cl' : Cluster} {k : Kind} {n : GoString} (h : Same cl cl' k n)
    (o : Object) : Same (cl.apply o) (cl'.apply o) k n := by
  by_cases hsame : o.kind = k → o.name ≠ n
  · exact (same_apply cl o hsame).symm.trans (h.trans (same_apply cl' o hsame))
  · simp only [ne_eq, Classical.not_imp, not_not] at hsame
    obtain ⟨rfl, rfl⟩ := hsame
    cases o <;> simp [Cluster.apply, Same, Object.kind, Object.name, put_eq]

/-- Writing an object changes nothing only if it was there. -/
theorem same_apply_self_iff (cl : Cluster) (o : Object) :
    Same cl (cl.apply o) o.kind o.name ↔ cl.holds o := by
  cases o <;> simp [Cluster.apply, Same, holds, Object.kind, Object.name, put_eq]

theorem same_foldl (cl : Cluster) {os : List Object} {k : Kind} {n : GoString}
    (h : k ∉ os.map Object.kind) : Same cl (os.foldl Cluster.apply cl) k n := by
  induction os generalizing cl with
  | nil => exact Same.refl cl k n
  | cons o os ih =>
    rw [List.map_cons, List.mem_cons, not_or] at h
    have hne : o.kind = k → o.name ≠ n := fun hk => absurd hk.symm h.1
    exact (same_apply cl o hne).trans (ih (cl.apply o) h.2)

/-- Among objects of different kinds each is written once. -/
theorem same_foldl_self_iff (cl : Cluster) {os : List Object} (hnodup : (os.map Object.kind).Nodup)
    {o : Object} (ho : o ∈ os) :
    Same cl (os.foldl Cluster.apply cl) o.kind o.name ↔ cl.holds o := by
  induction os generalizing cl with
  | nil => cases ho
  | cons a os ih =>
    rw [List.map_cons, List.nodup_cons] at hnodup
    obtain ⟨ha, hnodup⟩ := hnodup
    rcases List.mem_cons.mp ho with rfl | ho
    · have hlater := same_foldl (cl.apply o) (n := o.name) ha
      rw [← same_apply_self_iff]
      exact ⟨fun h => h.trans hlater.symm, fun h => h.trans hlater⟩
    · have hne : a.kind = o.kind → a.name ≠ o.name :=
        fun hk => absurd (hk ▸ List.mem_map_of_mem ho) ha
      have hbefore := same_apply cl a hne
      rw [← hbefore.holds_iff, ← ih (cl.apply a) hnodup ho]
      exact ⟨fun h => hbefore.symm.trans h, fun h => hbefore.trans h⟩

end Cluster
end Worker
end Code2Cloud
