import Code2Cloud.Base.Fence
import Code2Cloud.System.PodVariables

/-!
# Which pods may talk to which

The network policies in the cluster: the one of the platform that denies all traffic into the
namespace of the deployments, and those that the worker writes for its projects.
-/

namespace Code2Cloud

namespace Worker

structure Pod where
  /-- Its own namespace. -/
  home : GoString
  /-- The label `app.kubernetes.io/name` of that namespace. -/
  homeName : GoString
  app : GoString
  deriving DecidableEq

namespace Pod

/-- The namespace of the users' deployments. -/
def deployments : GoString := utf8 "deployments"

/-- `default-deny-ingress` -/
def defaultDenyIngress : Fence Pod := .deny fun pod => pod.home = deployments

end Pod

def PolicyPeer.matches : PolicyPeer → Pod → Prop
  | .pods app, pod => pod.home = Pod.deployments ∧ pod.app = app
  | .namespace name, pod => pod.homeName = name

/-- The policy of an object in the worker's namespace. -/
def NetworkPolicyObject.policy (p : NetworkPolicyObject) : Fence Pod where
  selects pod := pod.home = Pod.deployments ∧ p.selects pod.app
  admits pod := ∃ peer ∈ p.ingressFrom, peer.matches pod

def Cluster.fences (cl : Cluster) : Set (Fence Pod) :=
  insert Pod.defaultDenyIngress
    {fence | ∃ name p, cl.networkPolicies name = some p ∧ p.policy = fence}

/-- A policy that the worker writes admits the replicas and the ingress controller. -/
theorem admits_networkPolicy (opts : DeployOptions) (pod : Pod) :
    (Client.networkPolicy opts).policy.admits pod ↔
      pod.homeName = utf8 "traefik" ∨
        pod.home = Pod.deployments ∧ pod.app = (Client.networkPolicy opts).podSelector := by
  simp [NetworkPolicyObject.policy, Client.networkPolicy, PolicyPeer.matches, or_comm]

end Worker

namespace System

open Api Worker

variable {cfg : Config} {s : State}

/-- In every state of a run a pod of the deployments is reached by the ingress controller and by
the pods with its own label, and by no other: and only while a policy for its label is there. -/
theorem pods_are_fenced (h : Reaches (State.step cfg) (fun _ _ => True) State.initial s)
    {allowed : Pod → Pod → Prop} (hallowed : Fence.Enforced s.world.cluster.fences allowed)
    {a b : Pod} (hb : b.home = Pod.deployments) :
    allowed a b ↔
      (∃ name p, s.world.cluster.networkPolicies name = some p ∧ p.selects b.app) ∧
        (a.homeName = utf8 "traefik" ∨ a.home = Pod.deployments ∧ a.app = b.app) := by
  rw [Cluster.fences, Pod.defaultDenyIngress] at hallowed
  rw [hallowed.insert_deny hb]
  have hwritten {name : GoString} {p : NetworkPolicyObject}
      (hp : s.world.cluster.networkPolicies name = some p) :
      ∃ opts, p = Client.networkPolicy opts := by
    obtain ⟨past, hx⟩ := h.recorded
    obtain ⟨b, stage, _, hobject⟩ :=
      (Run.rooted_of_reaches hx).cluster (.networkPolicy name p) hp nofun
    cases stage with
    | networkPolicy =>
      cases hobject
      exact ⟨_, rfl⟩
    | _ => cases hobject
  constructor
  · rintro ⟨_, ⟨name, p, hp, rfl⟩, ⟨_, hselects⟩, hadmits⟩
    refine ⟨⟨name, p, hp, hselects⟩, ?_⟩
    obtain ⟨opts, rfl⟩ := hwritten hp
    rw [admits_networkPolicy, show (Client.networkPolicy opts).podSelector = b.app from hselects]
      at hadmits
    exact hadmits
  · rintro ⟨⟨name, p, hp, hselects⟩, hsender⟩
    refine ⟨p.policy, ⟨name, p, hp, rfl⟩, ⟨hb, hselects⟩, ?_⟩
    obtain ⟨opts, rfl⟩ := hwritten hp
    rw [admits_networkPolicy, show (Client.networkPolicy opts).podSelector = b.app from hselects]
    exact hsender

/-- The shop's pods hear the ingress controller and not the pods of the spy. -/
theorem pods_are_fenced_shop :
    ∃ s : State, Reaches (State.step Config.clear) (fun _ _ => True) State.initial s ∧
      Fence.Allowed s.world.cluster.fences ⟨utf8 "traefik", utf8 "traefik", utf8 "traefik"⟩
        ⟨Pod.deployments, Pod.deployments, utf8 "shop"⟩ ∧
      ¬Fence.Allowed s.world.cluster.fences ⟨Pod.deployments, Pod.deployments, utf8 "spy"⟩
        ⟨Pod.deployments, Pod.deployments, utf8 "shop"⟩ := by
  obtain ⟨s, hs, hend⟩ := Reaches.exists_of_runEvents (State.step Config.clear)
    (fun _ _ => True) State.initial shopWithSecret
    (fun s => (s.world.cluster.networkPolicies (utf8 "shop-netpol")).any
      fun p => p.podSelector == utf8 "shop")
    (by decide) (runsUnder_true _ _ _)
  rw [Option.any_eq_true] at hend
  obtain ⟨p, hp, hselector⟩ := hend
  refine ⟨s, hs, (pods_are_fenced hs Fence.enforced_allowed rfl).mpr
    ⟨⟨_, p, hp, beq_iff_eq.mp hselector⟩, Or.inl rfl⟩, ?_⟩
  rw [pods_are_fenced hs Fence.enforced_allowed rfl]
  rintro ⟨_, htraefik | ⟨_, happ⟩⟩
  · exact absurd htraefik (by decide)
  · exact absurd happ (by decide)

end System
end Code2Cloud
