import Code2Cloud.Base.Reach
import Code2Cloud.Base.Versioned
import Code2Cloud.System.Sweeps
import Mathlib.Data.List.Dedup

/-!
# A domain and a deploy on one ingress

`AddDomain` and `CreateOrUpdateIngress` for one project, request by request.  The API
server refuses the replacement of an ingress that was written since it was read.
-/

namespace Code2Cloud
namespace System

open Api Worker

/-- The two calls: what the deploy was given and the domain that is added. -/
structure IngressRace where
  baseDomain : GoString
  opts : DeployOptions
  domain : GoString

/-- `AddDomain`, with the `UpdateIngressHosts` it ends in. -/
inductive AddDomain
  | getHosts
  | getIngress (hosts : List GoString)
  | update (hosts : List GoString) (ingress : IngressObject) (resourceVersion : Nat)
  | returned (success : Bool)
  deriving DecidableEq

inductive CreateOrUpdateIngress
  | get
  | create
  | update (resourceVersion : Nat)
  | returned (success : Bool)
  deriving DecidableEq

def AddDomain.hosts : AddDomain → Option (List GoString)
  | getIngress hosts | update hosts _ _ => some hosts
  | getHosts | returned _ => none

def CreateOrUpdateIngress.pending : CreateOrUpdateIngress → Bool
  | returned _ => false
  | get | create | update _ => true

namespace IngressRace

abbrev Cells := GoString → Cell IngressObject

structure State where
  ingresses : Cells
  adder : AddDomain
  deployer : CreateOrUpdateIngress

inductive Event
  /-- A step of `AddDomain`; `order` is the order in which it ranges over its map of hosts. -/
  | add (o : Outcome) (order : List GoString)
  | deploy (o : Outcome)

/-- The API server admits labels of at most 63 bytes. -/
def accepts (i : IngressObject) : Bool := i.app.length ≤ 63

def answer (cells : Cells) (o : Outcome) (name : GoString) (c : Option (Cell IngressObject)) :
    Cells × Bool :=
  match c, o with
  | some c, .ok => (Function.update cells name c, true)
  | some c, .lost => (Function.update cells name c, false)
  | _, _ => (cells, false)

variable (p : IngressRace)

def name : GoString := sanitizeK8sName p.opts.projectName

/-- The ingress that `UpdateIngressHosts` writes: it sanitises the name again. -/
def updateName : GoString := sanitizeK8sName p.name

def addStep (s : State) (o : Outcome) (order : List GoString) : Option State :=
  match s.adder with
  | .getHosts =>
    match o, (s.ingresses p.name).get with
    | .ok, some (ingress, _) =>
      let existingHosts := DomainWorker.existingHosts ingress
      if existingHosts.contains p.domain then some { s with adder := .returned true }
      else if order.Perm existingHosts then
        some { s with adder := .getIngress (order ++ [p.domain]) }
      else none
    | _, _ => some { s with adder := .returned false }
  | .getIngress hosts =>
    match o, (s.ingresses p.updateName).get with
    | .ok, some (ingress, resourceVersion) =>
      some { s with adder := .update hosts ingress resourceVersion }
    | _, _ => some { s with adder := .returned false }
  | .update hosts ingress resourceVersion =>
    let ingress := Client.updateIngressHosts p.baseDomain p.updateName hosts ingress
    let c :=
      if accepts ingress then (s.ingresses p.updateName).update ingress resourceVersion else none
    let (ingresses, success) := answer s.ingresses o p.updateName c
    some { s with ingresses, adder := .returned success }
  | .returned _ => none

def deployStep (s : State) (o : Outcome) : Option State :=
  let ingress := Client.ingress p.baseDomain p.opts
  match s.deployer with
  | .get =>
    if o = .ok then
      match (s.ingresses p.name).get with
      | none => some { s with deployer := .create }
      | some (_, resourceVersion) => some { s with deployer := .update resourceVersion }
    else some { s with deployer := .returned false }
  | .create =>
    let c := if accepts ingress then (s.ingresses p.name).create ingress else none
    let (ingresses, success) := answer s.ingresses o p.name c
    some { s with ingresses, deployer := .returned success }
  | .update resourceVersion =>
    let c := if accepts ingress then (s.ingresses p.name).update ingress resourceVersion else none
    let (ingresses, success) := answer s.ingresses o p.name c
    some { s with ingresses, deployer := .returned success }
  | .returned _ => none

def step (s : State) : Event → Option State
  | .add o order => p.addStep s o order
  | .deploy o => p.deployStep s o

/-! ## What the store holds -/

/-- An ingress that the worker wrote under a name. -/
inductive WrittenIngress (baseDomain : GoString) : GoString → IngressObject → Prop
  | deployed (opts : DeployOptions) :
      WrittenIngress baseDomain (sanitizeK8sName opts.projectName) (Client.ingress baseDomain opts)
  | updated {name : GoString} {i : IngressObject} (h : WrittenIngress baseDomain name i)
      (hosts : List GoString) :
      WrittenIngress baseDomain name (Client.updateIngressHosts baseDomain name hosts i)

theorem WrittenIngress.app_eq {baseDomain name : GoString} {i : IngressObject}
    (h : WrittenIngress baseDomain name i) : i.app = name := by
  induction h with
  | deployed opts => rfl
  | updated _ hosts ih => exact ih

theorem hosts_ingress (baseDomain : GoString) (opts : DeployOptions) :
    (Client.ingress baseDomain opts).rules.map (·.host) = Client.allHosts opts :=
  (hosts_buildIngressRules _ _).trans (map_sanitizeHost_allHosts opts)

theorem hosts_updateIngressHosts (baseDomain name : GoString) (hosts : List GoString)
    (i : IngressObject) :
    (Client.updateIngressHosts baseDomain name hosts i).rules.map (·.host) =
      hosts.map sanitizeHost :=
  hosts_buildIngressRules hosts name

theorem WrittenIngress.sanitized {baseDomain name : GoString} {i : IngressObject}
    (h : WrittenIngress baseDomain name i) :
    ∀ host ∈ i.rules.map (·.host), sanitizeHost host = host := by
  cases h with
  | deployed opts =>
    rw [hosts_ingress, ← map_sanitizeHost_allHosts]
    exact fun _ => sanitized_of_mem_map
  | updated _ hosts =>
    rw [hosts_updateIngressHosts]
    exact fun _ => sanitized_of_mem_map

theorem mem_existingHosts {i : IngressObject} {host : GoString} :
    host ∈ DomainWorker.existingHosts i ↔ host ∈ i.rules.map (·.host) :=
  List.mem_dedup

/-- Every ingress in the store is one that the worker wrote there. -/
def Stocked (baseDomain : GoString) (cells : Cells) : Prop :=
  ∀ name i, (cells name).object = some i → WrittenIngress baseDomain name i ∧ accepts i = true

theorem Stocked.update {baseDomain : GoString} {cells : Cells} (h : Stocked baseDomain cells)
    {name : GoString} {c : Cell IngressObject} {i : IngressObject} (hc : c.object = some i)
    (hi : WrittenIngress baseDomain name i) (haccepts : accepts i = true) :
    Stocked baseDomain (Function.update cells name c) := by
  intro name' i' hi'
  by_cases hname : name' = name
  · subst hname
    rw [Function.update_self, hc, Option.some.injEq] at hi'
    subst hi'
    exact ⟨hi, haccepts⟩
  · rw [Function.update_of_ne hname] at hi'
    exact h name' i' hi'

/-! ## What a step does -/

theorem answer_cases (cells : Cells) (o : Outcome) (name : GoString) (i : IngressObject)
    (c : Option (Cell IngressObject)) :
    (o = .ok ∧ accepts i = true ∧ ∃ c', c = some c' ∧
        answer cells o name (if accepts i then c else none) =
          (Function.update cells name c', true)) ∨
      (answer cells o name (if accepts i then c else none)).2 = false := by
  cases haccepts : accepts i with
  | false => exact Or.inr (by cases o <;> rfl)
  | true =>
    cases c with
    | none => exact Or.inr (by cases o <;> rfl)
    | some c =>
      cases o with
      | ok => exact Or.inl ⟨rfl, rfl, c, rfl, rfl⟩
      | fail | lost | late => exact Or.inr rfl

variable {p}

/-- A step of `AddDomain` ends it without success, or is one of its four others. -/
theorem addStep_cases {s s' : State} {o : Outcome} {order : List GoString}
    (h : p.addStep s o order = some s') :
    s'.adder = .returned false ∨
    (s.adder = .getHosts ∧ ∃ i, (s.ingresses p.name).object = some i ∧
      (p.domain ∈ i.rules.map (·.host) ∧ s' = { s with adder := .returned true } ∨
        order.Perm (DomainWorker.existingHosts i) ∧
          s' = { s with adder := .getIngress (order ++ [p.domain]) })) ∨
    (∃ hosts, s.adder = .getIngress hosts ∧ ∃ i,
      (s.ingresses p.updateName).object = some i ∧
        s' = { s with adder := .update hosts i (s.ingresses p.updateName).version }) ∨
    (∃ hosts i version c, s.adder = .update hosts i version ∧
      accepts (Client.updateIngressHosts p.baseDomain p.updateName hosts i) = true ∧
      (s.ingresses p.updateName).update
        (Client.updateIngressHosts p.baseDomain p.updateName hosts i) version = some c ∧
      s' = { s with
        ingresses := Function.update s.ingresses p.updateName c, adder := .returned true }) := by
  unfold addStep at h
  split at h
  · rename_i hadder
    split at h
    · rename_i i version hget
      obtain ⟨hi, _⟩ := Cell.get_eq_some_iff.mp hget
      simp only [List.contains_iff_mem] at h
      split at h
      · rename_i hmem
        cases h
        exact Or.inr (Or.inl ⟨hadder, i, hi, Or.inl ⟨mem_existingHosts.mp hmem, rfl⟩⟩)
      · split at h
        · rename_i hperm
          cases h
          exact Or.inr (Or.inl ⟨hadder, i, hi, Or.inr ⟨hperm, rfl⟩⟩)
        · cases h
    · cases h
      exact Or.inl rfl
  · rename_i hosts hadder
    split at h
    · rename_i i version hget
      obtain ⟨hi, rfl⟩ := Cell.get_eq_some_iff.mp hget
      cases h
      exact Or.inr (Or.inr (Or.inl ⟨hosts, hadder, i, hi, rfl⟩))
    · cases h
      exact Or.inl rfl
  · rename_i hosts i version hadder
    simp only at h
    rcases answer_cases s.ingresses o p.updateName
      (Client.updateIngressHosts p.baseDomain p.updateName hosts i)
      ((s.ingresses p.updateName).update
        (Client.updateIngressHosts p.baseDomain p.updateName hosts i) version)
      with ⟨_, haccepts, c, hc, hanswer⟩ | hanswer
    · rw [hanswer] at h
      cases h
      exact Or.inr (Or.inr (Or.inr ⟨hosts, i, version, c, hadder, haccepts, hc, rfl⟩))
    · cases h
      exact Or.inl (by rw [hanswer])
  · cases h

theorem deployStep_cases {s s' : State} {o : Outcome} (h : p.deployStep s o = some s') :
    s'.deployer = .returned false ∨
    (s.deployer = .get ∧ ∃ d : CreateOrUpdateIngress,
      d.pending = true ∧ s' = { s with deployer := d }) ∨
    (o = .ok ∧ accepts (Client.ingress p.baseDomain p.opts) = true ∧ ∃ c,
      (s.deployer = .create ∧
          (s.ingresses p.name).create (Client.ingress p.baseDomain p.opts) = some c ∨
        ∃ version, s.deployer = .update version ∧
          (s.ingresses p.name).update (Client.ingress p.baseDomain p.opts) version = some c) ∧
      s' = { s with
        ingresses := Function.update s.ingresses p.name c, deployer := .returned true }) := by
  unfold deployStep at h
  simp only at h
  split at h
  · rename_i hdeployer
    split at h
    · split at h
      · cases h
        exact Or.inr (Or.inl ⟨hdeployer, .create, rfl, rfl⟩)
      · rename_i version _
        cases h
        exact Or.inr (Or.inl ⟨hdeployer, .update version, rfl, rfl⟩)
    · cases h
      exact Or.inl rfl
  · rename_i hdeployer
    rcases answer_cases s.ingresses o p.name (Client.ingress p.baseDomain p.opts)
      ((s.ingresses p.name).create (Client.ingress p.baseDomain p.opts))
      with ⟨ho, haccepts, c, hc, hanswer⟩ | hanswer
    · rw [hanswer] at h
      cases h
      exact Or.inr (Or.inr ⟨ho, haccepts, c, Or.inl ⟨hdeployer, hc⟩, rfl⟩)
    · cases h
      exact Or.inl (by rw [hanswer])
  · rename_i version hdeployer
    rcases answer_cases s.ingresses o p.name (Client.ingress p.baseDomain p.opts)
      ((s.ingresses p.name).update (Client.ingress p.baseDomain p.opts) version)
      with ⟨ho, haccepts, c, hc, hanswer⟩ | hanswer
    · rw [hanswer] at h
      cases h
      exact Or.inr (Or.inr ⟨ho, haccepts, c, Or.inr ⟨version, hdeployer, hc⟩, rfl⟩)
    · cases h
      exact Or.inl (by rw [hanswer])
  · cases h

theorem deployer_addStep {s s' : State} {o : Outcome} {order : List GoString}
    (h : p.addStep s o order = some s') : s'.deployer = s.deployer := by
  unfold addStep at h
  repeat' first | split at h | simp only at h; split at h
  all_goals cases h <;> rfl

theorem adder_deployStep {s s' : State} {o : Outcome} (h : p.deployStep s o = some s') :
    s'.adder = s.adder := by
  unfold deployStep at h
  simp only at h
  repeat' split at h
  all_goals cases h <;> rfl

/-! ## Lost hosts -/

variable (p)

def State.hosts (s : State) : List GoString :=
  match (s.ingresses p.name).object with
  | none => []
  | some i => i.rules.map (·.host)

def Kept (s : State) : Prop :=
  sanitizeHost p.domain ∈ s.hosts p ∧ ∀ host ∈ Client.allHosts p.opts, host ∈ s.hosts p

/-- When the deploy replaces the rules, a domain that was added is among its hosts, and an
`AddDomain` that listed the hosts and has not read the ingress again misses none of its hosts. -/
def Keeps (s : State) : Event → Prop
  | .deploy .ok =>
    match s.deployer, s.adder with
    | .update _, .returned true => sanitizeHost p.domain ∈ Client.allHosts p.opts
    | .update _, .getIngress _ =>
      ∀ host ∈ Client.allHosts p.opts, host ∈ s.hosts p ∨ host = sanitizeHost p.domain
    | _, _ => True
  | _ => True

instance (s : State) (e : Event) : Decidable (p.Keeps s e) := by
  unfold Keeps
  repeat' split
  all_goals infer_instance

instance (s : State) : Decidable (p.Kept s) := instDecidableAnd

def Failed (s : State) : Prop := s.adder = .returned false ∨ s.deployer = .returned false

structure Agree (s : State) : Prop where
  stocked : Stocked p.baseDomain s.ingresses
  listed : ∀ hosts, s.adder.hosts = some hosts →
    p.updateName = p.name ∧ (s.ingresses p.name).object.isSome = true ∧
      sanitizeHost p.domain ∈ hosts.map sanitizeHost
  read : ∀ hosts i version, s.adder = .update hosts i version →
    WrittenIngress p.baseDomain p.name i ∧ version ≤ (s.ingresses p.name).version
  added : s.adder = .returned true → sanitizeHost p.domain ∈ s.hosts p
  pending : s.deployer.pending = true → ∀ hosts, s.adder.hosts = some hosts →
    ∀ host, host ∈ hosts.map sanitizeHost ↔ host ∈ s.hosts p ∨ host = sanitizeHost p.domain
  deployed : s.deployer = .returned true → ∀ host ∈ Client.allHosts p.opts, host ∈ s.hosts p
  /-- The write of `AddDomain` keeps the deploy's hosts, if it is going to be accepted. -/
  rewritten : s.deployer = .returned true → ∀ hosts, s.adder.hosts = some hosts →
    (∀ i version, s.adder = .update hosts i version → version = (s.ingresses p.name).version) →
      ∀ host ∈ Client.allHosts p.opts, host ∈ hosts.map sanitizeHost

def Broken (s : State) : Prop :=
  s.deployer = .returned true ∧
    (s.adder = .returned true ∧ ¬p.Kept s ∨
      ∃ hosts, s.adder.hosts = some hosts ∧ p.updateName = p.name ∧
        ∃ host ∈ Client.allHosts p.opts, host ∉ hosts.map sanitizeHost)

variable {p}

theorem failed_step {s s' : State} {e : Event} (h : Failed s) (hs : p.step s e = some s') :
    Failed s' := by
  cases e with
  | add o order =>
    rcases h with h | h
    · rw [step] at hs
      unfold addStep at hs
      rw [h] at hs
      cases hs
    · exact Or.inr ((deployer_addStep hs).trans h)
  | deploy o =>
    rcases h with h | h
    · exact Or.inl ((adder_deployStep hs).trans h)
    · rw [step, deployStep, h] at hs
      cases hs

theorem hosts_of_object {s : State} {i : IngressObject}
    (h : (s.ingresses p.name).object = some i) : s.hosts p = i.rules.map (·.host) := by
  rw [State.hosts, h]

theorem isSome_of_mem_hosts {s : State} {host : GoString} (h : host ∈ s.hosts p) :
    (s.ingresses p.name).object.isSome = true := by
  unfold State.hosts at h
  split at h
  · cases h
  · rename_i i hi
    rw [hi]
    rfl

/-- The name of an ingress that is there is sanitised for good. -/
theorem updateName_eq {s : State} (h : Stocked p.baseDomain s.ingresses) {i : IngressObject}
    (hi : (s.ingresses p.name).object = some i) : p.updateName = p.name := by
  obtain ⟨hwritten, haccepts⟩ := h _ _ hi
  refine sanitizeK8sName_sanitizeK8sName ?_
  have hname : i.app = p.name := hwritten.app_eq
  rw [accepts, hname] at haccepts
  exact of_decide_eq_true haccepts

/-! ## The steps of the two calls -/

theorem agree_addStep {s s' : State} {o : Outcome} {order : List GoString} (h : p.Agree s)
    (hs : p.addStep s o order = some s') : Failed s' ∨ p.Agree s' := by
  rcases addStep_cases hs with hfail | ⟨hadder, i, hi, hread⟩ | ⟨hosts, hadder, i, hi, rfl⟩ |
    ⟨hosts, i, version, c, hadder, haccepts, hc, rfl⟩
  · exact Or.inl (Or.inl hfail)
  · have hhosts := hosts_of_object hi
    have hsanitized := (h.stocked _ _ hi).1.sanitized
    rcases hread with ⟨hmem, rfl⟩ | ⟨hperm, rfl⟩
    · right
      have hadded : sanitizeHost p.domain ∈ s.hosts p := by
        rw [hsanitized _ hmem, hhosts]
        exact hmem
      exact { h with
        listed := nofun
        read := nofun
        added := fun _ => hadded
        pending := nofun
        rewritten := nofun }
    · right
      have hlisted : ∀ host, host ∈ (order ++ [p.domain]).map sanitizeHost ↔
          host ∈ s.hosts p ∨ host = sanitizeHost p.domain := by
        intro host
        have horder : order.map sanitizeHost = order := by
          refine (List.map_congr_left fun host hhost => ?_).trans (List.map_id order)
          exact hsanitized host (mem_existingHosts.mp (hperm.subset hhost))
        rw [List.map_append, horder, List.mem_append, hperm.mem_iff, mem_existingHosts, hhosts,
          List.map_singleton, List.mem_singleton]
      refine { h with
        listed := ?_
        read := nofun
        added := nofun
        pending := ?_
        rewritten := ?_ }
      · rintro _ ⟨⟩
        refine ⟨updateName_eq h.stocked hi, ?_, (hlisted _).mpr (Or.inr rfl)⟩
        show (s.ingresses p.name).object.isSome = true
        rw [hi]
        rfl
      · rintro _ _ ⟨⟩
        exact hlisted
      · rintro hdeployed _ ⟨⟩ _ host hhost
        exact (hlisted host).mpr (Or.inl (h.deployed hdeployed host hhost))
  · have hheld : s.adder.hosts = some hosts := by rw [hadder]; rfl
    have hname := (h.listed hosts hheld).1
    rw [hname] at hi ⊢
    right
    refine { h with
      listed := ?_
      read := ?_
      added := nofun
      pending := ?_
      rewritten := ?_ }
    · rintro _ ⟨⟩
      exact h.listed hosts hheld
    · rintro _ _ _ ⟨⟩
      exact ⟨(h.stocked _ _ hi).1, Nat.le_refl _⟩
    · rintro hpending _ ⟨⟩
      exact h.pending hpending hosts hheld
    · rintro hdeployed _ ⟨⟩ _
      refine h.rewritten hdeployed hosts hheld ?_
      intro i' version hupdate
      rw [hadder] at hupdate
      cases hupdate
  · have hheld : s.adder.hosts = some hosts := by rw [hadder]; rfl
    obtain ⟨hname, -, hadded⟩ := h.listed hosts hheld
    obtain ⟨hwritten, -⟩ := h.read hosts i version hadder
    rw [hname] at haccepts hc ⊢
    right
    have hobject := Cell.object_of_update hc
    have hhosts : State.hosts p { s with
        ingresses := Function.update s.ingresses p.name c, adder := .returned true } =
        hosts.map sanitizeHost := by
      have hself : (Function.update s.ingresses p.name c p.name).object =
          some (Client.updateIngressHosts p.baseDomain p.name hosts i) := by
        rw [Function.update_self, hobject]
      rw [hosts_of_object hself, hosts_updateIngressHosts]
    exact
      { stocked := h.stocked.update hobject (.updated hwritten hosts) haccepts
        listed := nofun
        read := nofun
        added := fun _ => hhosts ▸ hadded
        pending := nofun
        deployed := by
          intro hdeployed host hhost
          rw [hhosts]
          refine h.rewritten hdeployed hosts hheld ?_ host hhost
          intro i' version' hupdate
          rw [hadder] at hupdate
          cases hupdate
          exact (Cell.update_eq_some_iff.mp hc).2.1.symm
        rewritten := nofun }

theorem hosts_deployed {s : State} {c : Cell IngressObject} {d : CreateOrUpdateIngress}
    (hc : c.object = some (Client.ingress p.baseDomain p.opts)) :
    State.hosts p { s with
      ingresses := Function.update s.ingresses p.name c, deployer := d } =
      Client.allHosts p.opts := by
  have hself : (Function.update s.ingresses p.name c p.name).object =
      some (Client.ingress p.baseDomain p.opts) := by
    rw [Function.update_self, hc]
  rw [hosts_of_object hself, hosts_ingress]

/-- The deploy creates an ingress only while `AddDomain` has not found one. -/
theorem agree_create {s : State} (h : p.Agree s) {c : Cell IngressObject}
    (haccepts : accepts (Client.ingress p.baseDomain p.opts) = true)
    (hc : (s.ingresses p.name).create (Client.ingress p.baseDomain p.opts) = some c) :
    p.Agree { s with
      ingresses := Function.update s.ingresses p.name c, deployer := .returned true } := by
  have hnone : ¬(s.ingresses p.name).object.isSome = true := by
    intro hsome
    rw [Cell.create, if_pos hsome] at hc
    cases hc
  have hobject := Cell.object_of_create hc
  have hhosts := hosts_deployed (s := s) (d := .returned true) hobject
  have hheld : ∀ hosts, s.adder.hosts ≠ some hosts :=
    fun hosts hadder => hnone (h.listed hosts hadder).2.1
  exact
    { stocked := h.stocked.update hobject (.deployed p.opts) haccepts
      listed := fun hosts hadder => absurd hadder (hheld hosts)
      read := fun hosts i version hadder => absurd (by rw [hadder]; rfl) (hheld hosts)
      added := fun hadder => absurd (isSome_of_mem_hosts (h.added hadder)) hnone
      pending := nofun
      deployed := fun _ host hhost => hhosts ▸ hhost
      rewritten := fun _ hosts hadder => absurd hadder (hheld hosts) }

/-- The deploy replaces the rules. -/
theorem agree_update {s : State} (h : p.Agree s) {c : Cell IngressObject} {version : Nat}
    (hok : p.Keeps s (.deploy .ok)) (hdeployer : s.deployer = .update version)
    (haccepts : accepts (Client.ingress p.baseDomain p.opts) = true)
    (hc : (s.ingresses p.name).update (Client.ingress p.baseDomain p.opts) version = some c) :
    p.Agree { s with
      ingresses := Function.update s.ingresses p.name c, deployer := .returned true } := by
  have hobject := Cell.object_of_update hc
  have hhosts := hosts_deployed (s := s) (d := .returned true) hobject
  have hversion := Cell.version_of_update hc
  have hpending : s.deployer.pending = true := by rw [hdeployer]; rfl
  have hself : Function.update s.ingresses p.name c p.name = c := Function.update_self ..
  rw [Keeps, hdeployer] at hok
  exact
    { stocked := h.stocked.update hobject (.deployed p.opts) haccepts
      listed := by
        intro hosts hadder
        obtain ⟨hname, -, hadded⟩ := h.listed hosts hadder
        refine ⟨hname, ?_, hadded⟩
        show (Function.update s.ingresses p.name c p.name).object.isSome = true
        rw [hself, hobject]
        rfl
      read := by
        intro hosts i version' hadder
        obtain ⟨hwritten, hle⟩ := h.read hosts i version' hadder
        refine ⟨hwritten, ?_⟩
        show version' ≤ (Function.update s.ingresses p.name c p.name).version
        rw [hself]
        rcases hversion with hlt | ⟨rfl, -⟩
        · omega
        · exact hle
      added := by
        intro hadder
        simp only at hadder
        rw [hadder] at hok
        rw [hhosts]
        exact hok
      pending := nofun
      deployed := fun _ host hhost => hhosts ▸ hhost
      rewritten := by
        intro _ hosts hadder hcurrent host hhost
        rw [h.pending hpending hosts hadder]
        simp only at hadder hcurrent
        rw [hself] at hcurrent
        cases hpc : s.adder with
        | getHosts | returned success =>
          rw [hpc] at hadder
          cases hadder
        | getIngress hosts' =>
          rw [hpc] at hok
          exact hok host hhost
        | update hosts' i version' =>
          rw [hpc] at hadder
          cases hadder
          obtain ⟨-, hle⟩ := h.read hosts i version' hpc
          have heq := hcurrent i version' hpc
          rcases hversion with hlt | ⟨-, hsame⟩
          · omega
          · left
            rw [hosts_of_object hsame, hosts_ingress]
            exact hhost }

theorem agree_deployStep {s s' : State} {o : Outcome} (h : p.Agree s)
    (hok : p.Keeps s (.deploy o)) (hs : p.deployStep s o = some s') : Failed s' ∨ p.Agree s' := by
  rcases deployStep_cases hs with hfail | ⟨hdeployer, d, hd, rfl⟩ |
    ⟨rfl, haccepts, c, ⟨hdeployer, hc⟩ | ⟨version, hdeployer, hc⟩, rfl⟩
  · exact Or.inl (Or.inr hfail)
  · right
    have hpending : s.deployer.pending = true := by rw [hdeployer]; rfl
    have hreturned : d ≠ .returned true := by
      rintro rfl
      cases hd
    exact { h with
      pending := fun _ => h.pending hpending
      deployed := fun hdeployed => absurd hdeployed hreturned
      rewritten := fun hdeployed => absurd hdeployed hreturned }
  · exact Or.inr (agree_create h haccepts hc)
  · exact Or.inr (agree_update h hok hdeployer haccepts hc)

/-! ## A step that loses a host -/

theorem broken_of_not_keeps {s s' : State} {e : Event} (h : p.Agree s) (hok : ¬p.Keeps s e)
    (hs : p.step s e = some s') : Failed s' ∨ p.Broken s' := by
  cases e with
  | add o order => exact absurd trivial hok
  | deploy o =>
    cases o with
    | fail | lost | late => exact absurd trivial hok
    | ok =>
      rcases deployStep_cases hs with hfail | ⟨hdeployer, -⟩ |
        ⟨-, haccepts, c, ⟨hdeployer, hc⟩ | ⟨version, hdeployer, hc⟩, rfl⟩
      · exact Or.inl (Or.inr hfail)
      · refine absurd ?_ hok
        rw [Keeps, hdeployer]
        trivial
      · refine absurd ?_ hok
        rw [Keeps, hdeployer]
        trivial
      · right
        refine ⟨rfl, ?_⟩
        rw [Keeps, hdeployer] at hok
        have hhosts := hosts_deployed (s := s) (d := .returned true) (Cell.object_of_update hc)
        cases hpc : s.adder with
        | getHosts | update hosts i version' =>
          rw [hpc] at hok
          exact absurd trivial hok
        | returned success =>
          rw [hpc] at hok
          cases success with
          | false => exact absurd trivial hok
          | true =>
            refine Or.inl ⟨rfl, fun hkept => hok ?_⟩
            rw [← hhosts]
            exact hkept.1
        | getIngress hosts =>
          rw [hpc] at hok
          have hheld : s.adder.hosts = some hosts := by rw [hpc]; rfl
          have hpending : s.deployer.pending = true := by rw [hdeployer]; rfl
          obtain ⟨host, hhost, hlost⟩ : ∃ host ∈ Client.allHosts p.opts,
              ¬(host ∈ s.hosts p ∨ host = sanitizeHost p.domain) := by
            simpa using hok
          refine Or.inr ⟨hosts, rfl, (h.listed hosts hheld).1, host, hhost, ?_⟩
          rwa [h.pending hpending hosts hheld host]

theorem broken_step {s s' : State} {e : Event} (h : p.Broken s) (hs : p.step s e = some s') :
    Failed s' ∨ p.Broken s' := by
  obtain ⟨hdeployer, hlost⟩ := h
  cases e with
  | deploy o =>
    rw [step] at hs
    unfold deployStep at hs
    rw [hdeployer] at hs
    cases hs
  | add o order =>
    have hdeployer' : s'.deployer = .returned true := (deployer_addStep hs).trans hdeployer
    rcases hlost with ⟨hadder, -⟩ | ⟨hosts, hheld, hname, host, hhost, hmissing⟩
    · rw [step] at hs
      unfold addStep at hs
      rw [hadder] at hs
      cases hs
    · rcases addStep_cases hs with hfail | ⟨hadder, -⟩ | ⟨hosts', hadder, i, hi, rfl⟩ |
        ⟨hosts', i, version, c, hadder, haccepts, hc, rfl⟩
      · exact Or.inl (Or.inl hfail)
      · rw [hadder] at hheld
        cases hheld
      · rw [hadder] at hheld
        exact Or.inr ⟨hdeployer', Or.inr ⟨hosts, hheld, hname, host, hhost, hmissing⟩⟩
      · rw [hadder] at hheld
        cases hheld
        refine Or.inr ⟨hdeployer', Or.inl ⟨rfl, fun hkept => hmissing ?_⟩⟩
        have hin := hkept.2 host hhost
        rw [hname] at hc hin
        have hself : (Function.update s.ingresses p.name c p.name).object =
            some (Client.updateIngressHosts p.baseDomain p.name hosts i) := by
          rw [Function.update_self, Cell.object_of_update hc]
        rwa [hosts_of_object hself, hosts_updateIngressHosts] at hin

theorem agree_step {s s' : State} {e : Event} (h : p.Agree s) (hok : p.Keeps s e)
    (hs : p.step s e = some s') : Failed s' ∨ p.Agree s' := by
  cases e with
  | add o order => exact agree_addStep h hs
  | deploy o => exact agree_deployStep h hok hs

/-! ## Runs -/

/-- Neither call has begun, and the store holds what the worker wrote before. -/
structure Start (p : IngressRace) (s : State) : Prop where
  stocked : Stocked p.baseDomain s.ingresses
  adder : s.adder = .getHosts
  deployer : s.deployer = .get

theorem Start.agree {s : State} (h : p.Start s) : p.Agree s where
  stocked := h.stocked
  listed := by rw [h.adder]; nofun
  read := by rw [h.adder]; nofun
  added := by rw [h.adder]; nofun
  pending := by rw [h.adder]; nofun
  deployed := by rw [h.deployer]; nofun
  rewritten := by rw [h.deployer]; nofun

/-- In a run that ends with both calls successful, no host is lost if and only if the deploy
replaced the rules at no moment that loses one. -/
theorem hosts_kept_iff (p : IngressRace) {s s' : State} {es : List Event} (hstart : p.Start s)
    (h : runEvents p.step s es = some s') (hadder : s'.adder = .returned true)
    (hdeployer : s'.deployer = .returned true) :
    p.Kept s' ↔ RunsUnder p.step p.Keeps s es := by
  have hsuccess : ¬Failed s' := by
    rintro (hfail | hfail)
    · rw [hadder] at hfail
      cases hfail
    · rw [hdeployer] at hfail
      cases hfail
  have hend := runsUnder_or_bad p.Keeps (fun s => Failed s ∨ p.Agree s)
    (fun s => Failed s ∨ p.Broken s) ?_ ?_ ?_ h (Or.inr hstart.agree)
  · rcases hend with ⟨hrun, hfail | hagree⟩ | ⟨hrun, hfail | hbroken⟩
    · exact absurd hfail hsuccess
    · exact ⟨fun _ => hrun, fun _ => ⟨hagree.added hadder, hagree.deployed hdeployer⟩⟩
    · exact absurd hfail hsuccess
    · refine ⟨fun hkept => ?_, fun hall => absurd hall hrun⟩
      rcases hbroken.2 with ⟨-, hlost⟩ | ⟨hosts, hheld, -⟩
      · exact absurd hkept hlost
      · rw [hadder] at hheld
        cases hheld
  · rintro s e s' (hfail | hagree) hok hs
    · exact Or.inl (failed_step hfail hs)
    · exact agree_step hagree hok hs
  · rintro s e s' (hfail | hagree) hok hs
    · exact Or.inl (failed_step hfail hs)
    · exact broken_of_not_keeps hagree hok hs
  · rintro s e s' (hfail | hbroken) hs
    · exact Or.inl (failed_step hfail hs)
    · exact broken_step hbroken hs

/-! ## The calls without interruption -/

def Alike (cells : Cells) (cl : Cluster) : Prop :=
  ∀ name, (cells name).object = cl.ingresses name

theorem Alike.update {cells : Cells} {cl : Cluster} (h : Alike cells cl) {name : GoString}
    {c : Cell IngressObject} {i : IngressObject} (hc : c.object = some i) :
    Alike (Function.update cells name c) (cl.apply (.ingress name i)) := by
  intro name'
  show (Function.update cells name c name').object = if name' = name then some i else _
  by_cases hname : name' = name
  · rw [hname, Function.update_self, if_pos rfl, hc]
  · rw [Function.update_of_ne hname, if_neg hname]
    exact h name'

/-- A deploy that nobody interrupts performs the command `apply`. -/
theorem alike_deploy {s s' : State} {cl : Cluster} (h : Alike s.ingresses cl)
    (hdeployer : s.deployer = .get)
    (hs : runEvents p.step s [.deploy .ok, .deploy .ok] = some s')
    (hsuccess : s'.deployer = .returned true) :
    Alike s'.ingresses (cl.apply (.ingress p.name (Client.ingress p.baseDomain p.opts))) := by
  rw [runEvents] at hs
  split at hs
  · cases hs
  · rename_i t ht
    rw [runEvents] at hs
    split at hs
    · cases hs
    · rename_i t' ht'
      cases hs
      have hget : t.ingresses = s.ingresses := by
        rw [step] at ht
        unfold deployStep at ht
        rw [hdeployer] at ht
        simp only [if_pos] at ht
        split at ht <;> cases ht <;> rfl
      rcases deployStep_cases ht' with hfail | ⟨-, d, hd, rfl⟩ |
        ⟨-, -, c, ⟨-, hc⟩ | ⟨version, -, hc⟩, rfl⟩
      · rw [hsuccess] at hfail
        cases hfail
      · simp only at hsuccess
        rw [hsuccess] at hd
        cases hd
      · rw [hget] at hc ⊢
        exact h.update (Cell.object_of_create hc)
      · rw [hget] at hc ⊢
        exact h.update (Cell.object_of_update hc)

/-! ## A shop that gets a domain -/

def shopRace (domains : List String) : IngressRace where
  baseDomain := utf8 "example.dev"
  opts :=
    { deploymentId := 2, projectId := 1, projectName := utf8 "shop"
      imageName := utf8 "registry.example.dev/shop:01234567", port := 80
      cpuRequest := "100m", cpuLimit := "500m", memoryRequest := "128Mi", memoryLimit := "512Mi"
      replicas := 1, envVars := [], domains := domains.map utf8 }
  domain := utf8 "shop.example.org"

def shopStart (domains : List String) : State where
  ingresses :=
    Function.update (fun _ => { object := none, version := 0 }) (utf8 "shop")
      { object := some (Client.ingress (utf8 "example.dev") (shopRace domains).opts), version := 1 }
  adder := .getHosts
  deployer := .get

theorem start_shop (domains : List String) : (shopRace domains).Start (shopStart domains) where
  stocked := by
    have hempty : Stocked (utf8 "example.dev") fun _ => { object := none, version := 0 } := nofun
    refine hempty.update rfl (.deployed (shopRace domains).opts) ?_
    show decide ((sanitizeK8sName (utf8 "shop")).length ≤ 63) = true
    decide
  adder := rfl
  deployer := rfl

/-- The deploy comes first, and the domain is added to what it wrote. -/
theorem hosts_kept_shop : ∃ s,
    runEvents (shopRace ["shop-a1b2c3.example.dev"]).step (shopStart ["shop-a1b2c3.example.dev"])
      [.deploy .ok, .deploy .ok, .add .ok [utf8 "shop-a1b2c3.example.dev"], .add .ok [],
        .add .ok []] = some s ∧
      (shopRace ["shop-a1b2c3.example.dev"]).Kept s := by
  have hrun : ((runEvents (shopRace ["shop-a1b2c3.example.dev"]).step
      (shopStart ["shop-a1b2c3.example.dev"])
      [.deploy .ok, .deploy .ok, .add .ok [utf8 "shop-a1b2c3.example.dev"], .add .ok [],
        .add .ok []]).any fun s =>
          s.adder = .returned true && s.deployer = .returned true) = true := by
    decide
  rw [Option.any_eq_true] at hrun
  obtain ⟨s, hs, hreturned⟩ := hrun
  rw [Bool.and_eq_true, decide_eq_true_eq, decide_eq_true_eq] at hreturned
  refine ⟨s, hs, (hosts_kept_iff _ (start_shop _) hs hreturned.1 hreturned.2).mpr ?_⟩
  decide

/-- The domain is added between the snapshot of the deploy and its write. -/
theorem not_hosts_kept :
    ¬∀ (p : IngressRace) (s s' : State) (es : List Event), p.Start s →
      runEvents p.step s es = some s' → s'.adder = .returned true →
        s'.deployer = .returned true → p.Kept s' := by
  intro h
  have hrun : ((runEvents (shopRace ["shop-a1b2c3.example.dev"]).step
      (shopStart ["shop-a1b2c3.example.dev"])
      [.add .ok [utf8 "shop-a1b2c3.example.dev"], .add .ok [], .add .ok [], .deploy .ok,
        .deploy .ok]).any fun s =>
          s.adder = .returned true && s.deployer = .returned true &&
            !decide ((shopRace ["shop-a1b2c3.example.dev"]).Kept s)) = true := by
    decide
  rw [Option.any_eq_true] at hrun
  obtain ⟨s, hs, hreturned⟩ := hrun
  simp only [Bool.and_eq_true, decide_eq_true_eq, Bool.not_eq_true', decide_eq_false_iff_not]
    at hreturned
  obtain ⟨⟨hadder, hdeployer⟩, hlost⟩ := hreturned
  exact hlost (h _ _ s _ (start_shop _) hs hadder hdeployer)

end IngressRace
end System
end Code2Cloud
