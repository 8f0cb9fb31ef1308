import Code2Cloud.System.Objects
import Mathlib.Data.List.Dedup

/-!
# Verified and routed domains

The domain worker adds a domain to an ingress after its DNS check.  A deploy writes the ingress
with all domains of its job.
-/

namespace Code2Cloud
namespace System

open Api Worker

variable {cfg : Config} {w : World} {s s' : State} {e : Event} {p : ProjectId} {host : GoString}

/-- What became known of hosts in a run. -/
structure Checks where
  /-- The hosts of the domains that `VerifyDNS` accepted. -/
  verified : List GoString
  /-- The hosts of the addresses generated for projects. -/
  generated : List (ProjectId × GoString)
  /-- The project of the ingress that `AddDomain` read last. -/
  read : Option ProjectId

namespace Checks

def empty : Checks where
  verified := []
  generated := []
  read := none

def verifiedBy (s : State) : Event → List GoString
  | .domainWorker r =>
    match s.procs.domainWorker with
    | .verify d _ => if r.verified then [sanitizeHost d.domain] else []
    | _ => []
  | _ => []

def generatedBy (t : Turn Processes) : List (ProjectId × GoString) :=
  match t.command with
  | .openDraft draft => [(draft.project.id, sanitizeHost (utf8 draft.domain.name))]
  | _ => []

def readBy (s : State) : Event → Option ProjectId
  | .domainWorker _ =>
    match s.procs.domainWorker with
    | .getIngress d _ =>
      (s.world.cluster.ingresses (DomainWorker.ingressName d)).map (·.projectId)
    | _ => none
  | _ => none

def note (cfg : Config) (s : State) (e : Event) (_ : State) (l : Checks) : Checks where
  verified := l.verified ++ verifiedBy s e
  generated := l.generated ++ (s.turn cfg e).elim [] generatedBy
  read := readBy s e <|> l.read

/-- The host is the project's generated one, or one of a domain that was verified. -/
def Allows (l : Checks) (p : ProjectId) (host : GoString) : Prop :=
  host ∈ l.verified ∨ (p, host) ∈ l.generated

instance (l : Checks) (p : ProjectId) (host : GoString) : Decidable (l.Allows p host) :=
  inferInstanceAs (Decidable (_ ∨ _))

theorem Allows.note {l : Checks} (h : l.Allows p host) : (note cfg s e s' l).Allows p host :=
  h.imp (List.mem_append_left _) (List.mem_append_left _)

end Checks

/-- A deploy writes its ingress only when each domain of its job was verified or is the project's
generated one, and `AddDomain` writes hosts back only to an ingress of the project that it read
them from. -/
def Routes (x : State × Checks) : Event → Prop
  | .worker r =>
    match x.1.procs.worker with
    | .processing b (.deploy .ingress) =>
      r.outcome.done → ∀ host ∈ Client.allHosts (BuildWorker.deployOptions b),
        x.2.Allows b.job.projectId host
    | _ => True
  | .domainWorker r =>
    match x.1.procs.domainWorker with
    | .updateHosts d _ _ =>
      r.outcome.done →
        ∀ ingress ∈ x.1.world.cluster.ingresses (sanitizeK8sName (DomainWorker.ingressName d)),
          x.2.read = some ingress.projectId
    | _ => True
  | _ => True

instance (x : State × Checks) (e : Event) : Decidable (Routes x e) := by
  unfold Routes
  repeat' split
  all_goals infer_instance

/-! ## The ingresses after a command -/

theorem World.ingresses_exec {c : Command} {name : GoString} {ingress : IngressObject}
    (h : (w.exec cfg c).cluster.ingresses name = some ingress) :
    w.cluster.ingresses name = some ingress ∨ c = .apply (.ingress name ingress) ∨
      ∃ hosts old, c = .updateIngressHosts name hosts ∧ w.cluster.ingresses name = some old ∧
        ingress = Client.updateIngressHosts cfg.baseDomain name hosts old := by
  cases hc : c.onCluster with
  | false =>
    rw [cluster_exec cfg w hc] at h
    exact Or.inl h
  | true =>
    cases c with
    | apply o =>
      cases o with
      | ingress n o =>
        simp only [exec, Cluster.apply, Cluster.put] at h
        split at h
        · rename_i hn
          cases h
          exact Or.inr (Or.inl (by rw [hn]))
        · exact Or.inl h
      | _ => exact Or.inl h
    | delete kind n =>
      cases kind with
      | ingress =>
        rw [exec] at h
        simp only [Cluster.delete, Cluster.put] at h
        split at h
        · cases h
        · exact Or.inl h
      | _ => exact Or.inl h
    | updateIngressHosts n hosts =>
      rw [exec] at h
      cases hold : w.cluster.ingresses n with
      | none =>
        rw [hold] at h
        exact Or.inl h
      | some old =>
        rw [hold] at h
        simp only [Cluster.apply, Cluster.put] at h
        split at h
        · rename_i hn
          subst hn
          cases h
          exact Or.inr (Or.inr ⟨hosts, old, rfl, hold, rfl⟩)
        · exact Or.inl h
    | popProjectCleanup =>
      rw [cluster_popProjectCleanup] at h
      exact Or.inl h
    | _ => cases hc

/-! ## The domain worker -/

namespace DomainWorker

/-- Between the DNS check of a domain and the write to its ingress. -/
def routing : DomainWorker → Bool
  | .getIngress _ _ | .updateHosts _ _ _ => true
  | _ => false

theorem routing_loop (ds : List PendingDomain) : (loop ds).routing = false := by
  cases ds <;> rfl

/-- The ingress of a domain is read after its check succeeded, and what is written back to it are
its hosts and the domain. -/
theorem next_cases (w : World) (r : Reply) (dw : DomainWorker) :
    (∃ d rest, dw = .verify d rest ∧ r.verified = true ∧
      (dw.step w r).next = .getIngress d rest) ∨
    (∃ d rest ingress, dw = .getIngress d rest ∧
      w.cluster.ingresses (ingressName d) = some ingress ∧
      (dw.step w r).next = .updateHosts d (existingHosts ingress ++ [d.domain]) rest) ∨
    (dw.step w r).next.routing = false := by
  have hrequest (c : InternalRequest) (rest : List PendingDomain) :
      (request w r.outcome c (loop rest) (loop rest)).next.routing = false :=
    next_request_of (P := fun x : DomainWorker => x.routing = false) (routing_loop rest)
      (routing_loop rest) w r.outcome c [] []
  cases dw with
  | idle =>
    refine Or.inr (Or.inr ?_)
    rw [step, query]
    split
    · exact routing_loop _
    · rfl
  | verify d rest =>
    cases hr : r.verified with
    | true => exact Or.inl ⟨d, rest, rfl, rfl, by simp [step, Turn.pure, hr]⟩
    | false => exact Or.inr (Or.inr (by simp [step, Turn.pure, hr, routing]))
  | getIngress d rest =>
    rw [step, query]
    split
    · simp only [Turn.pure]
      cases hingress : w.cluster.ingresses (ingressName d) with
      | none => exact Or.inr (Or.inr rfl)
      | some ingress =>
        dsimp only
        split
        · exact Or.inr (Or.inr rfl)
        · exact Or.inr (Or.inl ⟨d, rest, ingress, rfl, hingress, rfl⟩)
    · exact Or.inr (Or.inr rfl)
  | markPending | markError | markActive => exact Or.inr (Or.inr (hrequest _ _))
  | updateHosts d hosts rest =>
    refine Or.inr (Or.inr ?_)
    rw [step]
    exact next_issue_of (P := fun x : DomainWorker => x.routing = false) rfl rfl w r.outcome _ [] []

end DomainWorker

theorem rule_of_mem {hosts : List GoString} {name : GoString} {rule : IngressRule}
    (h : rule ∈ buildIngressRules hosts name) :
    ∃ host ∈ hosts, rule.host = sanitizeHost host := by
  obtain ⟨host, hhost, rfl⟩ := List.mem_map.mp h
  exact ⟨host, hhost, rfl⟩

theorem ingress_of_object {b : Build} {stage : Client.DeployStage} {name : GoString}
    {ingress : IngressObject}
    (h : Client.object cfg.baseDomain (BuildWorker.deployOptions b) stage =
      some (.ingress name ingress)) :
    stage = .ingress ∧ ingress = Client.ingress cfg.baseDomain (BuildWorker.deployOptions b) := by
  cases stage with
  | ingress =>
    rw [Client.object, Option.some.injEq, Object.ingress.injEq] at h
    exact ⟨rfl, h.2.symm⟩
  | _ => simp [Client.object, Client.serviceAccount] at h

/-- An ingress of the project has a rule for the host. -/
def World.routes (w : World) (x : ProjectId × GoString) : Prop :=
  ∃ name ingress, w.cluster.ingresses name = some ingress ∧ ingress.projectId = x.1 ∧
    ∃ rule ∈ ingress.rules, rule.host = x.2

namespace State

/-- Where a rule after a step comes from: it was there, or a deploy or `AddDomain` wrote it. -/
inductive Routing (s : State) : Event → ProjectId × GoString → Prop
  | old {e : Event} {x : ProjectId × GoString} (h : s.world.routes x) : Routing s e x
  | deploy {r : Reply} {b : Build} {host : GoString}
      (hworker : s.procs.worker = .processing b (.deploy .ingress)) (hdone : r.outcome.done)
      (hhost : host ∈ Client.allHosts (BuildWorker.deployOptions b)) :
      Routing s (.worker r) (b.job.projectId, host)
  | addDomain {r : Reply} {d : PendingDomain} {hosts : List GoString} {rest : List PendingDomain}
      {old : IngressObject} {host : GoString}
      (hdomain : s.procs.domainWorker = .updateHosts d hosts rest) (hdone : r.outcome.done)
      (hold : s.world.cluster.ingresses (sanitizeK8sName (DomainWorker.ingressName d)) = some old)
      (hhost : host ∈ hosts) : Routing s (.domainWorker r) (old.projectId, sanitizeHost host)

theorem routes_step (h : s.step cfg e = some s') {x : ProjectId × GoString}
    (hx : s'.world.routes x) : s.Routing e x := by
  obtain ⟨name, ingress, hingress, hproject, rule, hrule, hhost⟩ := hx
  obtain ⟨t, ht, _, rfl⟩ := step_eq_some_iff.mp h
  rcases World.ingresses_exec hingress with hold | hc | ⟨hosts, old, hc, hold, rfl⟩
  · exact .old ⟨name, ingress, hold, hproject, rule, hrule, hhost⟩
  · obtain ⟨r, b, stage, rfl, hworker, ho, hdone⟩ :=
      (hc ▸ touches_turn ht (by rw [hc]; rfl)).of_apply
    obtain ⟨rfl, hnew⟩ := ingress_of_object ho
    rw [hnew] at hrule hproject
    obtain ⟨host, hmem, hrule⟩ := rule_of_mem hrule
    obtain ⟨domain, _, hdomain⟩ := List.mem_map.mp hmem
    have hsame : sanitizeHost host = host := by rw [← hdomain, sanitizeHost_sanitizeHost]
    have heq : x = (b.job.projectId, host) :=
      Prod.ext hproject.symm (hhost.symm.trans (hrule.trans hsame))
    rw [heq]
    exact .deploy hworker hdone hmem
  · obtain ⟨r, d, rest, rfl, hdomain, hname, hdone⟩ :=
      (hc ▸ touches_turn ht (by rw [hc]; rfl)).of_updateIngressHosts
    obtain ⟨host, hmem, hrule⟩ := rule_of_mem hrule
    have heq : x = (old.projectId, sanitizeHost host) :=
      Prod.ext hproject.symm (hhost.symm.trans hrule)
    rw [heq]
    exact .addDomain hdomain hdone (hname ▸ hold) hmem

def Sanitized (s : State) : Prop := ∀ x, s.world.routes x → sanitizeHost x.2 = x.2

theorem sanitized_step (hs : s.Sanitized) (h : s.step cfg e = some s') : s'.Sanitized := by
  intro x hx
  cases routes_step h hx with
  | old hold => exact hs x hold
  | deploy _ _ hhost =>
    obtain ⟨domain, _, rfl⟩ := List.mem_map.mp hhost
    exact sanitizeHost_sanitizeHost _
  | addDomain => exact sanitizeHost_sanitizeHost _

/-- The domain worker goes on to an ingress only after the DNS check. -/
theorem getIngress_step (h : s.step cfg e = some s') {d : PendingDomain}
    {rest : List PendingDomain} (hd : s'.procs.domainWorker = .getIngress d rest) :
    s.procs.domainWorker = .getIngress d rest ∨
      ∃ r, e = .domainWorker r ∧ s.procs.domainWorker = .verify d rest ∧ r.verified = true := by
  rcases loops_step h with hloops | ⟨_, hrestarted⟩
  · by_cases he : ∀ r, e ≠ .domainWorker r
    · exact Or.inl ((hloops.domainWorker he).symm.trans hd)
    · simp only [ne_eq, not_forall, not_not] at he
      obtain ⟨r, rfl⟩ := he
      rw [step_domainWorker h] at hd
      dsimp only at hd
      rcases DomainWorker.next_cases s.world r s.procs.domainWorker with
        ⟨d', rest', hverify, hr, hnext⟩ | ⟨_, _, _, _, _, hnext⟩ | hrouting
      · cases hnext.symm.trans hd
        exact Or.inr ⟨r, rfl, hverify, hr⟩
      · cases hnext.symm.trans hd
      · rw [hd] at hrouting
        cases hrouting
  · rw [hrestarted.domainWorker] at hd
    cases hd

/-- What `AddDomain` is about to write back comes from an ingress, or is the domain. -/
theorem updateHosts_step (h : s.step cfg e = some s') {d : PendingDomain}
    {hosts : List GoString} {rest : List PendingDomain}
    (hd : s'.procs.domainWorker = .updateHosts d hosts rest) :
    (s.procs.domainWorker = .updateHosts d hosts rest ∧ Checks.readBy s e = none) ∨
      ∃ r ingress, e = .domainWorker r ∧ s.procs.domainWorker = .getIngress d rest ∧
        s.world.cluster.ingresses (DomainWorker.ingressName d) = some ingress ∧
        hosts = DomainWorker.existingHosts ingress ++ [d.domain] := by
  rcases loops_step h with hloops | ⟨_, hrestarted⟩
  · by_cases he : ∀ r, e ≠ .domainWorker r
    · refine Or.inl ⟨(hloops.domainWorker he).symm.trans hd, ?_⟩
      cases e with
      | domainWorker r => exact absurd rfl (he r)
      | _ => rfl
    · simp only [ne_eq, not_forall, not_not] at he
      obtain ⟨r, rfl⟩ := he
      rw [step_domainWorker h] at hd
      dsimp only at hd
      rcases DomainWorker.next_cases s.world r s.procs.domainWorker with
        ⟨_, _, _, _, hnext⟩ | ⟨d', rest', ingress, hget, hingress, hnext⟩ | hrouting
      · cases hnext.symm.trans hd
      · cases hnext.symm.trans hd
        exact Or.inr ⟨r, ingress, rfl, hget, hingress, rfl⟩
      · rw [hd] at hrouting
        cases hrouting
  · rw [hrestarted.domainWorker] at hd
    cases hd

end State

/-! ## The hosts of a run -/

/-- The ingresses route allowed hosts, and the domain worker is about to add one. -/
structure Routed (s : State) (l : Checks) : Prop where
  sanitized : s.Sanitized
  routes : ∀ x, s.world.routes x → l.Allows x.1 x.2
  getIngress : ∀ d rest, s.procs.domainWorker = .getIngress d rest →
    sanitizeHost d.domain ∈ l.verified
  updateHosts : ∀ d hosts rest, s.procs.domainWorker = .updateHosts d hosts rest →
    ∃ p, l.read = some p ∧ ∀ host ∈ hosts, l.Allows p (sanitizeHost host)

namespace Routed

variable {l : Checks}

theorem allows_step (h : Routed s l) (hok : Routes (s, l) e) (hstep : s.step cfg e = some s')
    {x : ProjectId × GoString} (hx : s'.world.routes x) : l.Allows x.1 x.2 := by
  cases State.routes_step hstep hx with
  | old hold => exact h.routes x hold
  | deploy hworker hdone hhost =>
    simp only [Routes, hworker] at hok
    exact hok hdone _ hhost
  | @addDomain r d hosts rest old host hdomain hdone hold hhost =>
    obtain ⟨p, hread, hallows⟩ := h.updateHosts d hosts rest hdomain
    simp only [Routes, hdomain] at hok
    have hproject := hok hdone old hold
    rw [hread, Option.some.injEq] at hproject
    exact hproject ▸ hallows host hhost

theorem updates_step (h : Routed s l) (hstep : s.step cfg e = some s') {d : PendingDomain}
    {hosts : List GoString} {rest : List PendingDomain}
    (hd : s'.procs.domainWorker = .updateHosts d hosts rest) :
    ∃ p, (Checks.note cfg s e s' l).read = some p ∧
      ∀ host ∈ hosts, (Checks.note cfg s e s' l).Allows p (sanitizeHost host) := by
  rcases State.updateHosts_step hstep hd with ⟨hold, hnone⟩ |
    ⟨r, ingress, rfl, hget, hingress, rfl⟩
  · obtain ⟨p, hread, hallows⟩ := h.updateHosts d hosts rest hold
    refine ⟨p, ?_, fun host hhost => (hallows host hhost).note⟩
    simpa [Checks.note, hnone] using hread
  · refine ⟨ingress.projectId, ?_, fun host hhost => ?_⟩
    · simp [Checks.note, Checks.readBy, hget, hingress]
    · rcases List.mem_append.mp hhost with hold | hnew
      · obtain ⟨rule, hrule, rfl⟩ := List.mem_map.mp (List.mem_dedup.mp hold)
        have hroutes : s.world.routes (ingress.projectId, rule.host) :=
          ⟨_, ingress, hingress, rfl, rule, hrule, rfl⟩
        rw [h.sanitized _ hroutes]
        exact (h.routes _ hroutes).note
      · rw [List.mem_singleton.mp hnew]
        exact Or.inl (List.mem_append_left _ (h.getIngress d rest hget))

theorem step (h : Routed s l) (hok : Routes (s, l) e) (hstep : s.step cfg e = some s') :
    Routed s' (Checks.note cfg s e s' l) where
  sanitized := State.sanitized_step h.sanitized hstep
  routes x hx := (h.allows_step hok hstep hx).note
  getIngress d rest hd := by
    rcases State.getIngress_step hstep hd with hold | ⟨r, rfl, hverify, hr⟩
    · exact List.mem_append_left _ (h.getIngress d rest hold)
    · refine List.mem_append_right _ ?_
      simp [Checks.verifiedBy, hverify, hr]
  updateHosts _ _ _ hd := h.updates_step hstep hd

end Routed

theorem not_routes_initial (x : ProjectId × GoString) : ¬State.initial.world.routes x := by
  rintro ⟨name, ingress, hingress, _⟩
  cases hingress

theorem routed_initial : Routed State.initial Checks.empty where
  sanitized x hx := absurd hx (not_routes_initial x)
  routes x hx := absurd hx (not_routes_initial x)
  getIngress := nofun
  updateHosts := nofun

/-- In every run each rule of an ingress has the generated host of its project or one that
`VerifyDNS` accepted before, if no deploy writes an ingress with a domain of its job that is
neither, and `AddDomain` writes hosts back to a project's ingress only if it read them there. -/
theorem routed_is_verified {s : State} {l : Checks}
    (h : Reaches (stepNoting (State.step cfg) (Checks.note cfg)) Routes
      (State.initial, Checks.empty) (s, l)) :
    ∀ name ingress, s.world.cluster.ingresses name = some ingress →
      ∀ rule ∈ ingress.rules, l.Allows ingress.projectId rule.host := by
  have hinv := h.invariant (fun x => Routed x.1 x.2) routed_initial ?_
  · intro name ingress hingress rule hrule
    exact hinv.routes (ingress.projectId, rule.host)
      ⟨name, ingress, hingress, rfl, rule, hrule, rfl⟩
  · rintro x e y hx hok hstep
    obtain ⟨hs', hl'⟩ := stepNoting_eq_some_iff.mp hstep
    rw [hl']
    exact hx.step hok hs'

/-! ## A shop with a domain of its own -/

def shopDomain (verified : List Event) : List Event :=
  shopCreated ++ shopWorker 23 ++
    shopRequest (.createDomain 1 1 ⟨"www.shop.com", by decide⟩) 3 ++ verified ++
    shopRequest (.createDeployment 1 1) 6 ++ shopWorker 23

theorem routed_is_verified_shop :
    ∃ s l ingress rule, Reaches (stepNoting (State.step Config.clear) (Checks.note Config.clear))
        Routes (State.initial, Checks.empty) (s, l) ∧
      s.world.cluster.ingresses (utf8 "shop") = some ingress ∧ rule ∈ ingress.rules ∧
      rule.host = utf8 "www.shop.com" ∧
      l.Allows ingress.projectId rule.host := by
  obtain ⟨⟨s, l⟩, h, hend⟩ := Reaches.exists_of_runEvents
    (stepNoting (State.step Config.clear) (Checks.note Config.clear)) Routes
    (State.initial, Checks.empty) (shopDomain (List.replicate 20 (.domainWorker shopReply)))
    (fun x => (x.1.world.cluster.ingresses (utf8 "shop")).any fun ingress =>
      ingress.rules.any fun rule => rule.host == utf8 "www.shop.com")
    (by decide +kernel) (by decide +kernel)
  obtain ⟨ingress, hingress, hrules⟩ := Option.any_eq_true _ _ |>.mp hend
  obtain ⟨rule, hrule, hhost⟩ := List.any_eq_true.mp hrules
  exact ⟨s, l, ingress, rule, h, hingress, hrule, eq_of_beq hhost,
    routed_is_verified h _ ingress hingress rule hrule⟩

/-- The domain worker never runs. -/
theorem not_routed_is_verified :
    ¬∀ (cfg : Config) (s : State) (l : Checks),
      Reaches (stepNoting (State.step cfg) (Checks.note cfg)) (fun _ _ => True)
        (State.initial, Checks.empty) (s, l) →
        ∀ name ingress, s.world.cluster.ingresses name = some ingress →
          ∀ rule ∈ ingress.rules, l.Allows ingress.projectId rule.host := by
  intro h
  obtain ⟨⟨s, l⟩, hs, hend⟩ := Reaches.exists_of_runEvents
    (stepNoting (State.step Config.clear) (Checks.note Config.clear)) (fun _ _ => True)
    (State.initial, Checks.empty) (shopDomain [])
    (fun x => (x.1.world.cluster.ingresses (utf8 "shop")).any fun ingress =>
      ingress.rules.any fun rule => !decide (x.2.Allows ingress.projectId rule.host))
    (by decide +kernel) (runsUnder_true _ _ _)
  obtain ⟨ingress, hingress, hrules⟩ := Option.any_eq_true _ _ |>.mp hend
  obtain ⟨rule, hrule, hnot⟩ := List.any_eq_true.mp hrules
  rw [Bool.not_eq_true', decide_eq_false_iff_not] at hnot
  exact hnot (h Config.clear s l hs _ ingress hingress rule hrule)

end System
end Code2Cloud
