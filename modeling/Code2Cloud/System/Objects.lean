import Code2Cloud.System.Turns

/-!
# Who writes the cluster

The commands on the cluster's objects and the loops of the worker that issue them.
-/

namespace Code2Cloud
namespace System

open Api Worker

variable {cfg : Config} {w : World} {s s' : State} {e : Event}

def Command.onCluster : Command → Bool
  | .apply _ | .delete _ _ | .updateIngressHosts _ _ | .popProjectCleanup => true
  | _ => false

theorem World.cluster_exec (cfg : Config) (w : World) {c : Command} (hc : c.onCluster = false) :
    (w.exec cfg c).cluster = w.cluster := by
  cases c with
  | apply | delete | updateIngressHosts | popProjectCleanup => cases hc
  | popBuildJob =>
    rw [exec]
    cases w.redis.toQueues.waitForJob <;> rfl
  | _ => rfl

theorem World.cluster_popProjectCleanup (cfg : Config) (w : World) :
    (w.exec cfg .popProjectCleanup).cluster = w.cluster := by
  rw [exec]
  cases w.redis.toQueues.popProjectCleanup <;> rfl

/-- A request that is carried out, whatever its sender is told. -/
def Outcome.done (o : Outcome) : Prop := o = .ok ∨ o = .lost

instance (o : Outcome) : Decidable o.done := inferInstanceAs (Decidable (_ ∨ _))

/-- The steps that issue a command on the cluster. -/
inductive State.Touches (cfg : Config) (s : State) : Event → Command → Prop
  | deploy {r : Reply} {b : Build} {stage : Client.DeployStage} {o : Object}
      (hworker : s.procs.worker = .processing b (.deploy stage))
      (ho : Client.object cfg.baseDomain (BuildWorker.deployOptions b) stage = some o)
      (hdone : r.outcome.done) : Touches cfg s (.worker r) (.apply o)
  | cancel {r : Reply} {job : BuildJob} {kind : Kind} {left : List Kind}
      (hworker : s.procs.worker = .cancelling job (.cleanup (kind :: left)))
      (hdone : r.outcome.done) :
      Touches cfg s (.worker r)
        (.delete kind (Client.deleteName kind (BuildWorker.cleanupOptions job)))
  | expire {r : Reply} {d : ExpiredDeployment} {kind : Kind} {left : List Kind}
      {rest : List ExpiredDeployment} (hsweep : s.procs.sweep = .cleanup d (kind :: left) rest)
      (hdone : r.outcome.done) :
      Touches cfg s (.sweep r)
        (.delete kind (Client.deleteName kind (CleanupWorker.cleanupOptions d)))
  | remove {r : Reply} {job : ProjectCleanupJob} {kind : Kind} {left : List Kind}
      (hcleanup : s.procs.projectCleanup = .cleanup job (kind :: left))
      (hdone : r.outcome.done) :
      Touches cfg s (.projectCleanup r)
        (.delete kind (Client.deleteName kind (ProjectCleanupWorker.cleanupOptions job)))
  | takeUp {r : Reply} (hcleanup : s.procs.projectCleanup = .idle) (hdone : r.outcome.done) :
      Touches cfg s (.projectCleanup r) .popProjectCleanup
  | addDomain {r : Reply} {d : PendingDomain} {hosts : List GoString} {rest : List PendingDomain}
      (hdomain : s.procs.domainWorker = .updateHosts d hosts rest) (hdone : r.outcome.done) :
      Touches cfg s (.domainWorker r)
        (.updateIngressHosts (sanitizeK8sName (DomainWorker.ingressName d)) hosts)

namespace State.Touches

theorem of_apply {o : Object} (h : s.Touches cfg e (.apply o)) :
    ∃ r b stage, e = .worker r ∧ s.procs.worker = .processing b (.deploy stage) ∧
      Client.object cfg.baseDomain (BuildWorker.deployOptions b) stage = some o ∧
      r.outcome.done := by
  cases h with
  | deploy hworker ho hdone => exact ⟨_, _, _, rfl, hworker, ho, hdone⟩

theorem of_updateIngressHosts {name : GoString} {hosts : List GoString}
    (h : s.Touches cfg e (.updateIngressHosts name hosts)) :
    ∃ r d rest, e = .domainWorker r ∧ s.procs.domainWorker = .updateHosts d hosts rest ∧
      name = sanitizeK8sName (DomainWorker.ingressName d) ∧ r.outcome.done := by
  generalize hc : Command.updateIngressHosts name hosts = c at h
  cases h with
  | addDomain hdomain hdone =>
    rw [Command.updateIngressHosts.injEq] at hc
    obtain ⟨hname, rfl⟩ := hc
    exact ⟨_, _, _, rfl, hdomain, hname, hdone⟩
  | _ => cases hc

end State.Touches

theorem done_of_issue {σ : Type} {o : Outcome} {c c' : Command} {ok err : σ}
    {entries errors : List Entry} (h : (issue w o c ok err entries errors).command = c')
    (hc : c'.onCluster = true) : c' = c ∧ o.done := by
  unfold issue at h
  split at h
  · cases o with
    | ok => exact ⟨h.symm, Or.inl rfl⟩
    | lost => exact ⟨h.symm, Or.inr rfl⟩
    | fail | late =>
      subst h
      cases hc
  · subst h
    cases hc

theorem command_of_done {σ : Type} {o : Outcome} {c : Command} (hadmits : w.admits c = true)
    (hdone : o.done) (ok err : σ) (entries errors : List Entry) :
    (issue w o c ok err entries errors).command = c := by
  unfold issue
  rw [if_pos hadmits]
  rcases hdone with rfl | rfl <;> rfl

theorem onCluster_query {σ : Type} (o : Outcome) (ok err : σ) (entries errors : List Entry) :
    (query o (.pure ok entries) (.pure err errors)).command.onCluster = false := by
  unfold query
  split <;> rfl

theorem onCluster_request {σ : Type} (o : Outcome) (c : InternalRequest) (ok err : σ)
    (entries errors : List Entry) :
    (request w o c ok err entries errors).command.onCluster = false := by
  rcases command_request w o c ok err entries errors with h | h <;> rw [h]
  · cases c <;> rfl
  · rfl

theorem onCluster_of_foreground {c : Command} (hc : c.foreground = true) : c.onCluster = false := by
  cases c <;> first | rfl | cases hc

namespace State

theorem touches_worker {r : Reply} {c : Command} (hc : c.onCluster = true)
    (h : (s.procs.worker.step cfg s.world r).command = c) : s.Touches cfg (.worker r) c := by
  have hnone {c' : Command} (h : c' = c) (hoff : c'.onCluster = false) :
      s.Touches cfg (.worker r) c := by
    rw [h, hc] at hoff
    cases hoff
  cases hworker : s.procs.worker with
  | idle =>
    rw [hworker, BuildWorker.step] at h
    split at h
    · exact hnone h rfl
    · rcases command_issue s.world r.outcome .popBuildJob _ _ [] [] with hi | hi <;>
        rw [hi] at h <;> exact hnone h rfl
  | processing b pc =>
    rw [hworker, BuildWorker.step] at h
    cases pc with
    | checkQueued | checkSettings | checkClone | checkBuild | checkDeploy =>
      rw [BuildWorker.processStep, BuildWorker.check] at h
      split at h <;> exact hnone h rfl
    | projectPending | markBuilding | recordImage | markDeploying | markReady | projectActive =>
      exact hnone h (onCluster_request _ _ _ _ _ _)
    | getSettings | startStreaming => exact hnone h rfl
    | getToken | clone | build => exact hnone h (onCluster_query _ _ _ _ _)
    | deploy stage =>
      rw [BuildWorker.processStep] at h
      split at h
      · rename_i o next ho _
        obtain ⟨rfl, hdone⟩ := done_of_issue h hc
        exact .deploy hworker ho hdone
      · exact hnone h rfl
    | stopPrevious =>
      rw [BuildWorker.processStep] at h
      split at h <;> exact hnone h rfl
    | supersede =>
      rw [BuildWorker.processStep] at h
      split at h
      · exact hnone h (onCluster_request _ _ _ _ _ _)
      · exact hnone h rfl
  | cancelling job pc =>
    rw [hworker, BuildWorker.step] at h
    cases pc with
    | markCanceled | deleteResources | projectInactive =>
      exact hnone h (onCluster_request _ _ _ _ _ _)
    | stopStreaming | stopStreams => exact hnone h rfl
    | clearSignal =>
      obtain ⟨rfl, _⟩ := done_of_issue h hc
      cases hc
    | cleanup left =>
      cases left with
      | nil => exact hnone h rfl
      | cons kind left =>
        obtain ⟨rfl, hdone⟩ := done_of_issue h hc
        exact .cancel hworker hdone
  | failing job pc =>
    rw [hworker, BuildWorker.step] at h
    cases pc with
    | markFailed => exact hnone h (onCluster_request _ _ _ _ _ _)
    | stopStreams => exact hnone h rfl

theorem touches_sweep {r : Reply} {c : Command} (hc : c.onCluster = true)
    (h : (s.procs.sweep.step s.world r).command = c) : s.Touches cfg (.sweep r) c := by
  have hnone {c' : Command} (h : c' = c) (hoff : c'.onCluster = false) :
      s.Touches cfg (.sweep r) c := by
    rw [h, hc] at hoff
    cases hoff
  cases hsweep : s.procs.sweep with
  | idle =>
    rw [hsweep] at h
    exact hnone h (onCluster_query _ _ _ _ _)
  | fetching configs found =>
    rw [hsweep] at h
    cases configs <;> exact hnone h (onCluster_query _ _ _ _ _)
  | stopStreaming =>
    rw [hsweep] at h
    exact hnone h rfl
  | cleanup d left rest =>
    rw [hsweep] at h
    cases left with
    | nil => exact hnone h rfl
    | cons kind left =>
      obtain ⟨rfl, hdone⟩ := done_of_issue h hc
      exact .expire hsweep hdone
  | markExpired | projectInactive =>
    rw [hsweep] at h
    exact hnone h (onCluster_request _ _ _ _ _ _)

theorem touches_projectCleanup {r : Reply} {c : Command} (hc : c.onCluster = true)
    (h : (s.procs.projectCleanup.step s.world r).command = c) :
    s.Touches cfg (.projectCleanup r) c := by
  have hnone {c' : Command} (h : c' = c) (hoff : c'.onCluster = false) :
      s.Touches cfg (.projectCleanup r) c := by
    rw [h, hc] at hoff
    cases hoff
  cases hcleanup : s.procs.projectCleanup with
  | idle =>
    rw [hcleanup, ProjectCleanupWorker.step] at h
    split at h
    · exact hnone h rfl
    · obtain ⟨rfl, hdone⟩ := done_of_issue h hc
      exact .takeUp hcleanup hdone
  | stopStreaming job ids =>
    rw [hcleanup] at h
    cases ids <;> exact hnone h rfl
  | cleanup job left =>
    rw [hcleanup] at h
    cases left with
    | nil => exact hnone h rfl
    | cons kind left =>
      obtain ⟨rfl, hdone⟩ := done_of_issue h hc
      exact .remove hcleanup hdone

theorem touches_domainWorker {r : Reply} {c : Command} (hc : c.onCluster = true)
    (h : (s.procs.domainWorker.step s.world r).command = c) :
    s.Touches cfg (.domainWorker r) c := by
  have hnone {c' : Command} (h : c' = c) (hoff : c'.onCluster = false) :
      s.Touches cfg (.domainWorker r) c := by
    rw [h, hc] at hoff
    cases hoff
  cases hdomain : s.procs.domainWorker with
  | idle | getIngress =>
    rw [hdomain] at h
    exact hnone h (onCluster_query _ _ _ _ _)
  | verify =>
    rw [hdomain] at h
    exact hnone h rfl
  | markPending | markError | markActive =>
    rw [hdomain] at h
    exact hnone h (onCluster_request _ _ _ _ _ _)
  | updateHosts d hosts rest =>
    rw [hdomain] at h
    obtain ⟨rfl, hdone⟩ := done_of_issue h hc
    exact .addDomain hdomain hdone

theorem touches_turn {t : Turn Processes} (ht : s.turn cfg e = some t)
    (hc : t.command.onCluster = true) : s.Touches cfg e t.command := by
  cases e with
  | tick | request | restart =>
    cases ht
    cases hc
  | edit edit =>
    rw [turn] at ht
    split at ht
    · cases ht
      cases edit <;> cases hc
    · cases ht
  | call i r =>
    rw [turn, Option.map_eq_some_iff] at ht
    obtain ⟨c, _, rfl⟩ := ht
    rw [Turn.command_map, onCluster_of_foreground (foreground_call cfg s.world r c).command] at hc
    cases hc
  | worker r =>
    cases ht
    exact touches_worker hc rfl
  | sweep r =>
    cases ht
    exact touches_sweep hc rfl
  | projectCleanup r =>
    cases ht
    exact touches_projectCleanup hc rfl
  | domainWorker r =>
    cases ht
    exact touches_domainWorker hc rfl

/-! ## The loops -/

structure Restarted (s : State) : Prop where
  worker : s.procs.worker = .idle
  sweep : s.procs.sweep = .idle
  projectCleanup : s.procs.projectCleanup = .idle
  domainWorker : s.procs.domainWorker = .idle

/-- The loops beside the build loop after a step: each is as it was or has taken its step. -/
structure Loops (s : State) (e : Event) (s' : State) : Prop where
  sweep : (∀ r, e ≠ .sweep r) → s'.procs.sweep = s.procs.sweep
  projectCleanup : (∀ r, e ≠ .projectCleanup r) → s'.procs.projectCleanup = s.procs.projectCleanup
  domainWorker : (∀ r, e ≠ .domainWorker r) → s'.procs.domainWorker = s.procs.domainWorker

def ends (cfg : Config) (s : State) : Event → Bool
  | .worker r => (s.procs.worker.step cfg s.world r).next.isNone
  | .restart => true
  | _ => false

theorem loops_step (h : s.step cfg e = some s') :
    Loops s e s' ∨ s.ends cfg e = true ∧ s'.Restarted := by
  cases e with
  | tick milliseconds =>
    rw [step_tick h]
    exact Or.inl ⟨fun _ => rfl, fun _ => rfl, fun _ => rfl⟩
  | request r =>
    rw [step_request h]
    exact Or.inl ⟨fun _ => rfl, fun _ => rfl, fun _ => rfl⟩
  | edit edit =>
    rw [(step_edit h).2]
    exact Or.inl ⟨fun _ => rfl, fun _ => rfl, fun _ => rfl⟩
  | call i r =>
    obtain ⟨_, _, _, _, _, _, rfl⟩ := step_call h
    exact Or.inl ⟨fun _ => rfl, fun _ => rfl, fun _ => rfl⟩
  | worker r =>
    rw [step_worker h, ends]
    cases (s.procs.worker.step cfg s.world r).next with
    | none => exact Or.inr ⟨rfl, rfl, rfl, rfl, rfl⟩
    | some b => exact Or.inl ⟨fun _ => rfl, fun _ => rfl, fun _ => rfl⟩
  | sweep r =>
    rw [step_sweep h]
    exact Or.inl ⟨fun hne => absurd rfl (hne r), fun _ => rfl, fun _ => rfl⟩
  | projectCleanup r =>
    rw [step_projectCleanup h]
    exact Or.inl ⟨fun _ => rfl, fun hne => absurd rfl (hne r), fun _ => rfl⟩
  | domainWorker r =>
    rw [step_domainWorker h]
    exact Or.inl ⟨fun _ => rfl, fun _ => rfl, fun hne => absurd rfl (hne r)⟩
  | restart =>
    rw [step_restart h]
    exact Or.inr ⟨rfl, rfl, rfl, rfl, rfl⟩

theorem worker_step (h : s.step cfg e = some s') (hworker : ∀ r, e ≠ .worker r)
    (hrestart : e ≠ .restart) : s'.procs.worker = s.procs.worker := by
  cases e with
  | tick milliseconds => rw [step_tick h]
  | request r => rw [step_request h]
  | edit edit => rw [(step_edit h).2]
  | call i r =>
    obtain ⟨_, _, _, _, _, _, rfl⟩ := step_call h
    rfl
  | worker r => exact absurd rfl (hworker r)
  | sweep r => rw [step_sweep h]
  | projectCleanup r => rw [step_projectCleanup h]
  | domainWorker r => rw [step_domainWorker h]
  | restart => exact absurd rfl hrestart

end State
end System
end Code2Cloud
