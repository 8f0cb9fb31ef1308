import Code2Cloud.Base.History
import Code2Cloud.System.Objects
import Code2Cloud.System.Survival

/-!
# What the cluster is made of

Each object in the cluster was written for a build, and each build's job was made from a
project's rows as they stood earlier in the run, or from the request that created the project.
-/

namespace Code2Cloud
namespace System

open Api Worker

/-- A run with the states it has left. -/
abbrev Run := State × List State

abbrev Run.step (cfg : Config) : Run → Event → Option Run := recording (State.step cfg)

variable {cfg : Config} {w : World} {s s' : State} {x y : Run} {e : Event} {job : BuildJob}

/-- The user asked for the project. -/
def Run.Requested (x : Run) (userId : UserId) (dto : CreateProjectDto) : Prop :=
  ∃ s₀, Visited x s₀ ∧ .createProject (.findExisting userId dto) ∈ s₀.procs.calls

/-- What a job was made from. -/
inductive Run.Made (cfg : Config) (x : Run) (job : BuildJob) : Prop
  | redeploy {s₀ : State} {p : Project} {installationId : String} {commit : CommitData}
      {id : DeploymentId} (hpast : Visited x s₀) (hp : p ∈ s₀.world.db.projects)
      (hjob : job = DeploymentsService.job cfg.encryption (load s₀.world.db p) installationId
        commit id) : Made cfg x job
  | push {s₀ : State} {p : Project} {opts : WebhooksService.TriggerOptions} {envVars : EnvMap}
      {previous : Option DeploymentId} {id : DeploymentId} (hpast : Visited x s₀)
      (hp : p ∈ s₀.world.db.projects)
      (henv : WebhooksService.jobEnvVars cfg.encryption (load s₀.world.db p) = some envVars)
      (hjob : job = WebhooksService.job opts (load s₀.world.db p) envVars previous id) :
      Made cfg x job
  | create {s₀ : State} {userId : UserId} {dto : CreateProjectDto} {installationId : String}
      {draft : Draft} (hrequested : x.Requested userId dto) (hpast : Visited x s₀)
      (hcall : .createProject (.enqueue draft job) ∈ s₀.procs.calls)
      (huser : draft.project.userId = userId)
      (hjob : job = ProjectsService.job dto installationId draft) : Made cfg x job

theorem Run.Requested.later {userId : UserId} {dto : CreateProjectDto}
    (h : x.Requested userId dto) (hstep : x.step cfg e = some y) :
    y.Requested userId dto := by
  obtain ⟨s₀, hpast, hcall⟩ := h
  exact ⟨s₀, hpast.later hstep, hcall⟩

theorem Run.Made.later (h : x.Made cfg job) (hstep : x.step cfg e = some y) :
    y.Made cfg job := by
  cases h with
  | redeploy hpast hp hjob => exact .redeploy (hpast.later hstep) hp hjob
  | push hpast hp henv hjob => exact .push (hpast.later hstep) hp henv hjob
  | create hrequested hpast hcall huser hjob =>
    exact .create (hrequested.later hstep) (hpast.later hstep) hcall huser hjob

/-! ## Calls -/

/-- A producer works with what it read earlier in the run; a creation with what was asked for. -/
def Call.Rooted (cfg : Config) (x : Run) : Call → Prop
  | .createDeployment (.findProject _ _) | .push (.findProjects _)
  | .createProject (.findExisting _ _) => True
  | .createDeployment c =>
    ∃ s₀ userId projectId, Visited x s₀ ∧
      DeploymentsService.Handling cfg s₀.world.db userId projectId c
  | .push c => ∃ s₀ payload, Visited x s₀ ∧ WebhooksService.Handling cfg s₀.world.db payload c
  | .createProject (.findGitAccounts userId dto)
  | .createProject (.getLatestCommit userId dto _)
  | .createProject (.insert userId dto _ _) => x.Requested userId dto
  | .createProject (.enqueue draft job) =>
    ∃ userId dto installationId, x.Requested userId dto ∧ draft.project.userId = userId ∧
      job = ProjectsService.job dto installationId draft
  | _ => True

theorem Call.Rooted.later {c : Call} (h : c.Rooted cfg x) (hstep : x.step cfg e = some y) :
    c.Rooted cfg y := by
  cases c with
  | createDeployment c =>
    cases c with
    | findProject => trivial
    | _ =>
      obtain ⟨s₀, userId, projectId, hpast, hc⟩ := h
      exact ⟨s₀, userId, projectId, hpast.later hstep, hc⟩
  | push c =>
    cases c with
    | findProjects => trivial
    | _ =>
      obtain ⟨s₀, payload, hpast, hc⟩ := h
      exact ⟨s₀, payload, hpast.later hstep, hc⟩
  | createProject c =>
    cases c with
    | findExisting | commit | rollback => trivial
    | findGitAccounts | getLatestCommit | insert => exact Run.Requested.later h hstep
    | enqueue draft job =>
      obtain ⟨userId, dto, installationId, hrequested, hjob⟩ := h
      exact ⟨userId, dto, installationId, hrequested.later hstep, hjob⟩
  | _ => trivial

theorem made_of_held {c : Call} (hmem : c ∈ x.1.procs.calls) (hc : c.Rooted cfg x)
    (h : c.held = some job) : x.Made cfg job := by
  cases c with
  | createDeployment c =>
    cases c with
    | enqueue job' =>
      cases h
      obtain ⟨s₀, userId, projectId, hpast, hhandling⟩ := hc
      obtain ⟨p, hp, hcarries⟩ := hhandling.carries
      obtain ⟨installationId, commit, id, hjob⟩ := hcarries
      exact .redeploy hpast (List.mem_of_find?_eq_some hp) hjob
    | _ => cases h
  | push c =>
    cases c with
    | enqueue opts job' rest =>
      cases h
      obtain ⟨s₀, payload, hpast, hhandling⟩ := hc
      obtain ⟨installationId, _, _, hcarries⟩ := hhandling.carries
      obtain ⟨_, _, l, envVars, previous, id, ⟨c, hc, rfl, _⟩, henv, hjob⟩ := hcarries
      obtain ⟨p, hp, _, _, _, rfl⟩ := WebhooksService.mem_candidates.mp hc
      exact .push hpast hp henv hjob
    | _ => cases h
  | createProject c =>
    cases c with
    | enqueue draft job' =>
      cases h
      obtain ⟨userId, dto, installationId, hrequested, huser, hjob⟩ := hc
      exact .create hrequested (.self x) hmem huser hjob
    | _ => cases h
  | _ => cases h

/-! ### Their steps -/

section Next

variable {r : Reply}

theorem rooted_redeploy {c c' : DeploymentsService.Create}
    (hc : (Call.createDeployment c).Rooted cfg x) (h : (c.step cfg x.1.world r).next = .next c') :
    (Call.createDeployment c').Rooted cfg x := by
  have hhandling : ∃ s₀ userId projectId, Visited x s₀ ∧
      DeploymentsService.Handling cfg s₀.world.db userId projectId c' := by
    cases c with
    | findProject userId projectId =>
      exact ⟨x.1, userId, projectId, .self x, .found rfl h⟩
    | _ =>
      obtain ⟨s₀, userId, projectId, hpast, hs⟩ := hc
      exact ⟨s₀, userId, projectId, hpast, hs.step h⟩
  cases c' with
  | findProject => trivial
  | _ => exact hhandling

theorem rooted_push {c c' : WebhooksService.Push}
    (hc : (Call.push c).Rooted cfg x) (h : (c.step cfg x.1.world r).next = .next c') :
    (Call.push c').Rooted cfg x := by
  have hhandling : ∃ s₀ payload, Visited x s₀ ∧
      WebhooksService.Handling cfg s₀.world.db payload c' := by
    cases c with
    | findProjects payload => exact ⟨x.1, payload, .self x, .found rfl h⟩
    | _ =>
      obtain ⟨s₀, payload, hpast, hs⟩ := hc
      exact ⟨s₀, payload, hpast, hs.step h⟩
  cases c' with
  | findProjects => trivial
  | _ => exact hhandling

theorem rooted_create {c c' : ProjectsService.Create}
    (hmem : .createProject c ∈ x.1.procs.calls) (hc : (Call.createProject c).Rooted cfg x)
    (h : (c.step cfg x.1.world r).next = .next c') : (Call.createProject c').Rooted cfg x := by
  cases c with
  | findExisting userId dto =>
    rw [ProjectsService.Create.step, query] at h
    split at h
    · simp only [Turn.pure] at h
      split at h
      · cases h
      · cases h
        exact ⟨x.1, .self x, hmem⟩
    · cases h
  | findGitAccounts userId dto =>
    rw [ProjectsService.Create.step, query] at h
    split at h
    · simp only [Turn.pure] at h
      split at h
      · cases h
      · split at h
        · cases h
        · cases h
          exact hc
    · cases h
  | getLatestCommit userId dto installationId =>
    cases h
    exact hc
  | insert userId dto installationId commit =>
    rw [ProjectsService.Create.step] at h
    split at h
    · cases h
      exact ⟨userId, dto, installationId, hc, rfl, rfl⟩
    · cases h
  | enqueue draft job =>
    rcases next_issue x.1.world r.outcome (.addBuildJob job)
      (Flow.next (ProjectsService.Create.commit draft)) (Flow.next (.rollback draft)) [] []
      with hn | hn <;> rw [ProjectsService.Create.step, hn] at h <;> cases h <;> trivial
  | commit draft =>
    rw [ProjectsService.Create.step] at h
    split at h <;> cases h
  | rollback draft => cases h

theorem rooted_next {c c' : Call} (hmem : c ∈ x.1.procs.calls) (hc : c.Rooted cfg x)
    (h : (c.step cfg x.1.world r).next = some c') : c'.Rooted cfg x := by
  cases c with
  | createDeployment c =>
    obtain ⟨x, hx, rfl⟩ := toCall_eq_some h
    exact rooted_redeploy hc hx
  | createProject c =>
    obtain ⟨x, hx, rfl⟩ := toCall_eq_some h
    exact rooted_create hmem hc hx
  | push c =>
    obtain ⟨x, hx, rfl⟩ := toCall_eq_some h
    exact rooted_push hc hx
  | cancel c | updateStatus c | updateProject c | removeProject c | createDomain c
  | removeDomain c =>
    obtain ⟨x, _, rfl⟩ := toCall_eq_some h
    trivial
  | late c =>
    rcases next_issue x.1.world r.outcome c.command (none : Option Call) none [] [] with hn | hn <;>
      rw [Call.step, hn] at h <;> cases h

end Next

/-! ## Objects -/

theorem holds_of_apply {cl : Cluster} {o o' : Object} (h : (cl.apply o').holds o) :
    o' = o ∨ cl.holds o := by
  by_cases hsame : o'.kind = o.kind → o'.name ≠ o.name
  · exact Or.inr ((Cluster.same_apply cl o' hsame).holds_iff.mp h)
  · simp only [ne_eq, Classical.not_imp, not_not] at hsame
    obtain ⟨hkind, hname⟩ := hsame
    refine Or.inl ?_
    cases o <;> cases o' <;> first
      | cases hkind; done
      | (cases hname
         simpa [Cluster.apply, Cluster.holds, Cluster.put_eq] using h)

theorem holds_of_delete {cl : Cluster} {kind : Kind} {name : GoString} {o : Object}
    (h : (cl.delete kind name).holds o) : cl.holds o := by
  by_cases hsame : kind = o.kind → name ≠ o.name
  · exact (Cluster.same_delete cl hsame).holds_iff.mp h
  · simp only [ne_eq, Classical.not_imp, not_not] at hsame
    obtain ⟨rfl, rfl⟩ := hsame
    cases o <;> simp [Cluster.delete, Cluster.holds, Object.kind, Object.name, Cluster.put_eq] at h

/-- The object was written for a build whose job was made from what the run passed.  The hosts of
an ingress may have changed since. -/
def Run.Wrote (cfg : Config) (x : Run) (o : Object) : Prop :=
  o.kind ≠ .ingress →
    ∃ b stage, x.Made cfg b.job ∧
      Client.object cfg.baseDomain (BuildWorker.deployOptions b) stage = some o

/-- Every job on its way was made from what the run passed, and every object written for one. -/
structure Run.Rooted (cfg : Config) (x : Run) : Prop where
  calls : ∀ c ∈ x.1.procs.calls, c.Rooted cfg x
  queue : ∀ job ∈ x.1.world.redis.buildQueue, x.Made cfg job
  worker : ∀ job, x.1.procs.worker.job = some job → x.Made cfg job
  cluster : ∀ o, x.1.world.cluster.holds o → x.Wrote cfg o

namespace State

/-- An object in the cluster after a step was there before, has other hosts now, or was written by
the build worker. -/
theorem cluster_step (h : s.step cfg e = some s') {o : Object} (ho : s'.world.cluster.holds o) :
    s.world.cluster.holds o ∨ o.kind = .ingress ∨
      ∃ b stage, s.procs.worker = .processing b (.deploy stage) ∧
        Client.object cfg.baseDomain (BuildWorker.deployOptions b) stage = some o := by
  obtain ⟨t, ht, _, rfl⟩ := step_eq_some_iff.mp h
  have ho : (s.world.exec cfg t.command).cluster.holds o := ho
  cases hc : t.command.onCluster with
  | false =>
    rw [World.cluster_exec cfg s.world hc] at ho
    exact Or.inl ho
  | true =>
    have htouches := touches_turn ht hc
    cases hcommand : t.command with
    | apply o' =>
      rw [hcommand] at ho htouches
      obtain ⟨_, b, stage, _, hworker, hobject, _⟩ := htouches.of_apply
      rcases holds_of_apply ho with rfl | ho
      · exact Or.inr (Or.inr ⟨b, stage, hworker, hobject⟩)
      · exact Or.inl ho
    | delete kind name =>
      rw [hcommand] at ho
      exact Or.inl (holds_of_delete ho)
    | updateIngressHosts name hosts =>
      rw [hcommand, World.exec] at ho
      split at ho
      · exact Or.inl ho
      · dsimp only at ho
        rcases holds_of_apply ho with rfl | ho
        · exact Or.inr (Or.inl rfl)
        · exact Or.inl ho
    | popProjectCleanup =>
      rw [hcommand, World.cluster_popProjectCleanup] at ho
      exact Or.inl ho
    | _ =>
      rw [hcommand] at hc
      cases hc

end State

namespace Run

theorem rooted_step (hx : x.Rooted cfg) (h : x.step cfg e = some y) : y.Rooted cfg := by
  have hstep := (recording_eq_some_iff.mp h).1
  refine ⟨fun c hc => ?_, fun job hjob => ?_, fun job hjob => ?_, fun o ho hkind => ?_⟩
  · cases State.origin_step hstep hc with
    | old hc => exact (hx.calls c hc).later h
    | start r => cases r <;> trivial
    | next hi hnext =>
      have hmem := List.mem_of_getElem? hi
      exact (rooted_next hmem (hx.calls _ hmem) hnext).later h
    | late => trivial
  · rcases State.queue_step hstep hjob with hjob | ⟨t, ht, hc⟩
    · exact (hx.queue job hjob).later h
    · obtain ⟨c, hc, hheld⟩ := State.pushes_turn ht hc
      exact (made_of_held hc (hx.calls c hc) hheld).later h
  · rcases State.job_step hstep hjob with hjob | ⟨_, queues, _, _, hwait⟩
    · exact (hx.worker job hjob).later h
    · exact (hx.queue job (State.mem_of_waitForJob hwait)).later h
  · rcases State.cluster_step hstep ho with hold | hingress | ⟨b, stage, hworker, hobject⟩
    · obtain ⟨b, stage, hmade, hobject⟩ := hx.cluster o hold hkind
      exact ⟨b, stage, hmade.later h, hobject⟩
    · exact absurd hingress hkind
    · have hmade := hx.worker b.job (by rw [hworker]; rfl)
      exact ⟨b, stage, hmade.later h, hobject⟩

theorem rooted_initial : Rooted cfg (State.initial, []) where
  calls _ hc := absurd hc List.not_mem_nil
  queue _ hjob := absurd hjob List.not_mem_nil
  worker _ hjob := by cases hjob
  cluster o ho := by cases o <;> cases ho

theorem rooted_of_reaches (h : Reaches (Run.step cfg) (fun _ _ => True) (State.initial, []) x) :
    x.Rooted cfg :=
  h.invariant (Rooted cfg) rooted_initial fun _ _ _ hx _ hstep => rooted_step hx hstep

end Run

end System
end Code2Cloud
