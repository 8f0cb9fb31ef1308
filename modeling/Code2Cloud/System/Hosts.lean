import Code2Cloud.System.Backed
import Code2Cloud.System.Removal
import Code2Cloud.System.Routed

/-!
# Hosts and projects

A host is mentioned by the rows of domains, by transactions, by loaded projects and their jobs,
and by ingresses.  Each is copied from another; only the insertion of a domain mentions a host
for the first time.
-/

namespace Code2Cloud
namespace System

open Api Worker

variable {cfg : Config} {w : World} {s s' : State} {e : Event} {x : ProjectId × GoString}

/-! ## Who mentions a host -/

def hostOf (name : String) : GoString := sanitizeHost (utf8 name)

def rowHosts (db : Database) : List (ProjectId × GoString) :=
  db.domains.map fun d => (d.projectId, hostOf d.name)

def draftHosts (draft : Draft) : List (ProjectId × GoString) :=
  [(draft.domain.projectId, hostOf draft.domain.name)]

def jobHosts (job : BuildJob) : List (ProjectId × GoString) :=
  job.domains.map fun name => (job.projectId, hostOf name)

def loadedHosts (l : Loaded) : List (ProjectId × GoString) :=
  l.domains.map fun name => (l.project.id, hostOf name)

def Call.loaded : Call → List Loaded
  | .createDeployment (.findGitAccounts _ l) | .createDeployment (.findLatest _ l _)
  | .createDeployment (.getLatestCommit _ l _) | .createDeployment (.insert _ l _ _) => [l]
  | .push (.publish _ l _ rest) | .push (.markCanceled _ l _ rest)
  | .push (.findSystemConfig _ l _ _ rest) | .push (.insert _ l _ _ _ rest) =>
    l :: rest.map (·.loaded)
  | .push (.enqueue _ _ rest) => rest.map (·.loaded)
  | _ => []

def Call.hosts (c : Call) : List (ProjectId × GoString) :=
  c.loaded.flatMap loadedHosts ++ c.held.toList.flatMap jobHosts ++
    c.draft.toList.flatMap draftHosts

/-- The hosts that a command mentions anew: those of the rows of domains it creates, and those it
writes to an ingress that is there. -/
def Command.claimed (w : World) : Command → List (ProjectId × GoString)
  | .openDraft draft => draftHosts draft
  | .createDomain d => [(d.projectId, hostOf d.name)]
  | .updateIngressHosts name hosts =>
    (w.cluster.ingresses name).toList.flatMap fun ingress =>
      hosts.map fun host => (ingress.projectId, sanitizeHost host)
  | _ => []

/-! ## The calls -/

theorem mem_rowHosts_load {db : Database} {p : Project} (h : x ∈ loadedHosts (load db p)) :
    x ∈ rowHosts db := by
  obtain ⟨name, hname, rfl⟩ := List.mem_map.mp h
  obtain ⟨d, hd, rfl⟩ := List.mem_map.mp hname
  rw [Database.domainsOf, List.mem_insertionSort, List.mem_filter, beq_iff_eq] at hd
  exact List.mem_map.mpr ⟨d, hd.1, by rw [hd.2]; rfl⟩

namespace WebhooksService

open Push

variable {e : EncryptionService} {opts : TriggerOptions} {y : Push}

theorem hosts_loop {cs : List Candidate} (h : Push.loop e opts cs = .next y)
    (hx : x ∈ (Call.push y).hosts) : x ∈ (cs.map (·.loaded)).flatMap loadedHosts := by
  induction cs with
  | nil => cases h
  | cons c rest ih =>
    have hrest (h : Push.loop e opts rest = .next y) :
        x ∈ ((c :: rest).map (·.loaded)).flatMap loadedHosts :=
      List.mem_append_right _ (ih h)
    have hself (z : Push) (hz : (Call.push z).hosts =
        (c.loaded :: rest.map (·.loaded)).flatMap loadedHosts) (h : Flow.next z = .next y) :
        x ∈ ((c :: rest).map (·.loaded)).flatMap loadedHosts := by
      cases h
      rw [hz] at hx
      exact hx
    rw [Push.loop] at h
    split at h
    · split at h
      · split at h
        · exact hself _ (by simp [Call.hosts, Call.loaded, Call.held, Call.draft]) h
        · split at h
          · exact hrest h
          · exact hself _ (by simp [Call.hosts, Call.loaded, Call.held, Call.draft]) h
      · split at h
        · exact hrest h
        · exact hself _ (by simp [Call.hosts, Call.loaded, Call.held, Call.draft]) h
    · exact hrest h

theorem hosts_candidates {db : Database} {payload : PushEventPayload}
    (hx : x ∈ ((candidates db payload).map (·.loaded)).flatMap loadedHosts) : x ∈ rowHosts db := by
  obtain ⟨l, hl, hx⟩ := List.mem_flatMap.mp hx
  obtain ⟨c, hc, rfl⟩ := List.mem_map.mp hl
  obtain ⟨p, _, rfl⟩ := List.mem_map.mp hc
  exact mem_rowHosts_load hx

theorem hosts_step {c : Push} {r : Reply} (h : (c.step cfg w r).next = .next y)
    (hx : x ∈ (Call.push y).hosts) : x ∈ (Call.push c).hosts ∨ x ∈ rowHosts w.db := by
  have hrest {l : Loaded} {rest : List Candidate}
      (hx : x ∈ (rest.map (·.loaded)).flatMap loadedHosts) :
      x ∈ (l :: rest.map (·.loaded)).flatMap loadedHosts := by
    rw [List.flatMap_cons]
    exact List.mem_append_right _ hx
  cases c with
  | findProjects payload =>
    rw [Push.step] at h
    split at h
    · cases h
    · split at h
      · cases h
      · rw [query] at h
        split at h
        · exact Or.inr (hosts_candidates (hosts_loop h hx))
        · cases h
  | publish opts l id rest =>
    rw [Push.step] at h
    refine Or.inl (List.mem_append_left _ (List.mem_append_left _ ?_))
    rcases next_issue w r.outcome (.publishCancelSignal id)
      (Flow.next (markCanceled opts l id rest)) (loop cfg.encryption opts rest) [] [] with
      hn | hn <;> rw [hn] at h
    · cases h
      simpa [Call.hosts, Call.loaded, Call.held, Call.draft] using hx
    · exact hrest (hosts_loop h hx)
  | markCanceled opts l id rest =>
    rw [Push.step] at h
    refine Or.inl (List.mem_append_left _ (List.mem_append_left _ ?_))
    rcases next_issue w r.outcome (.writeStatus id .webhookCancel)
      (afterCancel cfg.encryption opts l rest) (loop cfg.encryption opts rest) [.acknowledged id] []
      with hn | hn <;> rw [hn] at h
    · rw [afterCancel] at h
      split at h
      · exact hrest (hosts_loop h hx)
      · cases h
        simpa [Call.hosts, Call.loaded, Call.held, Call.draft] using hx
    · exact hrest (hosts_loop h hx)
  | findSystemConfig opts l envVars previous rest =>
    rw [Push.step, query] at h
    refine Or.inl (List.mem_append_left _ (List.mem_append_left _ ?_))
    split at h
    · cases h
      simpa [Call.hosts, Call.loaded, Call.held, Call.draft] using hx
    · exact hrest (hosts_loop h hx)
  | insert opts l envVars previous region rest =>
    rw [Push.step] at h
    refine Or.inl (List.mem_append_left _ (List.mem_append_left _ ?_))
    rcases next_issue w r.outcome (.createDeployment (row w opts l region))
      (.next (enqueue opts (job opts l envVars previous (row w opts l region).id) rest))
      (loop cfg.encryption opts rest) [] [] with hn | hn <;> rw [hn] at h
    · cases h
      simp only [Call.hosts, Call.loaded, Call.held, Call.draft, Option.toList_some,
        Option.toList_none, List.flatMap_singleton, List.flatMap_nil, List.append_nil,
        List.mem_append] at hx
      exact List.mem_append.mpr hx.symm
    · exact hrest (hosts_loop h hx)
  | enqueue opts job rest =>
    rw [Push.step] at h
    refine Or.inl (List.mem_append_left _ (List.mem_append_left _ ?_))
    rcases next_issue w r.outcome (.addBuildJob job) (loop cfg.encryption opts rest)
      (loop cfg.encryption opts rest) [] [] with hn | hn <;> rw [hn] at h <;>
      exact hosts_loop h hx

end WebhooksService

theorem hosts_createDeployment {c y : DeploymentsService.Create} {r : Reply}
    (h : (c.step cfg w r).next = .next y) (hx : x ∈ (Call.createDeployment y).hosts) :
    x ∈ (Call.createDeployment c).hosts ∨ x ∈ rowHosts w.db := by
  cases c with
  | findProject userId projectId =>
    rw [DeploymentsService.Create.step, query] at h
    split at h
    · simp only [Turn.pure] at h
      split at h
      · cases h
      · cases h
        rename_i p _
        refine Or.inr (mem_rowHosts_load (p := p) ?_)
        simpa [Call.hosts, Call.loaded, Call.held, Call.draft] using hx
    · cases h
  | findGitAccounts userId project =>
    rw [DeploymentsService.Create.step, query] at h
    split at h
    · simp only [Turn.pure] at h
      split at h
      · cases h
      · cases h
        exact Or.inl hx
    · cases h
  | findLatest userId project accounts =>
    rw [DeploymentsService.Create.step, query] at h
    split at h
    · simp only [Turn.pure] at h
      split at h
      · cases h
      · split at h
        · cases h
        · cases h
          exact Or.inl hx
    · cases h
  | getLatestCommit userId project installationId =>
    cases h
    exact Or.inl hx
  | insert userId project installationId commit =>
    rw [DeploymentsService.Create.step] at h
    generalize DeploymentsService.row w userId project commit = d at h
    rcases next_issue w r.outcome (.createRedeployment d)
      (Flow.next (DeploymentsService.Create.enqueue
        (DeploymentsService.job cfg.encryption project installationId commit d.id)))
      (.throw .internal) [] [] with hn | hn <;> rw [hn] at h
    · cases h
      refine Or.inl ?_
      simpa [Call.hosts, Call.loaded, Call.held, Call.draft, jobHosts, loadedHosts,
        DeploymentsService.job] using hx
    · cases h
  | enqueue job =>
    rw [DeploymentsService.Create.step] at h
    rcases next_issue w r.outcome (.addBuildJob job) (Flow.done : Flow DeploymentsService.Create)
      (.throw .internal) [] [] with hn | hn <;> rw [hn] at h <;> cases h

theorem hosts_createProject {c y : ProjectsService.Create} {r : Reply}
    (h : (c.step cfg w r).next = .next y) (hx : x ∈ (Call.createProject y).hosts) :
    x ∈ (Call.createProject c).hosts ∨ x ∈ (c.step cfg w r).command.claimed w := by
  cases c with
  | findExisting userId dto =>
    rw [ProjectsService.Create.step, query] at h
    split at h
    · simp only [Turn.pure] at h
      split at h
      · cases h
      · cases h
        exact Or.inl hx
    · cases h
  | findGitAccounts userId dto =>
    rw [ProjectsService.Create.step, query] at h
    split at h
    · simp only [Turn.pure] at h
      split at h
      · cases h
      · split at h
        · cases h
        · cases h
          exact Or.inl hx
    · cases h
  | getLatestCommit userId dto installationId =>
    cases h
    exact Or.inl hx
  | insert userId dto installationId commitData =>
    right
    rw [ProjectsService.Create.step] at h ⊢
    split at h
    · rename_i hadmits
      rw [if_pos hadmits]
      cases h
      simpa [Call.hosts, Call.loaded, Call.held, Call.draft, jobHosts, draftHosts,
        ProjectsService.job, ProjectsService.draft, Command.claimed] using hx
    · cases h
  | enqueue draft job =>
    rw [ProjectsService.Create.step] at h
    rcases next_issue w r.outcome (.addBuildJob job)
      (Flow.next (ProjectsService.Create.commit draft)) (.next (.rollback draft)) [] [] with
      hn | hn <;> rw [hn] at h <;> cases h <;>
      exact Or.inl (List.mem_append_right _ hx)
  | commit draft =>
    rw [ProjectsService.Create.step] at h
    cases ho : r.outcome <;> rw [ho] at h <;> cases h
  | rollback draft => cases h

/-- The hosts that a call goes on with are its own, those of rows it has loaded, or new. -/
theorem hosts_next {c c' : Call} {r : Reply} (h : (c.step cfg w r).next = some c')
    (hx : x ∈ c'.hosts) :
    x ∈ c.hosts ∨ x ∈ rowHosts w.db ∨ x ∈ (c.step cfg w r).command.claimed w := by
  cases c with
  | createDeployment c =>
    obtain ⟨y, hy, rfl⟩ := toCall_eq_some h
    exact (hosts_createDeployment hy hx).imp_right Or.inl
  | push c =>
    obtain ⟨y, hy, rfl⟩ := toCall_eq_some h
    exact (WebhooksService.hosts_step hy hx).imp_right Or.inl
  | createProject c =>
    obtain ⟨y, hy, rfl⟩ := toCall_eq_some h
    exact (hosts_createProject hy hx).imp_right Or.inr
  | late c =>
    rw [next_late] at h
    cases h
  | _ =>
    obtain ⟨y, _, rfl⟩ := toCall_eq_some h
    exact absurd hx List.not_mem_nil

/-! ## Rows and transactions -/

theorem rowHosts_exec {c : Command} (h : x ∈ rowHosts (w.exec cfg c).db) :
    x ∈ rowHosts w.db ∨ (∃ draft, c = .commitDraft draft ∧ x ∈ draftHosts draft) ∨
      x ∈ c.claimed w := by
  have hkept {ds : List Domain} (hds : ∀ d ∈ ds, d ∈ w.db.domains)
      (h : x ∈ ds.map fun d => (d.projectId, hostOf d.name)) : x ∈ rowHosts w.db := by
    obtain ⟨d, hd, rfl⟩ := List.mem_map.mp h
    exact List.mem_map.mpr ⟨d, hds d hd, rfl⟩
  rw [World.db_exec] at h
  cases c with
  | commitDraft draft =>
    have hdb : rowHosts ((Command.commitDraft draft).change w.now w.db) =
        rowHosts w.db ++ draftHosts draft := List.map_append
    rw [hdb] at h
    exact (List.mem_append.mp h).imp_right fun hx => Or.inl ⟨draft, rfl, hx⟩
  | createDomain d =>
    have hdb : rowHosts ((Command.createDomain d).change w.now w.db) =
        rowHosts w.db ++ [(d.projectId, hostOf d.name)] := List.map_append
    rw [hdb] at h
    exact (List.mem_append.mp h).imp_right Or.inr
  | deleteDomain id => exact Or.inl (hkept (fun _ => List.mem_of_mem_filter) h)
  | deleteProject id => exact Or.inl (hkept (fun _ => List.mem_of_mem_filter) h)
  | updateDomainStatus id status error =>
    refine Or.inl ?_
    obtain ⟨d', hd', rfl⟩ := List.mem_map.mp h
    obtain ⟨d, hd, rfl⟩ := List.mem_map.mp hd'
    refine List.mem_map.mpr ⟨d, hd, ?_⟩
    split <;> rfl
  | _ => exact Or.inl h

/-- The hosts written to one store by one command are one project's. -/
theorem claimed_inj {c : Command} {y : ProjectId × GoString} (hx : x ∈ c.claimed w)
    (hy : y ∈ c.claimed w) : x.1 = y.1 := by
  cases c with
  | openDraft | createDomain =>
    rw [List.mem_singleton.mp hx, List.mem_singleton.mp hy]
  | updateIngressHosts name hosts =>
    rw [Command.claimed] at hx hy
    cases hold : w.cluster.ingresses name with
    | none =>
      rw [hold] at hx
      exact absurd hx List.not_mem_nil
    | some ingress =>
      rw [hold, Option.toList_some, List.flatMap_singleton] at hx hy
      obtain ⟨_, _, rfl⟩ := List.mem_map.mp hx
      obtain ⟨_, _, rfl⟩ := List.mem_map.mp hy
      rfl
  | _ => exact absurd hx List.not_mem_nil

namespace State

theorem commits_turn {t : Turn Processes} (ht : s.turn cfg e = some t) {draft : Draft}
    (hc : t.command = .commitDraft draft) : ∃ c ∈ s.procs.calls, c.draft = some draft := by
  rcases command_turn ht with ⟨i, r, c, rfl, hi, hcommand⟩ | ⟨r, rfl, hcommand⟩ | hb
  · refine ⟨c, List.mem_of_getElem? hi, ?_⟩
    have hinserts := inserts_step cfg s.world c r
    rw [← hcommand, hc] at hinserts
    generalize c.draft = held at hinserts
    generalize (c.step cfg s.world r).next.bind Call.draft = next at hinserts
    cases hinserts with
    | commit => rfl
    | none hempty | keep hempty => cases hempty
    | row _ _ hmint => cases hmint
  · have hbackground := (background_worker cfg s.world r s.procs.worker).command
    rw [← hcommand, hc] at hbackground
    cases hbackground
  · rw [hc] at hb
    cases hb

/-! ## The hosts of a state -/

def hosts (s : State) : List (ProjectId × GoString) :=
  rowHosts s.world.db ++ s.world.redis.buildQueue.flatMap jobHosts ++
    s.procs.worker.job.toList.flatMap jobHosts ++ s.procs.calls.flatMap Call.hosts

def Mentions (s : State) (x : ProjectId × GoString) : Prop := x ∈ s.hosts ∨ s.world.routes x

theorem mem_hosts : x ∈ s.hosts ↔ x ∈ rowHosts s.world.db ∨
    (∃ job ∈ s.world.redis.buildQueue, x ∈ jobHosts job) ∨
    (∃ job, s.procs.worker.job = some job ∧ x ∈ jobHosts job) ∨
    ∃ c ∈ s.procs.calls, x ∈ c.hosts := by
  simp only [hosts, List.mem_append, List.mem_flatMap, Option.mem_toList, or_assoc]

theorem mentions_of_call {c : Call} (hc : c ∈ s.procs.calls) (hx : x ∈ c.hosts) : s.Mentions x :=
  Or.inl (mem_hosts.mpr (Or.inr (Or.inr (Or.inr ⟨c, hc, hx⟩))))

/-- The hosts that a deploy writes are those of its job. -/
theorem mem_jobHosts_of_allHosts {b : Build} {host : GoString}
    (h : host ∈ Client.allHosts (BuildWorker.deployOptions b)) :
    (b.job.projectId, host) ∈ jobHosts b.job := by
  obtain ⟨domain, hdomain, rfl⟩ := List.mem_map.mp h
  obtain ⟨name, hname, rfl⟩ := List.mem_map.mp (List.mem_of_mem_filter hdomain)
  exact List.mem_map.mpr ⟨name, hname, rfl⟩

theorem hosts_step (h : s.step cfg e = some s') (hx : x ∈ s'.hosts) :
    s.Mentions x ∨ ∃ t, s.turn cfg e = some t ∧ x ∈ t.command.claimed s.world := by
  rcases mem_hosts.mp hx with hrow | ⟨job, hjob, hx⟩ | ⟨job, hjob, hx⟩ | ⟨c, hc, hx⟩
  · obtain ⟨t, ht, _, rfl⟩ := step_eq_some_iff.mp h
    rcases rowHosts_exec hrow with hold | ⟨draft, hc, hx⟩ | hclaimed
    · exact Or.inl (Or.inl (mem_hosts.mpr (Or.inl hold)))
    · obtain ⟨c, hmem, hdraft⟩ := commits_turn ht hc
      refine Or.inl (mentions_of_call hmem (List.mem_append_right _ ?_))
      rwa [hdraft, Option.toList_some, List.flatMap_singleton]
    · exact Or.inr ⟨t, ht, hclaimed⟩
  · refine Or.inl ?_
    rcases queue_step h hjob with hold | ⟨t, ht, hc⟩
    · exact Or.inl (mem_hosts.mpr (Or.inr (Or.inl ⟨job, hold, hx⟩)))
    · obtain ⟨c, hmem, hheld⟩ := pushes_turn ht hc
      refine mentions_of_call hmem (List.mem_append_left _ (List.mem_append_right _ ?_))
      rwa [hheld, Option.toList_some, List.flatMap_singleton]
  · refine Or.inl (Or.inl (mem_hosts.mpr ?_))
    rcases job_step h hjob with hold | ⟨_, _, _, _, hwait⟩
    · exact Or.inr (Or.inr (Or.inl ⟨job, hold, hx⟩))
    · exact Or.inr (Or.inl ⟨job, mem_of_waitForJob hwait, hx⟩)
  · cases origin_step h hc with
    | old hold => exact Or.inl (mentions_of_call hold hx)
    | start r => cases r <;> exact absurd hx List.not_mem_nil
    | @next i r c₀ _ hc₀ hnext =>
      rcases hosts_next hnext hx with hcall | hrow | hclaimed
      · exact Or.inl (mentions_of_call (List.mem_of_getElem? hc₀) hcall)
      · exact Or.inl (Or.inl (mem_hosts.mpr (Or.inl hrow)))
      · refine Or.inr ⟨(c₀.step cfg s.world r).map (s.procs.setCall i), ?_, hclaimed⟩
        rw [turn, hc₀]
        rfl
    | late => exact absurd hx List.not_mem_nil

theorem mentions_step (h : s.step cfg e = some s') (hx : s'.Mentions x) :
    s.Mentions x ∨ ∃ t, s.turn cfg e = some t ∧ x ∈ t.command.claimed s.world := by
  rcases hx with hx | hx
  · exact hosts_step h hx
  cases routes_step h hx with
  | old hold => exact Or.inl (Or.inr hold)
  | @deploy r b host hworker _ hhost =>
    refine Or.inl (Or.inl (mem_hosts.mpr (Or.inr (Or.inr (Or.inl ⟨b.job, ?_, ?_⟩)))))
    · rw [hworker, BuildWorker.job]
    · exact mem_jobHosts_of_allHosts hhost
  | @addDomain r d hosts rest old host hdomain hdone hold hhost =>
    refine Or.inr ⟨_, rfl, ?_⟩
    have hadmits : s.world.admits
        (.updateIngressHosts (sanitizeK8sName (DomainWorker.ingressName d)) hosts) = true := by
      rw [World.admits, hold, Option.isSome_some]
    have hcommand : (s.procs.domainWorker.step s.world r).command =
        .updateIngressHosts (sanitizeK8sName (DomainWorker.ingressName d)) hosts := by
      rw [hdomain, DomainWorker.step]
      exact command_of_done hadmits hdone _ _ _ _
    rw [Turn.map, hcommand, Command.claimed, hold, Option.toList_some, List.flatMap_singleton]
    exact List.mem_map.mpr ⟨host, hhost, rfl⟩

end State

/-! ## Exclusive hosts -/

def World.routedHosts (w : World) (l : List (Kind × GoString)) : List (ProjectId × GoString) :=
  l.flatMap fun y => (w.cluster.ingresses y.2).toList.flatMap fun ingress =>
    ingress.rules.map fun rule => (ingress.projectId, rule.host)

/-- The hosts that a step mentions anew are mentioned by no other project: not by its rows, calls
and jobs, nor by the ingresses that deploys wrote for it. -/
def Unclaimed (cfg : Config) (x : State × List (Kind × GoString)) (e : Event) : Prop :=
  ∀ t ∈ x.1.turn cfg e, ∀ y ∈ t.command.claimed x.1.world,
    ∀ z ∈ x.1.hosts ++ x.1.world.routedHosts x.2, z.2 = y.2 → z.1 = y.1

instance (cfg : Config) (x : State × List (Kind × GoString)) (e : Event) :
    Decidable (Unclaimed cfg x e) :=
  Option.decidableForallMem _

/-- The objects in the cluster are noted, and no two projects mention one host. -/
structure Exclusive (s : State) (l : List (Kind × GoString)) : Prop where
  sanitized : s.Sanitized
  applied : ∀ x p, s.world.cluster.projectOf x.1 x.2 = some p → x ∈ l
  mentions : ∀ x y, s.Mentions x → s.Mentions y → x.2 = y.2 → x.1 = y.1

namespace Exclusive

variable {l : List (Kind × GoString)}

theorem mem_of_mentions (h : Exclusive s l) (hx : s.Mentions x) :
    x ∈ s.hosts ++ s.world.routedHosts l := by
  refine List.mem_append.mpr (hx.imp_right ?_)
  rintro ⟨name, ingress, hingress, hproject, rule, hrule, hhost⟩
  have hmem : (Kind.ingress, name) ∈ l :=
    h.applied (.ingress, name) ingress.projectId (by simp [Cluster.projectOf, hingress])
  refine List.mem_flatMap.mpr ⟨_, hmem, ?_⟩
  rw [hingress, Option.toList_some, List.flatMap_singleton]
  exact List.mem_map.mpr ⟨rule, hrule, Prod.ext hproject hhost⟩

theorem step (h : Exclusive s l) (hok : Unclaimed cfg (s, l) e) (hstep : s.step cfg e = some s') :
    Exclusive s' (noteApplied cfg s e s' l) where
  sanitized := State.sanitized_step h.sanitized hstep
  applied _ _ hp := State.applied_step h.applied hstep hp
  mentions x y hx hy hhost := by
    rcases State.mentions_step hstep hx with hx | ⟨t, ht, hx⟩
    · rcases State.mentions_step hstep hy with hy | ⟨t, ht, hy⟩
      · exact h.mentions x y hx hy hhost
      · exact hok t ht y hy x (h.mem_of_mentions hx) hhost
    · rcases State.mentions_step hstep hy with hy | ⟨t', ht', hy⟩
      · exact (hok t ht x hx y (h.mem_of_mentions hy) hhost.symm).symm
      · cases ht.symm.trans ht'
        exact claimed_inj hx hy

end Exclusive

theorem exclusive_initial : Exclusive State.initial [] where
  sanitized x hx := absurd hx (not_routes_initial x)
  applied x p hp := by
    rw [projectOf_initial] at hp
    cases hp
  mentions x _ hx := by
    refine absurd hx (not_or.mpr ⟨?_, not_routes_initial x⟩)
    exact List.not_mem_nil

/-- No host is in the ingress rules of two projects, and no two projects have domains of one host,
in every run each step of which registers and routes only hosts that no other project mentions. -/
theorem hosts_are_exclusive {s : State} {l : List (Kind × GoString)}
    (h : Reaches (stepNoting (State.step cfg) (noteApplied cfg)) (Unclaimed cfg)
      (State.initial, []) (s, l)) :
    (∀ x y, s.world.routes x → s.world.routes y → sanitizeHost x.2 = sanitizeHost y.2 →
      x.1 = y.1) ∧
    ∀ d ∈ s.world.db.domains, ∀ d' ∈ s.world.db.domains, hostOf d.name = hostOf d'.name →
      d.projectId = d'.projectId := by
  have hexclusive : Exclusive s l := by
    refine h.invariant (fun x => Exclusive x.1 x.2) exclusive_initial ?_
    rintro x e y hx hok hstep
    obtain ⟨hs', hl'⟩ := stepNoting_eq_some_iff.mp hstep
    rw [hl']
    exact hx.step hok hs'
  have hrow {d : Domain} (hd : d ∈ s.world.db.domains) :
      s.Mentions (d.projectId, hostOf d.name) :=
    Or.inl (State.mem_hosts.mpr (Or.inl (List.mem_map.mpr ⟨d, hd, rfl⟩)))
  constructor
  · intro x y hx hy hhost
    rw [hexclusive.sanitized x hx, hexclusive.sanitized y hy] at hhost
    exact hexclusive.mentions x y (Or.inr hx) (Or.inr hy) hhost
  · intro d hd d' hd' hhost
    exact hexclusive.mentions _ _ (hrow hd) (hrow hd') hhost

/-! ## A second user -/

def spyDomain (name : DomainName) : List Event :=
  shopCreated ++ shopWorker 23 ++ spyCreated ++ shopWorker 23 ++
    shopRequest (.createDomain 2 4 name) 3 ++ List.replicate 10 (.domainWorker shopReply) ++
    shopRequest (.createDeployment 2 4) 6 ++ shopWorker 25

/-- The ingress of that name has a rule of the project for the host. -/
def World.routesAt (w : World) (name : GoString) (x : ProjectId × GoString) : Bool :=
  (w.cluster.ingresses name).any fun ingress =>
    ingress.projectId == x.1 && ingress.rules.any fun rule => rule.host == x.2

theorem World.routes_of_routesAt {name : GoString} (h : w.routesAt name x = true) : w.routes x := by
  obtain ⟨ingress, hingress, hx⟩ := (Option.any_eq_true _ _).mp h
  rw [Bool.and_eq_true, beq_iff_eq, List.any_eq_true] at hx
  obtain ⟨hproject, rule, hrule, hhost⟩ := hx
  exact ⟨name, ingress, hingress, hproject, rule, hrule, eq_of_beq hhost⟩

theorem hosts_are_exclusive_spy :
    ∃ s l, Reaches (stepNoting (State.step Config.clear) (noteApplied Config.clear))
        (Unclaimed Config.clear) (State.initial, []) (s, l) ∧
      s.world.routes (4, utf8 "www.spy.com") ∧
      ¬s.world.routes (1, utf8 "www.spy.com") := by
  obtain ⟨⟨s, l⟩, h, hend⟩ := Reaches.exists_of_runEvents
    (stepNoting (State.step Config.clear) (noteApplied Config.clear)) (Unclaimed Config.clear)
    (State.initial, []) (spyDomain ⟨"www.spy.com", by decide⟩)
    (fun x => x.1.world.routesAt (utf8 "spy") (4, utf8 "www.spy.com"))
    (by decide) (by decide)
  have hroutes := World.routes_of_routesAt hend
  refine ⟨s, l, h, hroutes, fun hshop => ?_⟩
  cases (hosts_are_exclusive h).1 _ _ hshop hroutes rfl

/-- The second user registers the generated host of the first one's project, which its row has with
the scheme. -/
theorem not_hosts_are_exclusive :
    ¬∀ (cfg : Config) (s : State),
      Reaches (State.step cfg) (fun _ e => e.succeeds = true) State.initial s →
        ∀ x y, s.world.routes x → s.world.routes y → sanitizeHost x.2 = sanitizeHost y.2 →
          x.1 = y.1 := by
  intro h
  obtain ⟨s, hs, hend⟩ := Reaches.exists_of_runEvents (State.step Config.clear)
    (fun _ e => e.succeeds = true) State.initial
    (spyDomain ⟨"shop-a1b2c3.example.dev", by decide⟩)
    (fun s => s.world.routesAt (utf8 "shop") (1, utf8 "shop-a1b2c3.example.dev") &&
      s.world.routesAt (utf8 "spy") (4, utf8 "shop-a1b2c3.example.dev"))
    (by decide) (by decide)
  rw [Bool.and_eq_true] at hend
  cases h Config.clear s hs _ _ (World.routes_of_routesAt hend.1) (World.routes_of_routesAt hend.2)
    rfl

end System
end Code2Cloud
