import Code2Cloud.Base.Fresh
import Code2Cloud.System.Turns

/-!
# Tickets

A deployment's job is pushed once and popped once.  What a call holds, what waits in
the build queue and what was popped are counted together, deployment by deployment.
-/

namespace Code2Cloud
namespace System

open Api Worker

/-! ## The job a call holds -/

def Call.held : Call → Option BuildJob
  | .createDeployment (.enqueue job) | .push (.enqueue _ job _) | .createProject (.enqueue _ job) =>
    some job
  | _ => none

/-- A command that pushes a build job or pops one. -/
def Command.onBuildQueue : Command → Bool
  | .addBuildJob _ | .popBuildJob => true
  | _ => false

/-- How a call's job comes and goes in a step. -/
inductive Holds (w : World) : Option BuildJob → Command → Option BuildJob → Prop
  /-- No job is pushed, and a job that was held is given up. -/
  | none {held : Option BuildJob} {c : Command} (hpush : ∀ job, c ≠ .addBuildJob job)
      (hpop : c ≠ .popBuildJob) : Holds w held c none
  | insert {held : Option BuildJob} {c : Command} {job : BuildJob} {d : Deployment}
      (hc : c = .createDeployment d ∨ c = .createRedeployment d) (hid : d.id = w.db.nextId)
      (hqueued : d.status = .queued) (hjob : job.deploymentId = d.id)
      (hproject : job.projectId = d.projectId) : Holds w held c (some job)
  | openDraft {held : Option BuildJob} {draft : Draft} {job : BuildJob}
      (hid : draft.deployment.id = w.db.nextId + 1) (hjob : job.deploymentId = draft.deployment.id)
      (hproject : job.projectId = draft.deployment.projectId) :
      Holds w held (.openDraft draft) (some job)
  | push {job : BuildJob} : Holds w (some job) (.addBuildJob job) none

variable {cfg : Config} {w : World} {s s' : State}

theorem holds_none {held : Option BuildJob} {c : Command} (h : c.onBuildQueue = false) :
    Holds w held c .none := by
  refine .none ?_ ?_
  · rintro job rfl
    cases h
  · rintro rfl
    cases h

theorem holds_pure (held : Option BuildJob) {next : Option Call} (entries : List Entry)
    (h : next.bind Call.held = .none) :
    Holds w held (Turn.pure next entries).command
      ((Turn.pure next entries).next.bind Call.held) := by
  rw [Turn.pure, h]
  exact holds_none rfl

theorem holds_query (held : Option BuildJob) (o : Outcome) {ok err : Option Call}
    (hok : ok.bind Call.held = .none) (herr : err.bind Call.held = .none) :
    Holds w held (query o (.pure ok) (.pure err)).command
      ((query o (.pure ok) (.pure err)).next.bind Call.held) := by
  unfold query
  split
  · exact holds_pure held [] hok
  · exact holds_pure held [] herr

theorem holds_issue {held : Option BuildJob} {o : Outcome} {c : Command} {ok err : Option Call}
    {entries errors : List Entry} (hok : Holds w held c (ok.bind Call.held))
    (herr : Holds w held c (err.bind Call.held)) (hskip : err.bind Call.held = .none) :
    Holds w held (issue w o c ok err entries errors).command
      ((issue w o c ok err entries errors).next.bind Call.held) := by
  rcases issue_cases w o c ok err entries errors with ⟨_, h⟩ | ⟨_, h⟩ | h <;> rw [h]
  · exact hok
  · exact herr
  · rw [hskip]
    exact holds_none rfl

theorem holds_createDeployment (c : DeploymentsService.Create) (r : Reply) :
    Holds w (Call.createDeployment c).held ((Call.createDeployment c).step cfg w r).command
      (((Call.createDeployment c).step cfg w r).next.bind Call.held) := by
  cases c with
  | findProject userId projectId =>
    simp only [Call.step, DeploymentsService.Create.step, Turn.map_query, Turn.map_pure]
    refine holds_query _ _ ?_ rfl
    cases w.db.findOwnedProject projectId userId <;> rfl
  | findGitAccounts userId project =>
    simp only [Call.step, DeploymentsService.Create.step, Turn.map_query, Turn.map_pure]
    refine holds_query _ _ ?_ rfl
    cases w.db.gitAccountsOf userId <;> rfl
  | findLatest userId project accounts =>
    simp only [Call.step, DeploymentsService.Create.step, Turn.map_query, Turn.map_pure]
    refine holds_query _ _ ?_ rfl
    split
    · rfl
    · cases (matchingAccount accounts project.project.gitRepoOwner).bind installed <;> rfl
  | getLatestCommit userId project installationId => exact holds_pure _ [] rfl
  | insert userId project installationId commit =>
    simp only [Call.step, DeploymentsService.Create.step, Turn.map_issue]
    exact holds_issue (.insert (Or.inr rfl) rfl rfl rfl rfl) (holds_none rfl) rfl
  | enqueue job =>
    simp only [Call.step, DeploymentsService.Create.step, Turn.map_issue]
    exact holds_issue .push .push rfl

theorem held_loop (e : EncryptionService) (opts : WebhooksService.TriggerOptions)
    (cs : List WebhooksService.Candidate) :
    (Flow.toCall .push (WebhooksService.Push.loop e opts cs)).bind Call.held = none := by
  induction cs with
  | nil => rfl
  | cons c rest ih =>
    rw [WebhooksService.Push.loop]
    repeat' split
    all_goals first
      | exact ih
      | rfl

theorem held_afterCancel (e : EncryptionService) (opts : WebhooksService.TriggerOptions)
    (l : Loaded) (rest : List WebhooksService.Candidate) :
    (Flow.toCall .push (WebhooksService.Push.afterCancel e opts l rest)).bind Call.held = none := by
  rw [WebhooksService.Push.afterCancel]
  cases WebhooksService.jobEnvVars e l with
  | none => exact held_loop e opts rest
  | some envVars => rfl

theorem holds_push (c : WebhooksService.Push) (r : Reply) :
    Holds w (Call.push c).held ((Call.push c).step cfg w r).command
      (((Call.push c).step cfg w r).next.bind Call.held) := by
  cases c with
  | findProjects payload =>
    simp only [Call.step, WebhooksService.Push.step]
    split
    · exact holds_pure _ [] rfl
    · cases WebhooksService.installationOf payload with
      | none => exact holds_pure _ [] rfl
      | some installationId =>
        simp only [Turn.map_query, Turn.map_pure]
        exact holds_query _ _ (held_loop _ _ _) rfl
  | publish opts l id rest =>
    simp only [Call.step, WebhooksService.Push.step, Turn.map_issue]
    refine holds_issue (holds_none rfl) ?_ (held_loop _ _ _)
    rw [held_loop]
    exact holds_none rfl
  | markCanceled opts l id rest =>
    simp only [Call.step, WebhooksService.Push.step, Turn.map_issue]
    refine holds_issue ?_ ?_ (held_loop _ _ _)
    · rw [held_afterCancel]
      exact holds_none rfl
    · rw [held_loop]
      exact holds_none rfl
  | findSystemConfig opts l envVars previous rest =>
    simp only [Call.step, WebhooksService.Push.step, Turn.map_query, Turn.map_pure]
    exact holds_query _ _ rfl (held_loop _ _ _)
  | insert opts l envVars previous region rest =>
    simp only [Call.step, WebhooksService.Push.step, Turn.map_issue]
    refine holds_issue (.insert (Or.inl rfl) rfl rfl rfl rfl) ?_ (held_loop _ _ _)
    rw [held_loop]
    exact holds_none rfl
  | enqueue opts job rest =>
    simp only [Call.step, WebhooksService.Push.step, Turn.map_issue]
    refine holds_issue ?_ ?_ (held_loop _ _ _)
    · rw [held_loop]
      exact .push
    · rw [held_loop]
      exact .push

theorem holds_createProject (c : ProjectsService.Create) (r : Reply) :
    Holds w (Call.createProject c).held ((Call.createProject c).step cfg w r).command
      (((Call.createProject c).step cfg w r).next.bind Call.held) := by
  cases c with
  | findExisting userId dto =>
    simp only [Call.step, ProjectsService.Create.step, Turn.map_query, Turn.map_pure]
    refine holds_query _ _ ?_ rfl
    split <;> rfl
  | findGitAccounts userId dto =>
    simp only [Call.step, ProjectsService.Create.step, Turn.map_query, Turn.map_pure]
    refine holds_query _ _ ?_ rfl
    split
    · rfl
    · split <;> rfl
  | getLatestCommit userId dto installationId => exact holds_pure _ [] rfl
  | insert userId dto installationId commitData =>
    simp only [Call.step, ProjectsService.Create.step]
    split
    · exact .openDraft rfl rfl rfl
    · exact holds_pure _ [] rfl
  | enqueue draft job =>
    simp only [Call.step, ProjectsService.Create.step, Turn.map_issue]
    exact holds_issue .push .push rfl
  | commit draft =>
    simp only [Call.step, ProjectsService.Create.step]
    cases r.outcome <;> exact holds_none rfl
  | rollback draft => exact holds_none rfl

theorem holds_step (cfg : Config) (w : World) (c : Call) (r : Reply) :
    Holds w c.held (c.step cfg w r).command ((c.step cfg w r).next.bind Call.held) := by
  cases c with
  | createDeployment c => exact holds_createDeployment c r
  | push c => exact holds_push c r
  | createProject c => exact holds_createProject c r
  | cancel c =>
    cases c with
    | find userId id =>
      simp only [Call.step, DeploymentsService.Cancel.step, Turn.map_query, Turn.map_pure]
      refine holds_query _ _ ?_ rfl
      split
      · rfl
      · split <;> rfl
    | update id =>
      simp only [Call.step, DeploymentsService.Cancel.step, Turn.map_issue]
      exact holds_issue (holds_none rfl) (holds_none rfl) rfl
    | publish id =>
      simp only [Call.step, DeploymentsService.Cancel.step, Turn.map_issue]
      exact holds_issue (holds_none rfl) (holds_none rfl) rfl
  | updateStatus c =>
    cases c with
    | find userId id status =>
      simp only [Call.step, DeploymentsService.UpdateStatus.step, Turn.map_query, Turn.map_pure]
      refine holds_query _ _ ?_ rfl
      split <;> rfl
    | update id status =>
      simp only [Call.step, DeploymentsService.UpdateStatus.step, Turn.map_issue]
      exact holds_issue (holds_none rfl) (holds_none rfl) rfl
  | updateProject c =>
    cases c with
    | findOne id userId dto =>
      simp only [Call.step, ProjectsService.Update.step, Turn.map_query, Turn.map_pure]
      refine holds_query _ _ ?_ rfl
      split <;> rfl
    | update id dto =>
      simp only [Call.step, ProjectsService.Update.step, Turn.map_issue]
      exact holds_issue (holds_none rfl) (holds_none rfl) rfl
  | removeProject c =>
    cases c with
    | findProject id userId =>
      simp only [Call.step, ProjectsService.Remove.step, Turn.map_query, Turn.map_pure]
      refine holds_query _ _ ?_ rfl
      split
      · rfl
      · split <;> rfl
    | publish cleanup ids =>
      cases ids with
      | nil => exact holds_pure _ [] rfl
      | cons id ids =>
        simp only [Call.step, ProjectsService.Remove.step, Turn.map_issue]
        exact holds_issue (holds_none rfl) (holds_none rfl) rfl
    | enqueue cleanup =>
      simp only [Call.step, ProjectsService.Remove.step, Turn.map_issue]
      exact holds_issue (holds_none rfl) (holds_none rfl) rfl
    | delete id =>
      simp only [Call.step, ProjectsService.Remove.step, Turn.map_issue]
      exact holds_issue (holds_none rfl) (holds_none rfl) rfl
  | createDomain c =>
    cases c with
    | findProject userId projectId domainName =>
      simp only [Call.step, DomainsService.Create.step, Turn.map_query, Turn.map_pure]
      refine holds_query _ _ ?_ rfl
      split <;> rfl
    | findExisting projectId domainName =>
      simp only [Call.step, DomainsService.Create.step, Turn.map_query, Turn.map_pure]
      refine holds_query _ _ ?_ rfl
      split <;> rfl
    | insert projectId domainName =>
      simp only [Call.step, DomainsService.Create.step, Turn.map_issue]
      exact holds_issue (holds_none rfl) (holds_none rfl) rfl
  | removeDomain c =>
    cases c with
    | find userId id =>
      simp only [Call.step, DomainsService.Remove.step, Turn.map_query, Turn.map_pure]
      refine holds_query _ _ ?_ rfl
      split <;> rfl
    | delete id =>
      simp only [Call.step, DomainsService.Remove.step, Turn.map_issue]
      exact holds_issue (holds_none rfl) (holds_none rfl) rfl
  | late c =>
    cases c <;> exact holds_issue (holds_none rfl) (holds_none rfl) rfl

/-! ## Tickets -/

def Call.holds (id : DeploymentId) (c : Call) : Bool := c.held.any fun job => job.deploymentId == id

namespace World

def taken (w : World) (id : DeploymentId) : Nat :=
  w.redis.buildQueue.countP (fun job => job.deploymentId == id) + w.log.count (.popped id)

theorem count_recorded {c : Command} (hc : c ≠ .popBuildJob) (w : World) (id : DeploymentId) :
    (w.recorded c).count (.popped id) = 0 := by
  cases c with
  | popBuildJob => exact absurd rfl hc
  | publishCancelSignal id' => simp [recorded]
  | apply o => cases o <;> simp [recorded]
  | _ => simp [recorded]

theorem count_entries {a : Writer} {entries : List Entry} (h : writtenBy a entries = true)
    (ha : a ≠ .command) (id : DeploymentId) : entries.count (.popped id) = 0 := by
  rw [List.count_eq_zero]
  intro hmem
  exact ha (writer_of_mem h hmem).symm

/-- A command moves jobs from the queue to the popped ones; only a push adds one. -/
theorem taken_exec (cfg : Config) (w : World) {c : Command} (hc : ∀ job, c ≠ .addBuildJob job)
    (id : DeploymentId) : (w.exec cfg c).taken id = w.taken id := by
  rw [taken, taken, log_exec, List.count_append]
  rcases w.buildQueue_exec cfg c with hq | ⟨job, rfl, _⟩ | ⟨job, rfl, hq, hrec⟩
  · rw [hq]
    by_cases hpop : c = .popBuildJob
    · subst hpop
      rw [exec] at hq
      cases hwait : w.redis.toQueues.waitForJob with
      | none => simp [recorded, hwait]
      | some r =>
        rw [hwait] at hq
        rw [Queues.waitForJob, Option.map_eq_some_iff] at hwait
        obtain ⟨⟨job, rest⟩, hpop, rfl⟩ := hwait
        rw [Deque.rpop_eq_some_iff.mp hpop] at hq
        exact absurd hq.symm (by simp)
    · rw [count_recorded hpop, Nat.add_zero]
  · exact absurd rfl (hc job)
  · rw [hq, hrec, List.countP_append, List.countP_singleton, List.count_singleton]
    by_cases hid : job.deploymentId = id
    · simp [hid]
      omega
    · simp [hid]

theorem taken_push (cfg : Config) (w : World) (job : BuildJob) (id : DeploymentId) :
    (w.exec cfg (.addBuildJob job)).taken id =
      w.taken id + if job.deploymentId = id then 1 else 0 := by
  rw [taken, taken, exec]
  simp only [Queues.addBuildJob, Deque.rpush, List.countP_append, List.countP_singleton, beq_iff_eq]
  omega

theorem taken_record (w : World) {a : Writer} {entries : List Entry}
    (h : writtenBy a entries = true) (ha : a ≠ .command) (id : DeploymentId) :
    (w.record entries).taken id = w.taken id := by
  rw [taken, taken, record, List.count_append, count_entries h ha, Nat.add_zero]

end World

namespace State

/-- How often a deployment's job is held by a call, waits in the queue or was popped. -/
def tickets (s : State) (id : DeploymentId) : Nat :=
  s.procs.calls.countP (Call.holds id) + s.world.taken id

/-- Every deployment has at most one job, and an identifier that is not in use has none. -/
def Ticketed (s : State) : Prop := Fresh.Once s.world.db.nextId s.tickets

def heldTickets (id : DeploymentId) (held : Option BuildJob) : Nat :=
  if held.any fun job => job.deploymentId == id then 1 else 0

theorem countP_toList (id : DeploymentId) (next : Option Call) :
    next.toList.countP (Call.holds id) = heldTickets id (next.bind Call.held) := by
  cases next with
  | none => rfl
  | some c => exact List.countP_singleton

theorem heldTickets_some (id : DeploymentId) (job : BuildJob) :
    heldTickets id (some job) = if job.deploymentId = id then 1 else 0 := by
  simp [heldTickets]

theorem tickets_le_of_holds {held next : Option BuildJob} {c : Command} (h : Holds w held c next)
    (cfg : Config) (id : DeploymentId) :
    heldTickets id next + (w.exec cfg c).taken id ≤ heldTickets id held + w.taken id +
      Fresh.drawn w.db.nextId (w.exec cfg c).db.nextId id := by
  cases h with
  | none hpush hpop =>
    rw [World.taken_exec cfg w hpush]
    simp only [heldTickets, Option.any_none, Bool.false_eq_true, if_false]
    omega
  | @insert _ _ job d hc hid _ hjob _ =>
    have hpush : ∀ job, c ≠ .addBuildJob job := by
      rcases hc with rfl | rfl <;> exact nofun
    have hmint : World.minted c = 1 := by
      rcases hc with rfl | rfl <;> rfl
    rw [World.taken_exec cfg w hpush, heldTickets_some, World.nextId_exec, hmint, hjob, hid]
    by_cases hnew : w.db.nextId = id
    · subst hnew
      rw [if_pos rfl, Fresh.drawn_of_le (Nat.le_refl _) (Nat.lt_succ_self _)]
      omega
    · rw [if_neg hnew]
      omega
  | @openDraft _ draft job hid hjob _ =>
    have hpush : ∀ job, Command.openDraft draft ≠ .addBuildJob job := nofun
    rw [World.taken_exec cfg w hpush, heldTickets_some, World.nextId_exec, World.minted, hjob, hid]
    by_cases hnew : w.db.nextId + 1 = id
    · subst hnew
      rw [if_pos rfl, Fresh.drawn_of_le (Nat.le_add_right _ 1) (by omega)]
      omega
    · rw [if_neg hnew]
      omega
  | @push job =>
    rw [World.taken_push, heldTickets_some]
    simp only [heldTickets, Option.any_none, Bool.false_eq_true, if_false]
    omega

/-- In a step of a call a ticket is handed on or given up, and a new one has a new
identifier. -/
theorem tickets_call {before later : List Call} {c : Call} {r : Reply} {procs : Processes}
    (hcalls : s.procs.calls = before ++ c :: later) (hs' : s' = {
        world := (s.world.exec cfg (c.step cfg s.world r).command).record
          (c.step cfg s.world r).entries
        procs := { procs with calls := before ++ (c.step cfg s.world r).next.toList ++ later } })
    (id : DeploymentId) :
    s'.tickets id ≤ s.tickets id + Fresh.drawn s.world.db.nextId s'.world.db.nextId id := by
  have h := tickets_le_of_holds (holds_step cfg s.world c r) cfg id
  have hc : Call.holds id c = c.held.any fun job => job.deploymentId == id := rfl
  subst hs'
  simp only [tickets, hcalls, World.taken_record _ (foreground_call cfg s.world r c).entries nofun,
    List.countP_append, List.countP_cons, countP_toList, hc,
    World.record_db] at h ⊢
  simp only [heldTickets] at h ⊢
  omega

theorem taken_background {σ : Type} {t : Turn σ} (ht : t.Background) (cfg : Config) (w : World)
    (id : DeploymentId) :
    ((w.exec cfg t.command).record t.entries).taken id = w.taken id ∧
      ((w.exec cfg t.command).record t.entries).db.nextId = w.db.nextId := by
  have hpush : ∀ job, t.command ≠ .addBuildJob job := by
    intro job hc
    have h := ht.command
    rw [hc] at h
    cases h
  have hmint : World.minted t.command = 0 := by
    have h := ht.command
    cases hc : t.command <;> rw [hc] at h <;> first | rfl | cases h
  rw [World.taken_record _ ht.entries nofun, World.taken_exec cfg _ hpush, World.record_db,
    World.nextId_exec, hmint]
  exact ⟨rfl, rfl⟩

theorem countP_starts {new : List Call} (h : ∀ c ∈ new, (∃ r : Request, c = r.start) ∨
    ∃ x, c = .late x ∧ x.command.quiet = true) (id : DeploymentId) :
    new.countP (Call.holds id) = 0 := by
  refine List.countP_eq_zero.mpr fun c hc => ?_
  rcases h c hc with ⟨r, rfl⟩ | ⟨x, rfl, _⟩
  · cases r <;> simp [Request.start, Call.holds, Call.held]
  · simp [Call.holds, Call.held]

theorem countP_late (xs : List InternalRequest) (id : DeploymentId) :
    (xs.map Call.late).countP (Call.holds id) = 0 := by
  rw [List.countP_map]
  exact List.countP_eq_zero.mpr fun x _ => by simp [Call.holds, Call.held]

theorem ticketed_step {e : Event} (hs : s.Ticketed) (h : s.step cfg e = some s') :
    s'.Ticketed := by
  have hkeep (hnext : s'.world.db.nextId = s.world.db.nextId)
      (htickets : ∀ id, s'.tickets id = s.tickets id) : s'.Ticketed :=
    hs.step hnext.ge fun id => (htickets id).trans_le (Nat.le_add_right _ _)
  rcases step_cases h with ⟨i, r, before, c, later, rfl, hcalls, hs'⟩ | ⟨r, rfl, hs'⟩ |
    ⟨command, new, hb⟩
  · refine hs.step ?_ (tickets_call hcalls hs')
    rw [hs', World.record_db, World.nextId_exec]
    exact Nat.le_add_right _ _
  · have hworker := background_worker cfg s.world r s.procs.worker
    refine hkeep ?_ fun id => ?_
    · rw [hs']
      exact (taken_background hworker cfg s.world 0).2
    · rw [hs', tickets, tickets, List.countP_append, countP_late,
        (taken_background hworker cfg s.world id).1]
      rfl
  · refine hkeep ?_ fun id => ?_
    · rw [hb.world, World.nextId_bystander cfg _ hb.bystander]
    · rw [tickets, tickets, hb.calls, List.countP_append, countP_starts hb.starts, hb.world,
        World.taken, World.taken, World.log_bystander cfg _ hb.bystander,
        (World.redis_bystander cfg _ hb.bystander).1]
      rfl

end State
end System
end Code2Cloud
