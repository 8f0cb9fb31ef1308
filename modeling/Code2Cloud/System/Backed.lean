import Code2Cloud.System.Builds
import Code2Cloud.System.Writes

/-!
# Jobs and their rows

A build job names a deployment.  Redeploys and pushes insert the row before they push the
job; the creation of a project pushes the job before its transaction ends.
-/

namespace Code2Cloud
namespace System

open Api Worker

variable {cfg : Config} {w : World} {s s' : State} {e : Event} {id : DeploymentId}

def World.hasRow (w : World) (id : DeploymentId) : Bool := w.db.deployments.any fun d => d.id == id

/-- No request of the run removes a project. -/
def Event.keepsProjects : Event → Bool
  | .request (.removeProject _ _) => false
  | _ => true

def Command.pushed : Command → Option BuildJob
  | .addBuildJob job => some job
  | _ => none

def State.drafted (s : State) (id : DeploymentId) : Bool := s.procs.calls.any (Call.drafts id)

/-- A job is pushed only when no open transaction holds its row. -/
def PushesCommitted (cfg : Config) (s : State) (e : Event) : Prop :=
  ∀ t ∈ s.turn cfg e, ∀ job ∈ t.command.pushed, s.drafted job.deploymentId = false

/-- A job is popped only when no open transaction holds its row, and a transaction is rolled back
only when the job of its row is not in the queue. -/
def PopsCommitted (cfg : Config) (s : State) (e : Event) : Prop :=
  ∀ t ∈ s.turn cfg e,
    match t.command with
    | .popBuildJob =>
      ∀ popped ∈ s.world.redis.toQueues.waitForJob, s.drafted popped.1.deploymentId = false
    | .rollbackDraft id =>
      ∀ c ∈ s.procs.calls, ∀ draft ∈ c.draft, draft.project.id = id →
        ∀ job ∈ s.world.redis.buildQueue, job.deploymentId ≠ draft.deployment.id
    | _ => True

instance (cfg : Config) (s : State) (e : Event) : Decidable (PushesCommitted cfg s e) :=
  Option.decidableForallMem _

instance (cfg : Config) (s : State) (e : Event) : Decidable (PopsCommitted cfg s e) :=
  have (c : Command) : Decidable
      (match c with
      | .popBuildJob =>
        ∀ popped ∈ s.world.redis.toQueues.waitForJob, s.drafted popped.1.deploymentId = false
      | .rollbackDraft id =>
        ∀ c ∈ s.procs.calls, ∀ draft ∈ c.draft, draft.project.id = id →
          ∀ job ∈ s.world.redis.buildQueue, job.deploymentId ≠ draft.deployment.id
      | _ => True) := by
    split
    all_goals infer_instance
  Option.decidableForallMem _

/-! ## Rows stay -/

theorem World.hasRow_iff : w.hasRow id = true ↔ ∃ d ∈ w.db.deployments, d.id = id := by
  simp [hasRow]

def Command.keepsProjects : Command → Bool
  | .deleteProject _ => false
  | _ => true

/-- Only the removal of a project takes a row away. -/
theorem World.hasRow_exec {c : Command} (hc : c.keepsProjects = true)
    (hshuffle : ∀ rows, c = .shuffleDeployments rows → rows.Perm w.db.deployments)
    (h : w.hasRow id = true) : (w.exec cfg c).hasRow id = true := by
  obtain ⟨d, hd, rfl⟩ := hasRow_iff.mp h
  rw [hasRow_iff, db_exec]
  cases c with
  | createDeployment d' | createRedeployment d' | commitDraft draft =>
    exact ⟨d, List.mem_append_left _ hd, rfl⟩
  | writeStatus id x =>
    refine ⟨_, List.mem_map.mpr ⟨d, hd, rfl⟩, ?_⟩
    split
    · exact StatusWrite.apply_id _ _ _
    · rfl
  | deleteProject id => cases hc
  | shuffleDeployments rows => exact ⟨d, (hshuffle rows rfl).mem_iff.mpr hd, rfl⟩
  | _ => exact ⟨d, hd, rfl⟩

theorem World.hasRow_insert {c : Command} {d : Deployment} (hd : d ∈ c.inserted) :
    (w.exec cfg c).hasRow d.id = true := by
  refine hasRow_iff.mpr ⟨d, ?_, rfl⟩
  cases c with
  | createDeployment | createRedeployment | commitDraft => exact List.mem_append_right _ hd
  | _ => cases hd

theorem keeps_query {σ : Type} (o : Outcome) (ok err : σ) :
    (query o (.pure ok) (.pure err) : Turn σ).command.keepsProjects = true := by
  unfold query
  split <;> rfl

theorem keeps_issue {σ : Type} {c : Command} (hc : c.keepsProjects = true) (w : World)
    (o : Outcome) (ok err : σ) (entries errors : List Entry) :
    (issue w o c ok err entries errors).command.keepsProjects = true := by
  rcases command_issue w o c ok err entries errors with h | h <;> rw [h]
  · exact hc
  · rfl

/-- Only `ProjectsService.remove` removes a project. -/
theorem keeps_call {c : Call} (hc : ∀ x, c ≠ .removeProject x) (r : Reply) :
    (c.step cfg w r).command.keepsProjects = true := by
  cases c with
  | removeProject c => exact absurd rfl (hc c)
  | createDeployment c =>
    rw [Call.step, Turn.command_map]
    cases c with
    | getLatestCommit => rfl
    | insert | enqueue => exact keeps_issue rfl w _ _ _ _ _
    | _ => exact keeps_query _ _ _
  | cancel c =>
    rw [Call.step, Turn.command_map]
    cases c with
    | find => exact keeps_query _ _ _
    | update | publish => exact keeps_issue rfl w _ _ _ _ _
  | updateStatus c =>
    rw [Call.step, Turn.command_map]
    cases c with
    | find => exact keeps_query _ _ _
    | update => exact keeps_issue rfl w _ _ _ _ _
  | push c =>
    rw [Call.step, Turn.command_map]
    cases c with
    | findProjects payload =>
      rw [WebhooksService.Push.step]
      split
      · rfl
      · split
        · rfl
        · exact keeps_query _ _ _
    | findSystemConfig => exact keeps_query _ _ _
    | publish | markCanceled | insert | enqueue => exact keeps_issue rfl w _ _ _ _ _
  | createProject c =>
    rw [Call.step, Turn.command_map]
    cases c with
    | findExisting | findGitAccounts => exact keeps_query _ _ _
    | getLatestCommit | rollback => rfl
    | insert =>
      rw [ProjectsService.Create.step]
      split <;> rfl
    | enqueue => exact keeps_issue rfl w _ _ _ _ _
    | commit =>
      rw [ProjectsService.Create.step]
      cases r.outcome <;> rfl
  | updateProject c =>
    rw [Call.step, Turn.command_map]
    cases c with
    | findOne => exact keeps_query _ _ _
    | update => exact keeps_issue rfl w _ _ _ _ _
  | createDomain c =>
    rw [Call.step, Turn.command_map]
    cases c with
    | findProject | findExisting => exact keeps_query _ _ _
    | insert => exact keeps_issue rfl w _ _ _ _ _
  | removeDomain c =>
    rw [Call.step, Turn.command_map]
    cases c with
    | find => exact keeps_query _ _ _
    | delete => exact keeps_issue rfl w _ _ _ _ _
  | late c =>
    rw [Call.step]
    cases c <;> exact keeps_issue rfl w _ _ _ _ _

/-! ## The calls and their rows -/

/-- The transaction of a project pushes the job of the row it inserted. -/
theorem enqueue_next {c : ProjectsService.Create} {r : Reply} {draft : Draft} {job : BuildJob}
    (h : (c.step cfg w r).next = .next (.enqueue draft job)) :
    job.deploymentId = draft.deployment.id := by
  cases c with
  | findExisting userId dto =>
    rw [ProjectsService.Create.step, query] at h
    split at h
    · simp only [Turn.pure] at h
      split at h <;> cases h
    · cases h
  | findGitAccounts userId dto =>
    rw [ProjectsService.Create.step, query] at h
    split at h
    · simp only [Turn.pure] at h
      split at h
      · cases h
      · split at h <;> cases h
    · cases h
  | getLatestCommit userId dto installationId => cases h
  | insert userId dto installationId commitData =>
    rw [ProjectsService.Create.step] at h
    split at h
    · cases h
      rfl
    · cases h
  | enqueue draft' job' =>
    rcases next_issue w r.outcome (.addBuildJob job')
      (Flow.next (ProjectsService.Create.commit draft'))
      (.next (.rollback draft')) [] [] with hn | hn <;>
      rw [ProjectsService.Create.step, hn] at h <;> cases h
  | commit draft' =>
    rw [ProjectsService.Create.step] at h
    cases ho : r.outcome <;> rw [ho] at h <;> cases h
  | rollback draft' => cases h

theorem inserted_of_holds {held : Option BuildJob} {c : Command} {job : BuildJob}
    (h : Holds w held c (some job)) (hc : c.builds = true) :
    ∃ d ∈ c.inserted, d.id = job.deploymentId := by
  cases h with
  | insert hinsert _ _ hjob _ =>
    refine ⟨_, ?_, hjob.symm⟩
    rcases hinsert with rfl | rfl <;> exact List.mem_singleton_self _
  | openDraft => cases hc

/-- The row of a job that a call has just taken up is inserted by that step, or held back by the
call's transaction. -/
theorem held_next {c c' : Call} {r : Reply} {job : BuildJob}
    (h : (c.step cfg w r).next = some c') (hheld : c'.held = some job) :
    (∃ d ∈ (c.step cfg w r).command.inserted, d.id = job.deploymentId) ∨
      c'.drafts job.deploymentId = true := by
  cases c with
  | createProject c =>
    obtain ⟨x, hx, rfl⟩ := toCall_eq_some h
    right
    cases x with
    | enqueue draft job' =>
      cases hheld
      simp [Call.drafts, Call.draft, enqueue_next hx]
    | _ => cases hheld
  | createDeployment c =>
    have hholds := holds_step cfg w (.createDeployment c) r
    rw [h, Option.bind_some, hheld] at hholds
    exact Or.inl (inserted_of_holds hholds (builds_call cfg w rfl r))
  | push c =>
    have hholds := holds_step cfg w (.push c) r
    rw [h, Option.bind_some, hheld] at hholds
    exact Or.inl (inserted_of_holds hholds (builds_call cfg w rfl r))
  | late c =>
    rw [next_late] at h
    cases h
  | _ =>
    obtain ⟨x, _, rfl⟩ := toCall_eq_some h
    cases hheld

theorem draft_step (cfg : Config) (w : World) {c : Call} {draft : Draft} (h : c.draft = some draft)
    (r : Reply) :
    (c.step cfg w r).next.bind Call.draft = some draft ∨
      (c.step cfg w r).command = .commitDraft draft ∨
      (c.step cfg w r).command = .rollbackDraft draft.project.id := by
  cases c with
  | createProject c =>
    rw [Call.step, Turn.command_map]
    cases c with
    | enqueue draft' job =>
      cases h
      refine Or.inl ?_
      rcases next_issue w r.outcome (.addBuildJob job)
        (Flow.next (ProjectsService.Create.commit draft)) (.next (.rollback draft)) [] [] with
        hn | hn <;> simp [Turn.map, ProjectsService.Create.step, hn, Flow.toCall, Call.draft]
    | commit draft' =>
      cases h
      rw [ProjectsService.Create.step]
      cases r.outcome <;> simp
    | rollback draft' =>
      cases h
      exact Or.inr (Or.inr rfl)
    | _ => cases h
  | _ => cases h

theorem keeps_of_background {c : Command} (hc : c.background = true) : c.keepsProjects = true := by
  cases c <;> first | rfl | cases hc

theorem keeps_of_bystander {c : Command} (hc : c.bystander = true) : c.keepsProjects = true := by
  cases c <;> first | rfl | cases hc

theorem held_of_addBuildJob {c : Call} {r : Reply} {job : BuildJob}
    (h : (c.step cfg w r).command = .addBuildJob job) : c.held = some job := by
  have hholds := holds_step cfg w c r
  rw [h] at hholds
  generalize (c.step cfg w r).next.bind Call.held = next at hholds
  generalize hheld : c.held = held at hholds
  cases hholds with
  | none hpush => exact absurd rfl (hpush job)
  | insert hinsert => rcases hinsert with h | h <;> cases h
  | push => rfl

namespace State

/-- Only a call that holds a job pushes one. -/
theorem pushes_turn {t : Turn Processes} (ht : s.turn cfg e = some t) {job : BuildJob}
    (hc : t.command = .addBuildJob job) : ∃ c ∈ s.procs.calls, c.held = some job := by
  rcases command_turn ht with ⟨i, r, c, rfl, hi, hcommand⟩ | ⟨r, rfl, hcommand⟩ | hb
  · exact ⟨c, List.mem_of_getElem? hi, held_of_addBuildJob (hcommand.symm.trans hc)⟩
  · have hbackground := (background_worker cfg s.world r s.procs.worker).command
    rw [← hcommand, hc] at hbackground
    cases hbackground
  · rw [hc] at hb
    cases hb

theorem queue_step (h : s.step cfg e = some s') {job : BuildJob}
    (hjob : job ∈ s'.world.redis.buildQueue) :
    job ∈ s.world.redis.buildQueue ∨ ∃ t, s.turn cfg e = some t ∧ t.command = .addBuildJob job := by
  obtain ⟨t, ht, _, rfl⟩ := step_eq_some_iff.mp h
  rw [after, World.record_redis] at hjob
  rcases s.world.buildQueue_exec cfg t.command with hq | ⟨job', hc, hq⟩ | ⟨job', _, hq, _⟩
  · rw [hq] at hjob
    exact Or.inl hjob
  · rw [hq] at hjob
    rcases List.mem_append.mp hjob with hjob | hjob
    · exact Or.inl hjob
    · rw [List.mem_singleton.mp hjob]
      exact Or.inr ⟨t, ht, hc⟩
  · rw [hq]
    exact Or.inl (List.mem_append_left _ hjob)

theorem job_step (h : s.step cfg e = some s') {job : BuildJob}
    (hjob : s'.procs.worker.job = some job) :
    s.procs.worker.job = some job ∨
      ∃ t queues, s.turn cfg e = some t ∧ t.command = .popBuildJob ∧
        s.world.redis.toQueues.waitForJob = some (job, queues) := by
  rcases step_cases h with ⟨i, r, before, c, later, rfl, _, rfl⟩ | ⟨r, rfl, rfl⟩ |
    ⟨command, new, hb⟩
  · exact Or.inl hjob
  · simp only [Processes.setWorker_worker] at hjob
    rcases BuildWorker.next_step cfg s.world r s.procs.worker with hcont |
      ⟨popped, hidle, hnext, hcommand, hqueue, _⟩
    · cases hn : (s.procs.worker.step cfg s.world r).next with
      | none =>
        rw [hn] at hjob
        cases hjob
      | some b =>
        rw [hn, Option.getD_some] at hjob
        rcases hcont b hn with rfl | ⟨hsame, _⟩
        · cases hjob
        · exact Or.inl (hsame.symm.trans hjob)
    · rw [hnext] at hjob
      cases hjob
      have hwait : s.world.redis.toQueues.waitForJob = some (popped,
          { s.world.redis.toQueues with
            buildQueue := (s.world.exec cfg .popBuildJob).redis.buildQueue }) := by
        rw [Queues.waitForJob, Deque.rpop_eq_some_iff.mpr hqueue]
        rfl
      exact Or.inr ⟨_, _, rfl, hcommand, hwait⟩
  · rcases hb.worker with hw | hw
    · exact Or.inl (hw ▸ hjob)
    · rw [hw] at hjob
      cases hjob

/-- No request removes a project, and the row of a job that a call holds is committed or held
back by the call. -/
structure Backed (s : State) : Prop where
  keeps : ∀ x, .removeProject x ∉ s.procs.calls
  held : ∀ c ∈ s.procs.calls, ∀ job, c.held = some job →
    s.world.hasRow job.deploymentId = true ∨ c.drafts job.deploymentId = true

theorem Backed.keeps_turn (hs : s.Backed) {t : Turn Processes} (ht : s.turn cfg e = some t) :
    t.command.keepsProjects = true := by
  rcases command_turn ht with ⟨i, r, c, rfl, hi, hcommand⟩ | ⟨r, rfl, hcommand⟩ | hb
  · rw [hcommand]
    refine keeps_call ?_ r
    rintro x rfl
    exact hs.keeps x (List.mem_of_getElem? hi)
  · rw [hcommand]
    exact keeps_of_background (background_worker cfg s.world r s.procs.worker).command
  · exact keeps_of_bystander hb

theorem Backed.hasRow_step (hs : s.Backed) (h : s.step cfg e = some s')
    (hrow : s.world.hasRow id = true) : s'.world.hasRow id = true := by
  obtain ⟨t, ht, _, rfl⟩ := step_eq_some_iff.mp h
  exact World.hasRow_exec (hs.keeps_turn ht) (shuffles_turn ht) hrow

theorem hasRow_inserted (h : s.step cfg e = some s') {t : Turn Processes}
    (ht : s.turn cfg e = some t) {d : Deployment} (hd : d ∈ t.command.inserted) :
    s'.world.hasRow d.id = true := by
  obtain ⟨t', ht', _, rfl⟩ := step_eq_some_iff.mp h
  cases ht.symm.trans ht'
  exact World.hasRow_insert hd

theorem drafted_iff : s.drafted id = true ↔ ∃ c ∈ s.procs.calls, c.drafts id = true :=
  List.any_eq_true

theorem drafted_step (h : s.step cfg e = some s') (hid : s.drafted id = true) :
    s'.drafted id = true ∨ s'.world.hasRow id = true ∨
      ∃ t, s.turn cfg e = some t ∧ ∃ c ∈ s.procs.calls, ∃ draft, c.draft = some draft ∧
        draft.deployment.id = id ∧ t.command = .rollbackDraft draft.project.id := by
  obtain ⟨c, hc, hdrafts⟩ := drafted_iff.mp hid
  rcases step_cases h with ⟨i, r, _, _, _, rfl, _, _⟩ | ⟨r, rfl, rfl⟩ | ⟨command, new, hb⟩
  · obtain ⟨before, c₀, later, hcalls, rfl, _, hs'⟩ := step_call h
    have hturn := turn_call cfg hcalls r
    have hmem : c ∈ before ∨ c = c₀ ∨ c ∈ later := by simpa [hcalls] using hc
    have hkept (hk : c ∈ before ∨ c ∈ later) : s'.drafted id = true := by
      refine drafted_iff.mpr ⟨c, ?_, hdrafts⟩
      rcases hk with hk | hk <;> simp [hs', hk]
    rcases hmem with hmem | rfl | hmem
    · exact Or.inl (hkept (Or.inl hmem))
    · rw [Call.drafts, Option.any_eq_true] at hdrafts
      obtain ⟨draft, hdraft, hdid⟩ := hdrafts
      rcases draft_step cfg s.world hdraft r with hnext | hcommit | hrollback
      · rw [Option.bind_eq_some_iff] at hnext
        obtain ⟨c', hc', hdraft'⟩ := hnext
        refine Or.inl (drafted_iff.mpr ⟨c', by simp [hs', hc'], ?_⟩)
        rw [Call.drafts, hdraft', Option.any_some, hdid]
      · refine Or.inr (Or.inl ?_)
        have hrow := hasRow_inserted h hturn (d := draft.deployment)
          (by rw [Turn.command_map, hcommit]; exact List.mem_singleton_self _)
        rwa [eq_of_beq hdid] at hrow
      · exact Or.inr (Or.inr ⟨_, hturn, c, hc, draft, hdraft, eq_of_beq hdid, hrollback⟩)
    · exact Or.inl (hkept (Or.inr hmem))
  · exact Or.inl (drafted_iff.mpr ⟨c, List.mem_append_left _ hc, hdrafts⟩)
  · exact Or.inl (drafted_iff.mpr ⟨c, hb.calls ▸ List.mem_append_left _ hc, hdrafts⟩)

theorem backed_step (hs : s.Backed) (he : e.keepsProjects = true) (h : s.step cfg e = some s') :
    s'.Backed where
  keeps x hx := by
    generalize hc : Call.removeProject x = c at hx
    cases origin_step h hx with
    | old hold => exact hs.keeps x (hc ▸ hold)
    | start r =>
      cases r with
      | removeProject => cases he
      | _ => cases hc
    | @next i r c₀ _ hc₀ hnext =>
      subst hc
      cases c₀ with
      | removeProject c => exact hs.keeps c (List.mem_of_getElem? hc₀)
      | late y =>
        rw [next_late] at hnext
        cases hnext
      | _ =>
        obtain ⟨y, _, hy⟩ := toCall_eq_some hnext
        cases hy
    | late => cases hc
  held c hc job hheld := by
    cases origin_step h hc with
    | old hold => exact (hs.held c hold job hheld).imp_left (hs.hasRow_step h)
    | start r => cases r <;> cases hheld
    | @next i r c₀ _ hc₀ hnext =>
      refine (held_next hnext hheld).imp_left ?_
      rintro ⟨d, hd, hid⟩
      have hturn : s.turn cfg (.call i r) =
          some ((c₀.step cfg s.world r).map (s.procs.setCall i)) := by
        rw [turn, hc₀]
        rfl
      exact hid ▸ hasRow_inserted h hturn hd
    | late => cases hheld

/-- Every job in the queue and the worker's have their rows. -/
structure Visible (s : State) : Prop where
  queue : ∀ job ∈ s.world.redis.buildQueue, s.world.hasRow job.deploymentId = true
  worker : ∀ job, s.procs.worker.job = some job → s.world.hasRow job.deploymentId = true

structure Pending (s : State) : Prop where
  queue : ∀ job ∈ s.world.redis.buildQueue,
    s.world.hasRow job.deploymentId = true ∨ s.drafted job.deploymentId = true
  worker : ∀ job, s.procs.worker.job = some job → s.world.hasRow job.deploymentId = true

theorem mem_of_waitForJob {q q' : Queues BuildJob ProjectCleanupJob} {job : BuildJob}
    (h : q.waitForJob = some (job, q')) :
    job ∈ q.buildQueue := by
  rw [Queues.waitForJob, Option.map_eq_some_iff] at h
  obtain ⟨⟨job', rest⟩, hpop, heq⟩ := h
  cases heq
  rw [Deque.rpop_eq_some_iff.mp hpop]
  exact List.mem_append_right _ (List.mem_singleton_self _)

theorem Backed.pushed (hs : s.Backed) {t : Turn Processes} (ht : s.turn cfg e = some t)
    {job : BuildJob} (hc : t.command = .addBuildJob job) :
    s.world.hasRow job.deploymentId = true ∨ s.drafted job.deploymentId = true := by
  obtain ⟨c, hmem, hheld⟩ := pushes_turn ht hc
  exact (hs.held c hmem job hheld).imp_right fun hd => drafted_iff.mpr ⟨c, hmem, hd⟩

theorem visible_step (hv : s.Visible) (hs : s.Backed) (hok : PushesCommitted cfg s e)
    (h : s.step cfg e = some s') : s'.Visible where
  queue job hjob := by
    refine hs.hasRow_step h ?_
    rcases queue_step h hjob with hold | ⟨t, ht, hc⟩
    · exact hv.queue job hold
    · have hfree := hok t ht job (by rw [hc]; rfl)
      exact (hs.pushed ht hc).resolve_right (by simp [hfree])
  worker job hjob := by
    refine hs.hasRow_step h ?_
    rcases job_step h hjob with hold | ⟨t, queues, ht, hc, hwait⟩
    · exact hv.worker job hold
    · exact hv.queue job (mem_of_waitForJob hwait)

theorem pending_step (hp : s.Pending) (hs : s.Backed) (hok : PopsCommitted cfg s e)
    (h : s.step cfg e = some s') : s'.Pending where
  queue job hjob := by
    have hwaits : s.world.hasRow job.deploymentId = true ∨ s.drafted job.deploymentId = true := by
      rcases queue_step h hjob with hold | ⟨t, ht, hc⟩
      · exact hp.queue job hold
      · exact hs.pushed ht hc
    rcases hwaits with hrow | hdrafted
    · exact Or.inl (hs.hasRow_step h hrow)
    rcases drafted_step h hdrafted with hd | hrow | ⟨t, ht, c, hmem, draft, hdraft, hid, hc⟩
    · exact Or.inr hd
    · exact Or.inl hrow
    · have hfree := hok t ht
      rw [hc] at hfree
      refine absurd hid.symm (hfree c hmem draft hdraft rfl job ?_)
      rcases queue_step h hjob with hold | ⟨t', ht', hc'⟩
      · exact hold
      · cases ht.symm.trans ht'
        cases hc.symm.trans hc'
  worker job hjob := by
    refine hs.hasRow_step h ?_
    rcases job_step h hjob with hold | ⟨t, queues, ht, hc, hwait⟩
    · exact hp.worker job hold
    · have hfree := hok t ht
      rw [hc] at hfree
      exact (hp.queue job (mem_of_waitForJob hwait)).resolve_right
        (by simp [hfree (job, queues) hwait])

/-- A row that an open transaction holds back is not in the table. -/
theorem Tabled.not_hasRow (ht : s.Tabled) (hid : s.drafted id = true) :
    s.world.hasRow id = false := by
  by_contra hrow
  rw [Bool.not_eq_false] at hrow
  obtain ⟨d, hd, hdid⟩ := World.hasRow_iff.mp hrow
  obtain ⟨c, hc, hdrafts⟩ := drafted_iff.mp hid
  have hrows : 0 < rowsOf id s.world.db.deployments :=
    List.countP_pos_iff.mpr ⟨d, hd, beq_iff_eq.mpr hdid⟩
  have hcalls : 0 < s.procs.calls.countP (Call.drafts id) :=
    List.countP_pos_iff.mpr ⟨c, hc, hdrafts⟩
  have hle : rowsOf id s.world.db.deployments + s.procs.calls.countP (Call.drafts id) ≤ 1 :=
    (ht id).1
  omega

/-- A job that is pushed while an open transaction holds its row has none. -/
theorem visible_step_iff (hv : s.Visible) (hs : s.Backed) (ht : s.Tabled)
    (h : s.step cfg e = some s') : s'.Visible ↔ PushesCommitted cfg s e := by
  refine ⟨fun hv' t hturn job hjob => ?_, fun hok => visible_step hv hs hok h⟩
  have hc : t.command = .addBuildJob job := by
    cases hcommand : t.command with
    | addBuildJob job' =>
      rw [hcommand] at hjob
      cases hjob
      rfl
    | _ =>
      rw [hcommand] at hjob
      cases hjob
  obtain ⟨t', hturn', _, rfl⟩ := step_eq_some_iff.mp h
  cases hturn.symm.trans hturn'
  by_contra hdrafted
  rw [Bool.not_eq_false] at hdrafted
  have hqueue := hv'.queue job
  simp only [after, World.record_redis, hc] at hqueue
  have hrow : s.world.hasRow job.deploymentId = true :=
    hqueue (List.mem_append_right _ (List.mem_singleton_self job))
  rw [ht.not_hasRow hdrafted] at hrow
  cases hrow

theorem backed_initial : initial.Backed :=
  ⟨fun _ => List.not_mem_nil, fun _ hc => absurd hc List.not_mem_nil⟩

theorem pending_initial : initial.Pending :=
  ⟨fun _ hjob => absurd hjob List.not_mem_nil, nofun⟩

end State

/-- While no project is removed, the jobs in the queue and the worker's have their rows as long
as no job is pushed whose row an open transaction holds.  The worker's job has its row if jobs are
popped only after their transactions, and no transaction whose job is in the queue is rolled
back. -/
theorem jobs_have_rows :
    (∀ s s', Reaches (State.step cfg) (fun _ e => e.keepsProjects = true) State.initial s →
      s.Visible →
      Reaches (State.step cfg) (fun s e => e.keepsProjects = true ∧ PushesCommitted cfg s e) s s' →
        s'.Visible) ∧
    ∀ s, Reaches (State.step cfg) (fun s e => e.keepsProjects = true ∧ PopsCommitted cfg s e)
      State.initial s →
        ∀ job, s.procs.worker.job = some job → s.world.hasRow job.deploymentId = true := by
  constructor
  · intro s s' hs hv h
    have hbacked : s.Backed :=
      hs.invariant State.Backed State.backed_initial
        fun _ _ _ hb he hstep => State.backed_step hb he hstep
    have hinv := h.invariant (fun s => s.Visible ∧ s.Backed) ⟨hv, hbacked⟩ ?_
    · exact hinv.1
    · rintro s e s' ⟨hv, hb⟩ ⟨he, hok⟩ hstep
      exact ⟨State.visible_step hv hb hok hstep, State.backed_step hb he hstep⟩
  · intro s h
    have hinv := h.invariant (fun s => s.Pending ∧ s.Backed)
      ⟨State.pending_initial, State.backed_initial⟩ ?_
    · exact hinv.1.worker
    · rintro s e s' ⟨hp, hb⟩ ⟨he, hok⟩ hstep
      exact ⟨State.pending_step hp hb hok hstep, State.backed_step hb he hstep⟩

/-- A project is created, and its live deployment redeployed. -/
theorem jobs_have_rows_shop :
    (∃ s s' job, Reaches (State.step Config.clear) (fun _ e => e.keepsProjects = true)
        State.initial s ∧ s.Visible ∧
      Reaches (State.step Config.clear)
        (fun s e => e.keepsProjects = true ∧ PushesCommitted Config.clear s e) s s' ∧
      job ∈ s'.world.redis.buildQueue ∧ s'.world.hasRow job.deploymentId = true) ∧
    ∃ s job, Reaches (State.step Config.clear)
        (fun s e => e.keepsProjects = true ∧ PopsCommitted Config.clear s e) State.initial s ∧
      s.procs.worker.job = some job ∧ s.world.hasRow job.deploymentId = true := by
  constructor
  · obtain ⟨s, hs, hend⟩ := Reaches.exists_of_runEvents (State.step Config.clear)
      (fun _ e => e.keepsProjects = true) State.initial (shopCreated ++ shopWorker 23)
      (fun s => s.world.redis.buildQueue.isEmpty && decide (s.procs.worker = .idle) &&
        decide (RunsUnder (State.step Config.clear)
          (fun s e => e.keepsProjects = true ∧ PushesCommitted Config.clear s e) s
          (shopRequest (.createDeployment 1 1) 6)) &&
        (runEvents (State.step Config.clear) s (shopRequest (.createDeployment 1 1) 6)).any
          fun s' => !s'.world.redis.buildQueue.isEmpty)
      (by decide) (by decide)
    simp only [Bool.and_eq_true, decide_eq_true_eq, List.isEmpty_iff] at hend
    obtain ⟨⟨⟨hqueue, hidle⟩, hunder⟩, hend⟩ := hend
    rw [Option.any_eq_true] at hend
    obtain ⟨s', hrun, hjobs⟩ := hend
    have hv : s.Visible := ⟨by simp [hqueue], by simp [hidle, BuildWorker.job]⟩
    have hs' := Reaches.of_runEvents hrun hunder
    obtain ⟨job, hjob⟩ := List.exists_mem_of_ne_nil s'.world.redis.buildQueue (by simpa using hjobs)
    exact ⟨s, s', job, hs, hv, hs', hjob, (jobs_have_rows.1 s s' hs hv hs').queue job hjob⟩
  · obtain ⟨s, hs, hend⟩ := Reaches.exists_of_runEvents (State.step Config.clear)
      (fun s e => e.keepsProjects = true ∧ PopsCommitted Config.clear s e) State.initial
      (shopCreated ++ shopWorker 1) (fun s => s.procs.worker.job.isSome)
      (by decide) (by decide)
    obtain ⟨job, hjob⟩ := Option.isSome_iff_exists.mp hend
    exact ⟨s, job, hs, hjob, jobs_have_rows.2 s hs job hjob⟩

/-- The worker is about to mark a deployment failed that has no row. -/
def State.failsUnseen (s : State) : Bool :=
  match s.procs.worker with
  | .failing job .markFailed => !s.world.hasRow job.deploymentId
  | _ => false

/-- The transaction of a project is rolled back after it pushed the job, which the worker then
fails for want of a row. -/
theorem not_jobs_have_rows :
    ¬∀ (cfg : Config) (s : State),
      Reaches (State.step cfg) (fun _ e => e.keepsProjects = true) State.initial s →
        s.Visible := by
  intro h
  obtain ⟨s, hs, hend⟩ := Reaches.exists_of_runEvents (State.step Config.clear)
    (fun _ e => e.keepsProjects = true) State.initial
    (shopCreated.dropLast ++ .call 0 { outcome := .fail } :: shopWorker 4)
    State.failsUnseen (by decide) (by decide)
  have hv := h Config.clear s hs
  cases hworker : s.procs.worker with
  | failing job pc =>
    have hrow := hv.worker job (by rw [hworker]; rfl)
    rw [State.failsUnseen, hworker] at hend
    cases pc with
    | markFailed => simp [hrow] at hend
    | stopStreams => cases hend
  | _ =>
    rw [State.failsUnseen, hworker] at hend
    cases hend

end System
end Code2Cloud
