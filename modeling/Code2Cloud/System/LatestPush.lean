import Code2Cloud.System.Rollouts
import Code2Cloud.System.Sequence

/-!
# The latest push

The one build loop takes the jobs of pushes youngest first.  An older build that is taken up after
a younger one must find its cancel signal.
-/

namespace Code2Cloud
namespace System

open Api Worker

variable {cfg : Config} {w : World} {s s' : State} {e : Event} {p : ProjectId}
  {id : DeploymentId}

/-- A younger deployment of the job's project was applied. -/
def Entry.overtakes (job : BuildJob) : Entry → Bool
  | .applied p id => p == job.projectId && decide (job.deploymentId < id)
  | _ => false

/-- What was applied was applied for a deployment before `n`. -/
def Entry.olderThan (n : DeploymentId) : Entry → Bool
  | .applied _ id => decide (id < n)
  | _ => true

/-- Of the project's active deployments the younger ones started later. -/
def InOrder (db : Database) (p : ProjectId) : Prop :=
  ∀ d ∈ db.deploymentsOf p, ∀ d' ∈ db.deploymentsOf p, d.status.active = true →
    d'.status.active = true → d.id < d'.id → d.startedAt < d'.startedAt

/-- The condition on a step: a push that looks for its projects' deployments in progress can tell
the latest one, and the last cancel check of a build that was overtaken is answered while the
signal that was set lives. -/
def Heeding (s : State) : Event → Prop
  | .call i _ =>
    match s.procs.calls[i]? with
    | some (.push (.findProjects payload)) =>
      ∀ c ∈ WebhooksService.candidates s.world.db payload,
        InOrder s.world.db c.loaded.project.id
    | _ => True
  | .worker r =>
    match s.procs.worker with
    | .processing b .checkDeploy =>
      (∃ x ∈ s.world.log, x.overtakes b.job = true) →
        r.outcome = .ok ∧
          ∀ time ∈ lastPublished b.job.deploymentId s.world.log, s.world.now ≤ time + 300 * 1000
    | _ => True
  | _ => True

instance (db : Database) (p : ProjectId) : Decidable (InOrder db p) :=
  inferInstanceAs (Decidable (∀ d ∈ _, ∀ d' ∈ _, _))

/-- The payload of a push that has not looked for its projects yet. -/
def Call.arriving : Call → Option PushEventPayload
  | .push (.findProjects payload) => some payload
  | _ => none

theorem heeding_call_iff {i : Nat} {r : Reply} : Heeding s (.call i r) ↔
    ∀ payload ∈ s.procs.calls[i]?.bind Call.arriving,
      ∀ c ∈ WebhooksService.candidates s.world.db payload,
        InOrder s.world.db c.loaded.project.id := by
  rw [Heeding]
  cases s.procs.calls[i]? with
  | none => simp
  | some c =>
    rw [Option.bind_some]
    cases c with
    | push c => cases c <;> simp [Call.arriving]
    | _ => simp [Call.arriving]

theorem heeding_worker_iff {r : Reply} : Heeding s (.worker r) ↔
    ∀ job ∈ s.procs.worker.processingAt .checkDeploy,
      (∃ x ∈ s.world.log, x.overtakes job = true) →
        r.outcome = .ok ∧
          ∀ time ∈ lastPublished job.deploymentId s.world.log, s.world.now ≤ time + 300 * 1000 := by
  rw [Heeding]
  cases s.procs.worker with
  | processing b pc => cases pc <;> simp [BuildWorker.processingAt]
  | _ => simp [BuildWorker.processingAt]

instance (s : State) (e : Event) : Decidable (Heeding s e) :=
  match e with
  | .call _ _ => decidable_of_iff _ heeding_call_iff.symm
  | .worker _ => decidable_of_iff _ heeding_worker_iff.symm
  | .tick _ | .edit _ | .request _ | .sweep _ | .projectCleanup _ | .domainWorker _
  | .restart => isTrue trivial

/-- A request after one before the deployment comes before it too, but for the last cancel check. -/
theorem Pc.beforeDeploy_of_following {pc pc' : Pc} (hpc : pc.BeforeDeploy)
    (h : pc' ∈ pc.following) : pc = .checkDeploy ∨ pc'.BeforeDeploy := by
  cases pc with
  | checkDeploy => exact Or.inl rfl
  | deploy | markDeploying | markReady | projectActive | stopPrevious | supersede
  | startStreaming => exact absurd hpc (by simp [Pc.BeforeDeploy, Pc.position])
  | _ =>
    rw [List.mem_singleton.mp h]
    exact Or.inr (by decide)

/-- A cancel check that is answered finds a signal that lives. -/
theorem BuildWorker.next_check_of_live {b : Build} {r : Reply} {next : Pc}
    (hkey : w.Keyed b.job.deploymentId)
    (hsome : (lastPublished b.job.deploymentId w.log).isSome) (hok : r.outcome = .ok)
    (htime : ∀ time ∈ lastPublished b.job.deploymentId w.log, w.now ≤ time + 300 * 1000) :
    (check w r b next).next = some (.cancelling b.job .markCanceled) := by
  obtain ⟨time, hpublished⟩ := Option.isSome_iff_exists.mp hsome
  have hcancelled : w.redis.isCancelled w.now b.job.deploymentId = true := by
    rw [World.Keyed, hpublished] at hkey
    rw [Redis.isCancelled, hkey]
    simpa using htime time hpublished
  rw [check, if_pos ⟨hok, hcancelled⟩]
  rfl

namespace State

structure Ordinary (s : State) : Prop where
  ticketed : s.Ticketed
  signalled : s.Signalled
  tabled : s.Tabled
  listed : s.Listed
  rolled : s.Rolled

theorem ordinary_step (hs : s.Ordinary) (h : s.step cfg e = some s') : s'.Ordinary where
  ticketed := ticketed_step hs.ticketed h
  signalled := signalled_step hs.signalled hs.ticketed h
  tabled := tabled_step hs.tabled h
  listed := listed_step hs.listed h
  rolled := rolled_step hs.rolled hs.signalled h

theorem ordinary_initial : initial.Ordinary where
  ticketed _ := ⟨Nat.zero_le _, fun _ => rfl⟩
  signalled := signalled_initial
  tabled _ := ⟨Nat.zero_le _, fun _ => rfl⟩
  listed _ := ⟨Nat.zero_le _, fun _ => rfl⟩
  rolled := ⟨fun _ _ h => absurd h List.not_mem_nil, fun _ h => absurd h List.not_mem_nil, nofun⟩

/-! ## What a run of pushes keeps -/

/-- The job waits in the queue, or a call is about to push it. -/
def Waits (s : State) (job : BuildJob) : Prop :=
  job ∈ s.world.redis.buildQueue ∨ ∃ c ∈ s.procs.calls, c.held = some job

def Past (n : DeploymentId) (s : State) (id : DeploymentId) : Prop :=
  .popped id ∈ s.world.log ∨ id < n

def HasRow (s : State) (p : ProjectId) (id : DeploymentId) (P : Deployment → Prop) : Prop :=
  ∃ d ∈ s.world.db.deployments, d.id = id ∧ d.projectId = p ∧ P d

/-- What a run of pushes keeps, which began with deployments before `n`. -/
structure Latest (n : DeploymentId) (s : State) : Prop where
  since : n ≤ s.world.db.nextId
  pushing : s.Pushing
  sequential : s.Sequential
  aims : ∀ id, s.Aims id → s.Past n id
  /-- A job that waits is of a deployment that is queued, or has its signal. -/
  waiting : ∀ job, s.Waits job → n ≤ job.deploymentId ∧
    s.HasRow job.projectId job.deploymentId fun d =>
      d.status = .queued ∨ (lastPublished d.id s.world.log).isSome
  /-- The job that a push is about to enqueue is of the project's youngest deployment. -/
  held : ∀ c ∈ s.procs.calls, ∀ job, c.held = some job →
    ∀ d ∈ s.world.db.deployments, d.projectId = job.projectId → d.id ≤ job.deploymentId
  /-- The signal was set for each job in the queue that is not of the youngest deployment. -/
  queue : ∀ job ∈ s.world.redis.buildQueue, ∀ d ∈ s.world.db.deployments,
    d.projectId = job.projectId → job.deploymentId < d.id →
      (lastPublished job.deploymentId s.world.log).isSome
  projects : ∀ y, .push y ∈ s.procs.calls → (y.targets.map Prod.fst).Nodup
  /-- A push sets the signal for each job in the queue before it inserts a row. -/
  covers : ∀ y, .push y ∈ s.procs.calls → ∀ x ∈ y.targets, ∀ job ∈ s.world.redis.buildQueue,
    job.projectId = x.1 →
      (lastPublished job.deploymentId s.world.log).isSome ∨ x.2 = some job.deploymentId
  building : ∀ job, s.procs.worker.job = some job →
    n ≤ job.deploymentId ∧ s.HasRow job.projectId job.deploymentId fun _ => True
  /-- A build that was overtaken has the last cancel check before it, and its signal was set. -/
  overtaken : ∀ b pc, s.procs.worker = .processing b pc → ∀ k,
    .applied b.job.projectId k ∈ s.world.log → b.job.deploymentId < k →
      (lastPublished b.job.deploymentId s.world.log).isSome ∧ pc.BeforeDeploy
  applied : ∀ p k, .applied p k ∈ s.world.log → n ≤ k →
    s.HasRow p k (fun _ => True) ∧ ∃ m, lastApplied p s.world.log = some m ∧ k ≤ m

variable {n : DeploymentId} {job : BuildJob}

theorem isSome_lastPublished_step (h : s.step cfg e = some s')
    (hid : (lastPublished id s.world.log).isSome) : (lastPublished id s'.world.log).isSome := by
  obtain ⟨t, ht, _, rfl⟩ := step_eq_some_iff.mp h
  obtain ⟨a, ha, hentries⟩ := entries_turn ht
  exact World.isSome_lastPublished_turn cfg _ hentries ha hid

theorem Past.step (hid : s.Past n id) (h : s.step cfg e = some s') : s'.Past n id :=
  hid.imp_left (mem_log_step h)

theorem Waits.not_popped (hjob : s.Waits job) (hs : s.Ticketed) :
    .popped job.deploymentId ∉ s.world.log := by
  rcases hjob with hqueue | ⟨c, hc, hheld⟩
  · exact not_popped_of_ticketed hs hqueue
  · intro hpopped
    have hcall : 0 < s.procs.calls.countP (Call.holds job.deploymentId) := by
      refine List.countP_pos_iff.mpr ⟨c, hc, ?_⟩
      rw [Call.holds, hheld]
      exact beq_self_eq_true _
    have hlog : 0 < s.world.log.count (.popped job.deploymentId) := List.count_pos_iff.mpr hpopped
    have hone := (hs job.deploymentId).1
    rw [tickets, World.taken] at hone
    omega

theorem row_step (hs : s.Pushing) (ht : s.Tabled) (h : s.step cfg e = some s') {d : Deployment}
    (hd : d ∈ s.world.db.deployments) :
    ∃ d' ∈ s'.world.db.deployments, d'.id = d.id ∧ d'.projectId = d.projectId ∧
      (d' = d ∨ ∃ t x, s.turn cfg e = some t ∧ t.command = .writeStatus d.id x) := by
  have hrow : s'.world.hasRow d.id = true := by
    obtain ⟨t, hturn, _, rfl⟩ := step_eq_some_iff.mp h
    refine World.hasRow_exec ?_ (shuffles_turn hturn) (World.hasRow_iff.mpr ⟨d, hd, rfl⟩)
    rcases command_turn hturn with ⟨i, r, c, rfl, hi, hc⟩ | ⟨r, rfl, hc⟩ | hb
    · rw [hc]
      refine keeps_call ?_ r
      rintro x rfl
      cases hs _ (List.mem_of_getElem? hi)
    · rw [hc]
      exact keeps_of_background (background_worker cfg s.world r s.procs.worker).command
    · exact keeps_of_bystander hb
  obtain ⟨d', hd', hid⟩ := World.hasRow_iff.mp hrow
  obtain ⟨d₀, hd₀, hid₀, hwritten⟩ := (ht.settled hd).rows_step h hd' hid
  cases ht.eq_of_id hd hd₀ hid₀
  refine ⟨d', hd', hid, ?_⟩
  rcases hwritten with rfl | ⟨t, x, hturn, hc, rfl⟩
  · exact ⟨rfl, Or.inl rfl⟩
  · exact ⟨StatusWrite.apply_projectId _ _ _, Or.inr ⟨t, x, hturn, hc⟩⟩

theorem row_before (h : s.step cfg e = some s') {d' : Deployment}
    (hd' : d' ∈ s'.world.db.deployments) :
    (∃ d ∈ s.world.db.deployments, d.id = d'.id ∧ d.projectId = d'.projectId) ∨
      ∃ t, s.turn cfg e = some t ∧ d' ∈ t.command.inserted := by
  obtain ⟨t, ht, _, rfl⟩ := step_eq_some_iff.mp h
  rcases World.mem_deployments_exec (shuffles_turn ht) hd' with hnew | ⟨d, hd, hid, hwritten⟩
  · exact Or.inr ⟨t, ht, hnew⟩
  · refine Or.inl ⟨d, hd, hid.symm, ?_⟩
    rcases hwritten with rfl | ⟨x, _, rfl⟩
    · rfl
    · exact (StatusWrite.apply_projectId _ _ _).symm

/-- While only pushes are under way, the rows that are inserted are new, and those of a push that
has no deployment of the project left to cancel. -/
theorem inserted_pushing (hs : s.Pushing) {t : Turn Processes} (ht : s.turn cfg e = some t)
    {d : Deployment} (hd : d ∈ t.command.inserted) :
    d.id = s.world.db.nextId ∧ ∃ y, .push y ∈ s.procs.calls ∧ (d.projectId, none) ∈ y.targets := by
  rcases command_turn ht with ⟨i, r, c, rfl, hi, hc⟩ | ⟨r, rfl, hc⟩ | hb
  · have hmem := List.mem_of_getElem? hi
    have hpushes := hs c hmem
    rw [hc] at hd
    have hproject : ∀ x, c ≠ .createProject x := by
      rintro x rfl
      cases hpushes
    have hid : d.id = s.world.db.nextId := by
      rcases inserted_step cfg s.world hproject r with hnone | ⟨d', hone, hid, _⟩
      · rw [hnone] at hd
        cases hd
      · rw [hone] at hd
        rw [List.mem_singleton.mp hd, hid]
    cases c with
    | push y =>
      rw [Call.step, Turn.command_map] at hd
      exact ⟨hid, y, hmem, WebhooksService.targets_insert hd⟩
    | late x =>
      rw [Call.step, inserted_issue (by cases x <;> rfl)] at hd
      cases hd
    | _ => cases hpushes
  · rw [hc, inserted_of_background (background_worker cfg s.world r s.procs.worker).command] at hd
    cases hd
  · rw [inserted_of_bystander hb] at hd
    cases hd

theorem HasRow.step (hrow : s.HasRow p id fun _ => True) (hs : s.Pushing) (ht : s.Tabled)
    (h : s.step cfg e = some s') : s'.HasRow p id fun _ => True := by
  obtain ⟨d, hd, hid, hproject, _⟩ := hrow
  obtain ⟨d', hd', hid', hproject', _⟩ := row_step hs ht h hd
  exact ⟨d', hd', hid'.trans hid, hproject'.trans hproject, trivial⟩

theorem nextId_step (h : s.step cfg e = some s') : s.world.db.nextId ≤ s'.world.db.nextId := by
  obtain ⟨t, _, _, rfl⟩ := step_eq_some_iff.mp h
  show _ ≤ (s.world.exec cfg t.command).db.nextId
  rw [World.nextId_exec]
  exact Nat.le_add_right _ _

theorem mem_inserted {t : Turn Processes} (ht : s.turn cfg e = some t) (h : s.step cfg e = some s')
    {d : Deployment} (hd : d ∈ t.command.inserted) : d ∈ s'.world.db.deployments := by
  obtain ⟨t', ht', _, rfl⟩ := step_eq_some_iff.mp h
  cases ht.symm.trans ht'
  show d ∈ (s.world.exec cfg t.command).db.deployments
  cases hc : t.command with
  | createDeployment | createRedeployment | commitDraft =>
    rw [hc] at hd
    exact List.mem_append_right _ hd
  | _ =>
    rw [hc] at hd
    cases hd

/-- A push that reads the projects finds the one deployment in progress whose job waits without its
signal. -/
theorem covers_candidate (hs : s.Latest n) (ho : s.Ordinary) (project : Project)
    (horder : InOrder s.world.db project.id) (hjob : job ∈ s.world.redis.buildQueue)
    (hproject : job.projectId = project.id) :
    (lastPublished job.deploymentId s.world.log).isSome ∨
      (WebhooksService.candidate s.world.db project).target =
        (project.id, some job.deploymentId) := by
  obtain ⟨_, d, hd, hid, hp, hstatus⟩ := hs.waiting job (Or.inl hjob)
  rw [← hid]
  rcases hstatus.symm with hsome | hqueued
  · exact Or.inl hsome
  by_cases hyounger : ∃ d' ∈ s.world.db.deployments, d'.projectId = project.id ∧ d.id < d'.id
  · obtain ⟨d', hd', hp', hlt⟩ := hyounger
    refine Or.inl ?_
    rw [hid] at hlt ⊢
    exact hs.queue job hjob d' hd' (hp'.trans hproject.symm) hlt
  · refine Or.inr (WebhooksService.target_candidate hd (hp.trans hproject) ?_ ?_)
    · rw [hqueued]
      rfl
    · intro d' hd' hp' hactive
      have hle : d'.id ≤ d.id := Nat.not_lt.mp fun hlt => hyounger ⟨d', hd', hp', hlt⟩
      rcases Nat.lt_or_eq_of_le hle with hlt | heq
      · have hof {d : Deployment} (hd : d ∈ s.world.db.deployments)
            (hp : d.projectId = project.id) : d ∈ s.world.db.deploymentsOf project.id :=
          List.mem_filter.mpr ⟨hd, beq_iff_eq.mpr hp⟩
        refine Or.inr (horder d' (hof hd' hp') d (hof hd (hp.trans hproject)) hactive ?_ hlt)
        rw [hqueued]
        rfl
      · exact Or.inl (ho.tabled.eq_of_id hd hd' heq)

section Latest

variable (hs : s.Latest n) (h : s.step cfg e = some s')
include hs h

theorem aims_latest (ho : s.Ordinary) (hid : s'.Aims id) : s'.Past n id := by
  rcases aims_step hs.pushing h hid with hold | ⟨job, hjob, rfl⟩
  · exact (hs.aims id hold).step h
  · exact Or.inl (mem_log_step h (ho.signalled.popped job hjob))

/-- The row of a job that waits stays queued until the job's signal is set. -/
theorem waits_latest (ho : s.Ordinary) (hjob : s.Waits job) : n ≤ job.deploymentId ∧
    s'.HasRow job.projectId job.deploymentId fun d =>
      d.status = .queued ∨ (lastPublished d.id s'.world.log).isSome := by
  obtain ⟨hn, d, hd, hid, hproject, hstatus⟩ := hs.waiting job hjob
  obtain ⟨d', hd', hid', hproject', hwritten⟩ := row_step hs.pushing ho.tabled h hd
  have hpopped : .popped d.id ∉ s.world.log := by
    rw [hid]
    exact hjob.not_popped ho.ticketed
  refine ⟨hn, d', hd', hid'.trans hid, hproject'.trans hproject, ?_⟩
  show d'.status = .queued ∨ (lastPublished d'.id s'.world.log).isSome
  rw [hid']
  rcases hwritten with rfl | ⟨t, x, ht, hc⟩
  · exact hstatus.imp_right (isSome_lastPublished_step h)
  · refine Or.inr (isSome_lastPublished_step h ?_)
    rcases (written_pushing hs.pushing ht).command d.id x hc with ⟨c, hc, hmarks, _⟩ |
      ⟨job', hjob', hid''⟩ | haims
    · exact ho.signalled.marking c hc d.id hmarks
    · exact absurd (hid'' ▸ ho.signalled.popped job' hjob') hpopped
    · rcases hs.aims d.id haims with hold | hlt
      · exact absurd hold hpopped
      · exact absurd hlt (Nat.not_lt.mpr (hid ▸ hn))

theorem waiting_latest (ho : s.Ordinary) (hpushing : s'.Pushing) (hjob : s'.Waits job) :
    n ≤ job.deploymentId ∧
    s'.HasRow job.projectId job.deploymentId fun d =>
      d.status = .queued ∨ (lastPublished d.id s'.world.log).isSome := by
  rcases hjob with hqueue | ⟨c', hc', hheld⟩
  · rcases queue_step h hqueue with hold | ⟨t, ht, hc⟩
    · exact waits_latest hs h ho (Or.inl hold)
    · exact waits_latest hs h ho (Or.inr (pushes_turn ht hc))
  · have hpushes := hpushing c' hc'
    cases c' with
    | push y =>
      rcases push_origin hs.pushing hs.sequential h hc' with ⟨_, rfl⟩ | ⟨hold, _⟩ |
        ⟨i, r, c, rfl, hi, hnext, hcommand⟩
      · cases hheld
      · exact waits_latest hs h ho (Or.inr ⟨_, hold, hheld⟩)
      · obtain ⟨d, hd, hid, hqueued, hjob, hproject⟩ := WebhooksService.held_insert hnext hheld
        obtain ⟨t, ht, _⟩ := step_eq_some_iff.mp h
        rw [← hcommand t ht] at hd
        refine ⟨?_, d, mem_inserted ht h hd, hjob.symm, hproject.symm, Or.inl hqueued⟩
        rw [hjob, hid]
        exact hs.since
    | late => cases hheld
    | _ => cases hpushes

/-- A job that a push is about to enqueue is younger than the project's other deployments. -/
theorem held_latest (ho : s.Ordinary) (hpushing : s'.Pushing) {c' : Call}
    (hc' : c' ∈ s'.procs.calls) (hheld : c'.held = some job) {d' : Deployment}
    (hd' : d' ∈ s'.world.db.deployments) (hproject : d'.projectId = job.projectId) :
    d'.id ≤ job.deploymentId := by
  have hpushes := hpushing c' hc'
  cases c' with
  | push y =>
    rcases push_origin hs.pushing hs.sequential h hc' with ⟨_, rfl⟩ | ⟨hold, hnone⟩ |
      ⟨i, r, c, rfl, hi, hnext, hcommand⟩
    · cases hheld
    · rcases row_before h hd' with ⟨d, hd, hid, hp⟩ | ⟨t, ht, hnew⟩
      · rw [← hid]
        exact hs.held _ hold job hheld d hd (hp.trans hproject)
      · rw [(hnone t ht).1] at hnew
        cases hnew
    · obtain ⟨_, _, hid, _, hjob, _⟩ := WebhooksService.held_insert hnext hheld
      rw [hjob, hid]
      rcases row_before h hd' with ⟨d, hd, hid', _⟩ | ⟨t, ht, hnew⟩
      · rw [← hid']
        exact Nat.le_of_lt (ho.tabled.settled hd).1
      · exact Nat.le_of_eq (inserted_pushing hs.pushing ht hnew).1
  | late => cases hheld
  | _ => cases hpushes

/-- A job in the queue has its signal when a younger row is inserted. -/
theorem queue_latest (hjob : job ∈ s'.world.redis.buildQueue) {d' : Deployment}
    (hd' : d' ∈ s'.world.db.deployments) (hproject : d'.projectId = job.projectId)
    (hlt : job.deploymentId < d'.id) : (lastPublished job.deploymentId s'.world.log).isSome := by
  rcases queue_step h hjob with hold | ⟨t, ht, hc⟩
  · refine isSome_lastPublished_step h ?_
    rcases row_before h hd' with ⟨d, hd, hid, hp⟩ | ⟨t, ht, hnew⟩
    · exact hs.queue job hold d hd (hp.trans hproject) (hid ▸ hlt)
    · obtain ⟨_, y, hy, htarget⟩ := inserted_pushing hs.pushing ht hnew
      exact (hs.covers y hy _ htarget job hold hproject.symm).resolve_right nofun
  · obtain ⟨c, hmem, hheld⟩ := pushes_turn ht hc
    rcases row_before h hd' with ⟨d, hd, hid, hp⟩ | ⟨t', ht', hnew⟩
    · have hle := hs.held c hmem job hheld d hd (hp.trans hproject)
      exact absurd hle (Nat.not_le.mpr (hid ▸ hlt))
    · cases ht.symm.trans ht'
      rw [hc] at hnew
      cases hnew

theorem projects_latest (hl : s.Listed) {y : WebhooksService.Push}
    (hy : .push y ∈ s'.procs.calls) : (y.targets.map Prod.fst).Nodup := by
  rcases push_origin hs.pushing hs.sequential h hy with ⟨_, rfl⟩ | ⟨hold, _⟩ |
    ⟨i, r, c, rfl, hi, hnext, _⟩
  · exact List.nodup_nil
  · exact hs.projects y hold
  · have hc := hs.projects c (List.mem_of_getElem? hi)
    rcases WebhooksService.targets_step hnext with ⟨payload, _, hsuffix⟩ |
      ⟨p, id, rest, htargets, hy', _⟩ | hsuffix
    · exact ((hsuffix.sublist.map _).trans WebhooksService.projects_candidates).nodup hl.nodup
    · rw [hy']
      rw [htargets] at hc
      exact hc
    · exact (hsuffix.sublist.map _).nodup hc

/-- A push sets the signal of each job in the queue before it inserts the row of its own. -/
theorem covers_latest (ho : s.Ordinary) (he : Heeding s e) {y : WebhooksService.Push}
    (hy : .push y ∈ s'.procs.calls) {x : ProjectId × Option DeploymentId} (hx : x ∈ y.targets)
    (hjob : job ∈ s'.world.redis.buildQueue) (hproject : job.projectId = x.1) :
    (lastPublished job.deploymentId s'.world.log).isSome ∨ x.2 = some job.deploymentId := by
  rcases push_origin hs.pushing hs.sequential h hy with ⟨_, rfl⟩ | ⟨hold, hnone⟩ |
    ⟨i, r, c, rfl, hi, hnext, hcommand⟩
  · cases hx
  · rcases queue_step h hjob with hqueue | ⟨t, ht, hc⟩
    · exact (hs.covers y hold x hx job hqueue hproject).imp_left (isSome_lastPublished_step h)
    · exact absurd hc ((hnone t ht).2 job)
  · have hmem := List.mem_of_getElem? hi
    rcases queue_step h hjob with hqueue | ⟨t, ht, hc⟩
    · rcases WebhooksService.targets_step hnext with ⟨payload, rfl, hsuffix⟩ |
        ⟨p, id, rest, htargets, hy', hc⟩ | hsuffix
      · obtain ⟨candidate, hcandidate, rfl⟩ := List.mem_map.mp (hsuffix.subset hx)
        have horder := by
          simp only [Heeding, hi] at he
          exact he candidate hcandidate
        obtain ⟨project, _, _, _, _, rfl⟩ := WebhooksService.mem_candidates.mp hcandidate
        rcases covers_candidate hs ho project horder hqueue hproject with hsome | htarget
        · exact Or.inl (isSome_lastPublished_step h hsome)
        · rw [htarget]
          exact Or.inr rfl
      · have hcovers := hs.covers c hmem
        rw [htargets] at hcovers
        rw [hy'] at hx
        rcases List.mem_cons.mp hx with rfl | hx
        · refine Or.inl ?_
          rcases hcovers _ List.mem_cons_self job hqueue hproject with hsome | heq
          · exact isSome_lastPublished_step h hsome
          · cases heq
            obtain ⟨t, ht, _, rfl⟩ := step_eq_some_iff.mp h
            obtain ⟨a, ha, hentries⟩ := entries_turn ht
            rw [after, hcommand t ht, hc, World.lastPublished_publish cfg hentries ha]
            rfl
        · exact (hcovers x (List.mem_cons_of_mem _ hx) job hqueue hproject).imp_left
            (isSome_lastPublished_step h)
      · exact (hs.covers c hmem x (hsuffix.subset hx) job hqueue hproject).imp_left
          (isSome_lastPublished_step h)
    · rw [hcommand t ht] at hc
      have hheld : (Call.push c).held = some job := by
        have hholds := holds_step cfg s.world (.push c) r
        rw [Call.step, Turn.command_map, hc] at hholds
        generalize (Call.push c).held = held at hholds ⊢
        generalize ((c.step cfg s.world r).map (Flow.toCall .push)).next.bind Call.held = next
          at hholds
        cases hholds with
        | none hpush => exact absurd rfl (hpush job)
        | insert hinsert => rcases hinsert with hinsert | hinsert <;> cases hinsert
        | push => rfl
      obtain ⟨rest, htargets, hsuffix⟩ := WebhooksService.targets_held cfg s.world r hheld
      have hnodup := hs.projects c hmem
      rw [htargets, List.map_cons, List.nodup_cons] at hnodup
      rw [hproject] at hnodup
      exact absurd (List.mem_map_of_mem ((hsuffix y hnext).subset hx)) hnodup.1

theorem building_latest (ho : s.Ordinary) (hjob : s'.procs.worker.job = some job) :
    n ≤ job.deploymentId ∧ s'.HasRow job.projectId job.deploymentId fun _ => True := by
  rcases job_step h hjob with hold | ⟨t, queues, _, _, hwait⟩
  · exact (hs.building job hold).imp_right fun hrow => hrow.step hs.pushing ho.tabled h
  · obtain ⟨hn, d, hd, hid, hp, _⟩ := hs.waiting job (Or.inl (mem_of_waitForJob hwait))
    exact ⟨hn, HasRow.step ⟨d, hd, hid, hp, trivial⟩ hs.pushing ho.tabled h⟩

theorem overtaken_latest (ho : s.Ordinary) (he : Heeding s e) {b : Build} {pc : Pc}
    (hworker : s'.procs.worker = .processing b pc) {k : DeploymentId}
    (hk : .applied b.job.projectId k ∈ s'.world.log) (hlt : b.job.deploymentId < k) :
    (lastPublished b.job.deploymentId s'.world.log).isSome ∧ pc.BeforeDeploy := by
  have hold (hworker : s.procs.worker = .processing b pc)
      (hk : .applied b.job.projectId k ∈ s.world.log) :
      (lastPublished b.job.deploymentId s'.world.log).isSome ∧ pc.BeforeDeploy :=
    (hs.overtaken b pc hworker k hk hlt).imp_left (isSome_lastPublished_step h)
  rcases step_cases h with ⟨i, r, before, c, later, rfl, _, hs'⟩ | ⟨r, rfl, _⟩ |
    ⟨command, new, hb⟩
  · rcases lastApplied_step b.job.projectId h with ⟨_, hlog⟩ | ⟨_, _, hevent, _⟩
    · rw [hs'] at hworker
      exact hold hworker (hlog k hk)
    · cases hevent
  · rcases processing_step h hworker with ⟨b₀, pc₀, hworker₀, hjob, hnext⟩ |
      ⟨job, hqueue, hidle, rfl, rfl⟩
    · have hk₀ : .applied b.job.projectId k ∈ s.world.log := by
        rcases lastApplied_step b.job.projectId h with ⟨_, hlog⟩ | ⟨_, b₁, _, hworker₁, _, _, hlog⟩
        · exact hlog k hk
        · rcases hlog k hk with hmem | rfl
          · exact hmem
          · cases hworker₀.symm.trans hworker₁
            rw [hjob] at hlt
            exact absurd hlt (Nat.lt_irrefl _)
      rw [hjob] at hk₀ hlt ⊢
      obtain ⟨hsome, hbefore⟩ := hs.overtaken b₀ pc₀ hworker₀ k hk₀ hlt
      refine ⟨isSome_lastPublished_step h hsome, ?_⟩
      rcases Pc.beforeDeploy_of_following hbefore
        (BuildWorker.follows_process cfg s.world r b₀ pc₀ b pc hnext) with rfl | hbefore
      · simp only [Heeding, hworker₀] at he
        obtain ⟨hok, htime⟩ := he ⟨_, hk₀, by simpa [Entry.overtakes] using hlt⟩
        have hkey := ho.signalled.key b₀.job.deploymentId fun _ => by
          rw [hworker₀]
          exact rfl
        cases (BuildWorker.next_check_of_live hkey hsome hok htime).symm.trans hnext
      · exact hbefore
    · -- the row that overtook the job had its signal set
      obtain ⟨hn, _⟩ := hs.waiting job (Or.inl hqueue)
      have hk₀ : .applied job.projectId k ∈ s.world.log := by
        rcases lastApplied_step job.projectId h with ⟨_, hlog⟩ | ⟨_, b₁, _, hworker₁, _⟩
        · exact hlog k hk
        · cases hidle.symm.trans hworker₁
      obtain ⟨⟨d, hd, rfl, hp, _⟩, _⟩ :=
        hs.applied job.projectId k hk₀ (Nat.le_trans hn (Nat.le_of_lt hlt))
      exact ⟨isSome_lastPublished_step h (hs.queue job hqueue d hd hp hlt), by decide⟩
  · rw [hb.world, World.log_bystander cfg _ hb.bystander] at hk
    rcases hb.worker with hw | hw
    · exact hold (hw ▸ hworker) hk
    · rw [hw] at hworker
      cases hworker

/-- What was applied last is of the youngest deployment that was applied. -/
theorem applied_latest (ho : s.Ordinary) {k : DeploymentId} (hk : .applied p k ∈ s'.world.log)
    (hn : n ≤ k) :
    s'.HasRow p k (fun _ => True) ∧ ∃ m, lastApplied p s'.world.log = some m ∧ k ≤ m := by
  have hold (hk : .applied p k ∈ s.world.log) : s'.HasRow p k fun _ => True :=
    (hs.applied p k hk hn).1.step hs.pushing ho.tabled h
  rcases lastApplied_step p h with ⟨hlast, hlog⟩ | ⟨r, b, _, hworker, rfl, hlast, hlog⟩
  · rw [hlast]
    exact ⟨hold (hlog k hk), (hs.applied p k (hlog k hk) hn).2⟩
  · rcases hlog k hk with hk | rfl
    · refine ⟨hold hk, _, hlast, Nat.not_lt.mp fun hlt => ?_⟩
      exact absurd (hs.overtaken b _ hworker k hk hlt).2 (by decide)
    · refine ⟨?_, _, hlast, Nat.le_refl _⟩
      exact (hs.building b.job (by rw [hworker]; rfl)).2.step hs.pushing ho.tabled h

end Latest

theorem latest_step (hs : s.Latest n) (ho : s.Ordinary) (hone : OneByOne s e) (he : Heeding s e)
    (h : s.step cfg e = some s') : s'.Latest n :=
  have hpushing : s'.Pushing := pushing_step hs.pushing hone h
  { since := Nat.le_trans hs.since (nextId_step h)
    pushing := hpushing
    sequential := sequential_step hs.sequential hone h
    aims := fun _ hid => aims_latest hs h ho hid
    waiting := fun _ hjob => waiting_latest hs h ho hpushing hjob
    held := fun _ hc _ hheld _ hd hp => held_latest hs h ho hpushing hc hheld hd hp
    queue := fun _ hjob _ hd hp hlt => queue_latest hs h hjob hd hp hlt
    projects := fun _ hy => projects_latest hs h ho.listed hy
    covers := fun _ hy _ hx _ hjob hp => covers_latest hs h ho he hy hx hjob hp
    building := fun _ hjob => building_latest hs h ho hjob
    overtaken := fun _ _ hworker _ hk hlt => overtaken_latest hs h ho he hworker hk hlt
    applied := fun _ _ hk hn => applied_latest hs h ho hk hn }

/-- Where a run of pushes may begin.  No request is under way and the worker is idle; the jobs that
wait are of their projects' youngest deployments, and `n` parts these from the deployments that were
built. -/
structure Opening (n : DeploymentId) (s : State) : Prop where
  since : n ≤ s.world.db.nextId
  calls : s.procs.calls = []
  worker : s.procs.worker = .idle
  queue : ∀ job ∈ s.world.redis.buildQueue, n ≤ job.deploymentId ∧
    (∀ id ∈ job.previousDeploymentId, id < n) ∧
    (∀ d ∈ s.world.db.deployments, d.projectId = job.projectId → d.id ≤ job.deploymentId) ∧
    s.HasRow job.projectId job.deploymentId fun d => d.status = .queued
  ready : ∀ d ∈ s.world.db.deployments, d.status = .ready → d.id < n
  sweep : ∀ d ∈ s.procs.sweep.found, d.id < n
  applied : ∀ x ∈ s.world.log, x.olderThan n = true

instance (p : ProjectId) (id : DeploymentId) (P : Deployment → Prop) [DecidablePred P] :
    Decidable (s.HasRow p id P) :=
  inferInstanceAs (Decidable (∃ d ∈ _, _))

instance (job : BuildJob) : Decidable (∀ id ∈ job.previousDeploymentId, id < n) :=
  Option.decidableForallMem _

instance : Decidable (s.Opening n) :=
  decidable_of_iff
    (n ≤ s.world.db.nextId ∧ s.procs.calls.isEmpty = true ∧ s.procs.worker = .idle ∧
      (∀ job ∈ s.world.redis.buildQueue, n ≤ job.deploymentId ∧
        (∀ id ∈ job.previousDeploymentId, id < n) ∧
        (∀ d ∈ s.world.db.deployments, d.projectId = job.projectId → d.id ≤ job.deploymentId) ∧
        s.HasRow job.projectId job.deploymentId fun d => d.status = .queued) ∧
      (∀ d ∈ s.world.db.deployments, d.status = .ready → d.id < n) ∧
      (∀ d ∈ s.procs.sweep.found, d.id < n) ∧ ∀ x ∈ s.world.log, x.olderThan n = true)
    ⟨fun ⟨h₁, h₂, h₃, h₄, h₅, h₆, h₇⟩ => ⟨h₁, List.isEmpty_iff.mp h₂, h₃, h₄, h₅, h₆, h₇⟩,
      fun h => ⟨h.1, List.isEmpty_iff.mpr h.2, h.3, h.4, h.5, h.6, h.7⟩⟩

theorem latest_start (hs : s.Opening n) : s.Latest n where
  since := hs.since
  pushing c hc := by
    rw [hs.calls] at hc
    cases hc
  sequential := by
    rw [Sequential, hs.calls]
    exact Nat.zero_le 1
  aims id hid := by
    refine Or.inr ?_
    cases hid with
    | ready hready =>
      obtain ⟨d, hd, rfl, hstatus⟩ := World.isReady_iff.mp hready
      exact hs.ready d hd hstatus
    | queue hjob hprevious => exact (hs.queue _ hjob).2.1 id hprevious
    | worker hjob =>
      rw [hs.worker] at hjob
      cases hjob
    | call hc | late hc =>
      rw [hs.calls] at hc
      cases hc
    | sweep hd hid => exact hid ▸ hs.sweep _ hd
  waiting job hjob := by
    rcases hjob with hqueue | ⟨c, hc, _⟩
    · obtain ⟨hn, _, _, d, hd, hid, hp, hstatus⟩ := hs.queue job hqueue
      exact ⟨hn, d, hd, hid, hp, Or.inl hstatus⟩
    · rw [hs.calls] at hc
      cases hc
  held c hc := by
    rw [hs.calls] at hc
    cases hc
  queue job hjob d hd hp hlt := by
    have hle := (hs.queue job hjob).2.2.1 d hd hp
    exact absurd hlt (Nat.not_lt.mpr hle)
  projects y hy := by
    rw [hs.calls] at hy
    cases hy
  covers y hy := by
    rw [hs.calls] at hy
    cases hy
  building job hjob := by
    rw [hs.worker] at hjob
    cases hjob
  overtaken b pc hworker := by
    rw [hs.worker] at hworker
    cases hworker
  applied p k hk hn := absurd (of_decide_eq_true (hs.applied _ hk)) (Nat.not_lt.mpr hn)

theorem latest_of_reaches (ho : s.Ordinary) (hs : s.Latest n)
    (h : Reaches (State.step cfg) (fun s e => OneByOne s e ∧ Heeding s e) s s') :
    s'.Ordinary ∧ s'.Latest n :=
  h.invariant (fun s => s.Ordinary ∧ s.Latest n) ⟨ho, hs⟩ fun _ _ _ hinv hok hstep =>
    ⟨ordinary_step hinv.1 hstep, latest_step hinv.2 hinv.1 hok.1 hok.2 hstep⟩

end State

/-- Once the youngest deployment of a project was built, the Deployment object of the project is not
written for an older one. -/
theorem latest_push_wins {n : DeploymentId}
    (hreach : Reaches (State.step cfg) (fun _ _ => True) State.initial s) (hopen : s.Opening n)
    (h : Reaches (State.step cfg) (fun s e => OneByOne s e ∧ Heeding s e) s s') {d : Deployment}
    (hd : d ∈ s'.world.db.deployments) (hn : n ≤ d.id)
    (hnewest : ∀ d' ∈ s'.world.db.deployments, d'.projectId = d.projectId → d'.id ≤ d.id)
    (hdone : .finished d.id .completed ∈ s'.world.log) :
    lastApplied d.projectId s'.world.log = some d.id := by
  have hordinary : s.Ordinary := hreach.invariant State.Ordinary State.ordinary_initial
    fun _ _ _ hs _ hstep => State.ordinary_step hs hstep
  obtain ⟨ho, hs⟩ := State.latest_of_reaches hordinary (State.latest_start hopen) h
  obtain ⟨p, hp⟩ := ho.rolled.finished d.id hdone
  obtain ⟨⟨d', hd', hid, hproject, _⟩, m, hlast, hle⟩ := hs.applied p d.id hp hn
  cases ho.tabled.eq_of_id hd hd' hid
  obtain ⟨⟨d₁, hd₁, rfl, hproject₁, _⟩, _⟩ :=
    hs.applied p m (mem_of_lastApplied hlast) (Nat.le_trans hn hle)
  have hge := hnewest d₁ hd₁ (hproject₁.trans hproject.symm)
  rw [hproject, hlast, Nat.le_antisymm hge hle]

theorem latest_push_wins_shop :
    ∃ s s' d, Reaches (State.step Config.clear) (fun _ _ => True) State.initial s ∧
      Reaches (State.step Config.clear) (fun s e => OneByOne s e ∧ Heeding s e) s s' ∧
      d ∈ s'.world.db.deployments ∧ d.id = 4 ∧ s'.world.redis.buildQueue = [] ∧
      s'.procs.worker = .idle ∧ .finished 2 .cancelled ∈ s'.world.log ∧
      lastApplied d.projectId s'.world.log = some d.id := by
  obtain ⟨s, hs, hend⟩ := Reaches.exists_of_runEvents (State.step Config.clear)
    (fun _ _ => True) State.initial shopCreated
    (fun s => decide (s.Opening 2) &&
      decide (RunsUnder (State.step Config.clear) (fun s e => OneByOne s e ∧ Heeding s e) s
        (.tick 1 :: shopRequest (.push WebhooksService.shopPush) 6 ++ shopWorker 37)) &&
      (runEvents (State.step Config.clear) s
          (.tick 1 :: shopRequest (.push WebhooksService.shopPush) 6 ++ shopWorker 37)).any
        fun s' : State => s'.world.redis.buildQueue.isEmpty && decide (s'.procs.worker = .idle) &&
          s'.world.log.contains (.finished 2 .cancelled) &&
          s'.world.log.contains (.finished 4 .completed) &&
          s'.world.db.deployments.any fun d => d.id == 4 &&
            s'.world.db.deployments.all fun d' => decide (d'.id ≤ 4))
    (by decide) (runsUnder_true _ _ _)
  simp only [Bool.and_eq_true, decide_eq_true_eq] at hend
  obtain ⟨⟨hopen, hunder⟩, hend⟩ := hend
  rw [Option.any_eq_true] at hend
  obtain ⟨s', hrun, hend⟩ := hend
  simp only [Bool.and_eq_true, decide_eq_true_eq, List.isEmpty_iff, List.contains_iff_mem] at hend
  obtain ⟨⟨⟨⟨hqueue, hidle⟩, hcancelled⟩, hdone⟩, hrow⟩ := hend
  obtain ⟨d, hd, hnewest⟩ := List.any_eq_true.mp hrow
  rw [Bool.and_eq_true, beq_iff_eq, List.all_eq_true] at hnewest
  obtain ⟨hid, hnewest⟩ := hnewest
  have hs' := Reaches.of_runEvents hrun hunder
  refine ⟨s, s', d, hs, hs', hd, hid, hqueue, hidle, hcancelled, ?_⟩
  refine latest_push_wins hs hopen hs' hd (by rw [hid]; decide) (fun d' hd' _ => ?_) (hid ▸ hdone)
  rw [hid]
  exact of_decide_eq_true (hnewest d' hd')

/-- The signal of the older build ends before the build is taken up: it is built after the younger
one and replaces it. -/
theorem not_latest_push_wins :
    ¬∀ (cfg : Config) (n : DeploymentId) (s s' : State),
      Reaches (State.step cfg) (fun _ _ => True) State.initial s → s.Opening n →
        Reaches (State.step cfg) (fun s e => OneByOne s e ∧ e.succeeds = true) s s' →
          s'.world.redis.buildQueue = [] → s'.procs.worker = .idle →
            ∀ d ∈ s'.world.db.deployments, n ≤ d.id →
              (∀ d' ∈ s'.world.db.deployments, d'.projectId = d.projectId → d'.id ≤ d.id) →
                .finished d.id .completed ∈ s'.world.log →
                  lastApplied d.projectId s'.world.log = some d.id := by
  intro h
  obtain ⟨s, hs, hend⟩ := Reaches.exists_of_runEvents (State.step Config.clear)
    (fun _ _ => True) State.initial shopCreated
    (fun s => decide (s.Opening 2) &&
      decide (RunsUnder (State.step Config.clear) (fun s e => OneByOne s e ∧ e.succeeds = true) s
        (.tick 1 :: shopRequest (.push WebhooksService.shopPush) 6 ++ .tick 300001 ::
          shopWorker 46)) &&
      (runEvents (State.step Config.clear) s
          (.tick 1 :: shopRequest (.push WebhooksService.shopPush) 6 ++ .tick 300001 ::
            shopWorker 46)).any
        fun s' : State => s'.world.redis.buildQueue.isEmpty && decide (s'.procs.worker = .idle) &&
          s'.world.log.contains (.finished 4 .completed) &&
          s'.world.db.deployments.any fun d => d.id == 4 &&
            (s'.world.db.deployments.all fun d' => decide (d'.id ≤ 4)) &&
            lastApplied d.projectId s'.world.log == some 2)
    (by decide) (runsUnder_true _ _ _)
  simp only [Bool.and_eq_true, decide_eq_true_eq] at hend
  obtain ⟨⟨hopen, hunder⟩, hend⟩ := hend
  rw [Option.any_eq_true] at hend
  obtain ⟨s', hrun, hend⟩ := hend
  simp only [Bool.and_eq_true, decide_eq_true_eq, List.isEmpty_iff, List.contains_iff_mem] at hend
  obtain ⟨⟨⟨hqueue, hidle⟩, hdone⟩, hrow⟩ := hend
  obtain ⟨d, hd, hrow⟩ := List.any_eq_true.mp hrow
  simp only [Bool.and_eq_true, beq_iff_eq, List.all_eq_true, decide_eq_true_eq] at hrow
  obtain ⟨⟨hid, hnewest⟩, hlast⟩ := hrow
  have hwins := h Config.clear 2 s s' hs hopen (Reaches.of_runEvents hrun hunder) hqueue hidle d hd
    (by rw [hid]; decide) (fun d' hd' _ => by rw [hid]; exact hnewest d' hd') (hid ▸ hdone)
  rw [hlast, hid] at hwins
  cases hwins

end System
end Code2Cloud
