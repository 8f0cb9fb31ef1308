import Code2Cloud.System.Lifecycle
import Code2Cloud.System.Objects

/-!
# What carries a deployment

A deployment in progress moves only as long as its job is somewhere: in the queue, with the
worker, or with the call that inserted its row.
-/

namespace Code2Cloud
namespace System

open Api Worker

variable {cfg : Config} {w : World} {s s' : State} {e : Event} {id : DeploymentId}

/-- The job waits in the queue, the worker holds it, or a call that inserted its row is about to
push it. -/
def State.carried (s : State) (id : DeploymentId) : Bool :=
  s.world.redis.buildQueue.any (·.deploymentId == id) ||
    s.procs.worker.job.any (·.deploymentId == id) || s.procs.calls.any (Call.holds id)

def World.rests (w : World) (id : DeploymentId) : Bool :=
  w.db.deployments.all fun d => d.id != id || !d.status.inProgress

/-- The deployment whose job a step lets go of without pushing it: at the end of the worker's
turn or of its process, where a popped job is lost, and where a push fails. -/
def State.letsGo (cfg : Config) (s : State) : Event → Option DeploymentId
  | .restart => s.procs.worker.job.map (·.deploymentId)
  | .worker r =>
    match s.procs.worker with
    | .idle =>
      if r.outcome = .lost then s.world.redis.toQueues.waitForJob.map (·.1.deploymentId) else none
    | b =>
      if (b.step cfg s.world r).next.getD .idle = .idle then b.job.map (·.deploymentId) else none
  | .call i r =>
    if r.outcome = .fail ∨ r.outcome = .late then
      (s.procs.calls[i]?).bind fun c => c.held.map (·.deploymentId)
    else none
  | _ => none

/-- The step is that of a call which is told what became of its request. -/
def Event.answered : Event → Bool
  | .call _ r => r.outcome == .ok
  | _ => false

/-- A job is let go of only when its row is not in progress.  A status in progress is written
only while the job is carried on, a transaction is committed only while its job is carried, and
any other row is inserted only by a call that is told so. -/
def Carries (cfg : Config) (s : State) (e : Event) : Prop :=
  (∀ id ∈ s.letsGo cfg e, s.world.rests id = true) ∧
    ∀ t ∈ s.turn cfg e,
      (∀ x ∈ t.command.statusWrite, x.2.status.inProgress = true →
        s.carried x.1 = true ∧ s.letsGo cfg e ≠ some x.1) ∧
      ∀ d ∈ t.command.inserted,
        if s.procs.calls.any (Call.drafts d.id) then s.carried d.id = true
        else e.answered = true

instance (cfg : Config) (s : State) (e : Event) : Decidable (Carries cfg s e) :=
  have (t : Turn Processes) : Decidable
      ((∀ x ∈ t.command.statusWrite, x.2.status.inProgress = true →
        s.carried x.1 = true ∧ s.letsGo cfg e ≠ some x.1) ∧
      ∀ d ∈ t.command.inserted,
        if s.procs.calls.any (Call.drafts d.id) then s.carried d.id = true
        else e.answered = true) := inferInstance
  have : Decidable (∀ id ∈ s.letsGo cfg e, s.world.rests id = true) := Option.decidableForallMem _
  instDecidableAnd

/-! ## Who carries a job -/

theorem World.not_inProgress_of_rests (h : w.rests id = true) {d : Deployment}
    (hd : d ∈ w.db.deployments) (hid : d.id = id) : d.status.inProgress = false := by
  have hrests := List.all_eq_true.mp h d hd
  simpa [hid] using hrests

theorem command_of_held (cfg : Config) (w : World) {c : Call} {job : BuildJob}
    (h : c.held = some job) (r : Reply) :
    (c.step cfg w r).command = (issue w r.outcome (.addBuildJob job) () ()).command := by
  have hissue {σ : Type} (ok err : σ) : (issue w r.outcome (.addBuildJob job) ok err).command =
      (issue w r.outcome (.addBuildJob job) () ()).command := by
    unfold issue
    split
    · cases r.outcome <;> rfl
    · rfl
  cases c with
  | createDeployment c =>
    cases c with
    | enqueue job' =>
      cases h
      rw [Call.step, Turn.command_map]
      exact hissue _ _
    | _ => cases h
  | push c =>
    cases c with
    | enqueue opts job' rest =>
      cases h
      rw [Call.step, Turn.command_map]
      exact hissue _ _
    | _ => cases h
  | createProject c =>
    cases c with
    | enqueue draft job' =>
      cases h
      rw [Call.step, Turn.command_map]
      exact hissue _ _
    | _ => cases h
  | _ => cases h

/-- A call whose push is not known to have failed has pushed its job. -/
theorem pushes_of_held (cfg : Config) (w : World) {c : Call} {job : BuildJob}
    (h : c.held = some job) {r : Reply}
    (hfail : ¬(r.outcome = .fail ∨ r.outcome = .late)) :
    (c.step cfg w r).command = .addBuildJob job := by
  rw [command_of_held cfg w h]
  unfold issue
  cases ho : r.outcome with
  | ok | lost => rfl
  | fail => exact absurd (Or.inl ho) hfail
  | late => exact absurd (Or.inr ho) hfail

namespace State

theorem carried_iff : s.carried id = true ↔
    (∃ job ∈ s.world.redis.buildQueue, job.deploymentId = id) ∨
    (∃ job, s.procs.worker.job = some job ∧ job.deploymentId = id) ∨
    ∃ c ∈ s.procs.calls, c.holds id = true := by
  simp [carried, Option.any_eq_true, or_assoc]

/-- A job that is popped is with the worker, unless it is lost. -/
theorem popped_step {t : Turn Processes} (ht : s.turn cfg e = some t)
    (hpop : t.command = .popBuildJob) {job : BuildJob} {rest : List BuildJob}
    (hqueue : s.world.redis.buildQueue = rest ++ [job]) (h : s.step cfg e = some s') :
    s.letsGo cfg e = some job.deploymentId ∨ s'.procs.worker.job = some job := by
  rcases command_turn ht with ⟨i, r, c, rfl, hi, hcommand⟩ | ⟨r, rfl, hcommand⟩ | hb
  · have hforeground := (foreground_call cfg s.world r c).command
    rw [← hcommand, hpop] at hforeground
    cases hforeground
  · have hidle := BuildWorker.pops (hcommand.symm.trans hpop)
    have hwait : s.world.redis.toQueues.waitForJob =
        some (job, { s.world.redis.toQueues with buildQueue := rest }) := by
      rw [Queues.waitForJob, Deque.rpop_eq_some_iff.mpr hqueue]
      rfl
    rw [hpop, hidle, BuildWorker.step, hwait] at hcommand
    dsimp only at hcommand
    rw [step_worker h]
    simp only [Processes.setWorker_worker, hidle, BuildWorker.step, hwait]
    cases ho : r.outcome with
    | ok => exact Or.inr rfl
    | lost =>
      rw [letsGo, hidle]
      simp [ho, hwait]
    | fail | late =>
      rw [ho] at hcommand
      cases hcommand
  · rw [hpop] at hb
    cases hb

/-- A job that is carried stays so, unless the step lets go of it. -/
theorem carried_step (h : s.step cfg e = some s') (hid : s.carried id = true)
    (hkept : s.letsGo cfg e ≠ some id) : s'.carried id = true := by
  obtain ⟨t, ht, _, hs'⟩ := step_eq_some_iff.mp h
  rcases carried_iff.mp hid with ⟨job, hjob, rfl⟩ | ⟨job, hjob, rfl⟩ | ⟨c, hc, hholds⟩
  · have hredis : s'.world.redis = (s.world.exec cfg t.command).redis := by rw [hs']; rfl
    rcases s.world.buildQueue_exec cfg t.command with hq | ⟨job', _, hq⟩ | ⟨job', hpop, hq, _⟩
    · exact carried_iff.mpr (Or.inl ⟨job, by rw [hredis, hq]; exact hjob, rfl⟩)
    · refine carried_iff.mpr (Or.inl ⟨job, ?_, rfl⟩)
      rw [hredis, hq]
      exact List.mem_append_left _ hjob
    · rcases List.mem_append.mp (hq ▸ hjob) with hrest | hlast
      · exact carried_iff.mpr (Or.inl ⟨job, by rw [hredis]; exact hrest, rfl⟩)
      · rw [List.mem_singleton] at hlast
        subst hlast
        have hworker := (popped_step ht hpop hq h).resolve_left hkept
        exact carried_iff.mpr (Or.inr (Or.inl ⟨job, hworker, rfl⟩))
  · refine carried_iff.mpr (Or.inr (Or.inl ⟨job, ?_, rfl⟩))
    cases e with
    | worker r =>
      have hbusy : s.procs.worker ≠ .idle := by
        intro hidle
        rw [hidle] at hjob
        cases hjob
      have hgoes : (s.procs.worker.step cfg s.world r).next.getD .idle ≠ .idle := by
        intro hend
        refine hkept ?_
        rw [letsGo]
        cases hb : s.procs.worker with
        | idle => exact absurd hb hbusy
        | _ =>
          rw [hb] at hend hjob
          simp [hend, hjob]
      rw [step_worker h]
      simp only [Processes.setWorker_worker]
      rcases BuildWorker.next_step cfg s.world r s.procs.worker with hcont | ⟨_, hidle, _⟩
      · cases hn : (s.procs.worker.step cfg s.world r).next with
        | none => exact absurd (by rw [hn]; rfl) hgoes
        | some b =>
          rw [hn, Option.getD_some] at hgoes
          exact ((hcont b hn).resolve_left hgoes).1.trans hjob
      · exact absurd hidle hbusy
    | restart => exact absurd (by rw [letsGo, hjob]; rfl) hkept
    | _ => rw [worker_step h nofun nofun, hjob]
  · rcases step_cases h with ⟨i, r, _, _, _, rfl, _, _⟩ | ⟨r, rfl, hs'⟩ | ⟨command, new, hb⟩
    · obtain ⟨before, c₀, later, hcalls, rfl, _, hs''⟩ := step_call h
      have hmem : c ∈ before ∨ c = c₀ ∨ c ∈ later := by simpa [hcalls] using hc
      have hother (hk : c ∈ before ∨ c ∈ later) : s'.carried id = true := by
        refine carried_iff.mpr (Or.inr (Or.inr ⟨c, ?_, hholds⟩))
        rcases hk with hk | hk <;> simp [hs'', hk]
      rcases hmem with hk | rfl | hk
      · exact hother (Or.inl hk)
      · rw [Call.holds, Option.any_eq_true] at hholds
        obtain ⟨job, hheld, hjob⟩ := hholds
        rw [beq_iff_eq] at hjob
        have hget : s.procs.calls[before.length]? = some c := by simp [hcalls]
        have hfail : ¬(r.outcome = .fail ∨ r.outcome = .late) := by
          intro hfail
          refine hkept ?_
          rw [letsGo, if_pos hfail, hget, Option.bind_some, hheld, Option.map_some, hjob]
        have hpush := pushes_of_held cfg s.world hheld hfail
        refine carried_iff.mpr (Or.inl ⟨job, ?_, hjob⟩)
        rw [hs'', hpush]
        exact List.mem_append_right _ (List.mem_singleton_self job)
      · exact hother (Or.inr hk)
    · refine carried_iff.mpr (Or.inr (Or.inr ⟨c, ?_, hholds⟩))
      rw [hs']
      exact List.mem_append_left _ hc
    · refine carried_iff.mpr (Or.inr (Or.inr ⟨c, ?_, hholds⟩))
      rw [hb.calls]
      exact List.mem_append_left _ hc

/-- A call that inserts a row outside a transaction, and is told so, goes on with its job. -/
theorem carried_inserted {t : Turn Processes} (ht : s.turn cfg e = some t) {d : Deployment}
    (hd : d ∈ t.command.inserted) (hdraft : s.procs.calls.any (Call.drafts d.id) = false)
    (hanswered : e.answered = true) (h : s.step cfg e = some s') : s'.carried d.id = true := by
  cases e with
  | call i r =>
    obtain ⟨before, c, later, hcalls, rfl, _, rfl⟩ := step_call h
    rw [turn_call cfg hcalls r] at ht
    cases ht
    rw [Turn.command_map] at hd
    have hnext : (c.step cfg s.world r).next.any (Call.holds d.id) = true := by
      by_cases hc : ∀ x, c ≠ .createProject x
      · rcases inserted_step cfg s.world hc r with hnone | ⟨d', hsome, _, _, _, hholds⟩
        · rw [hnone] at hd
          cases hd
        · rw [hsome, List.mem_singleton] at hd
          subst hd
          exact hholds (eq_of_beq hanswered)
      · simp only [ne_eq, not_forall, not_not] at hc
        obtain ⟨c, rfl⟩ := hc
        have hmem : Call.createProject c ∈ s.procs.calls := by simp [hcalls]
        have hother : (Call.createProject c).drafts d.id = false := by
          simpa using List.any_eq_false.mp hdraft _ hmem
        obtain ⟨draft, hheld, rfl⟩ := inserted_createProject hd
        rw [Call.drafts, hheld] at hother
        exact absurd (beq_self_eq_true draft.deployment.id) (Bool.eq_false_iff.mp hother)
    obtain ⟨c', hc', hholds⟩ := Option.any_eq_true _ _ |>.mp hnext
    exact carried_iff.mpr (Or.inr (Or.inr ⟨c', by simp [hc'], hholds⟩))
  | _ => cases hanswered

def Carried (s : State) : Prop :=
  ∀ d ∈ s.world.db.deployments, d.status.inProgress = true → s.carried d.id = true

theorem carried_of_step (hs : s.Carried) (hok : Carries cfg s e) (h : s.step cfg e = some s') :
    s'.Carried := by
  intro d' hd' hprogress
  obtain ⟨t, ht, _, hs'⟩ := step_eq_some_iff.mp h
  obtain ⟨hlets, hwrites⟩ := hok
  obtain ⟨hstatus, hinserts⟩ := hwrites t ht
  have hmem : d' ∈ (s.world.exec cfg t.command).db.deployments := by
    rw [hs'] at hd'
    exact hd'
  rcases World.mem_deployments_exec (shuffles_turn ht) hmem with hinserted | ⟨d, hd, hid, hrow⟩
  · have hallowed := hinserts d' hinserted
    split at hallowed
    · rename_i hdraft
      -- the call that commits holds no job any more
      refine carried_step h hallowed ?_
      rcases command_turn ht with ⟨i, r, c, rfl, hi, hcommand⟩ | ⟨r, rfl, hcommand⟩ | hb
      · have hheld : c.held = none := by
          by_contra hsome
          obtain ⟨job, hjob⟩ := Option.ne_none_iff_exists'.mp hsome
          rw [hcommand, command_of_held cfg s.world hjob, inserted_issue rfl] at hinserted
          cases hinserted
        rw [letsGo, hi, Option.bind_some, hheld]
        split <;> exact nofun
      · have hnone :=
          inserted_of_background (background_worker cfg s.world r s.procs.worker).command
        rw [← hcommand] at hnone
        rw [hnone] at hinserted
        cases hinserted
      · rw [inserted_of_bystander hb] at hinserted
        cases hinserted
    · rename_i hdraft
      exact carried_inserted ht hinserted (Bool.eq_false_of_not_eq_true hdraft) hallowed h
  · rcases hrow with rfl | ⟨x, hc, rfl⟩
    · refine carried_step h (hs d' hd hprogress) fun hgone => ?_
      have hrests := World.not_inProgress_of_rests (hlets d'.id hgone) hd rfl
      rw [hprogress] at hrests
      cases hrests
    · rw [StatusWrite.apply_status] at hprogress
      obtain ⟨hcarried, hkept⟩ := hstatus (d.id, x) (by rw [hc]; rfl) hprogress
      rw [hid]
      exact carried_step h hcarried hkept

end State

/-- In every run each deployment in progress has its job in the queue, with the worker, or with a
call that is about to push it, if every step that lets a job go finds its row at rest and every
row in progress is written and inserted for a job that is carried on. -/
theorem in_progress_is_carried (h : Reaches (State.step cfg) (Carries cfg) State.initial s) :
    ∀ d ∈ s.world.db.deployments, d.status.inProgress = true → s.carried d.id = true :=
  h.invariant State.Carried (fun _ hd => absurd hd List.not_mem_nil)
    fun _ _ _ hs hok hstep => State.carried_of_step hs hok hstep

/-- A build that fails, a redeploy and its build up to the clone. -/
theorem in_progress_is_carried_shop :
    ∃ s d, Reaches (State.step Config.clear) (Carries Config.clear) State.initial s ∧
      d ∈ s.world.db.deployments ∧ d.status.inProgress = true ∧ s.carried d.id = true := by
  obtain ⟨s, hs, hend⟩ := Reaches.exists_of_runEvents (State.step Config.clear)
    (Carries Config.clear) State.initial
    (shopCreated ++ shopWorker 8 ++ [.worker { outcome := .fail }] ++ shopWorker 2 ++
      shopRequest (.createDeployment 1 1) 6 ++ shopWorker 9)
    (fun s => s.world.db.deployments.any fun d => d.status.inProgress)
    (by decide) (by decide)
  obtain ⟨d, hd, hprogress⟩ := List.any_eq_true.mp hend
  exact ⟨s, d, hs, hd, hprogress, in_progress_is_carried hs d hd hprogress⟩

/-- Redis fails when the job of a redeploy is pushed. -/
theorem not_in_progress_is_carried :
    ¬∀ (cfg : Config) (s : State),
      Reaches (State.step cfg) (fun _ _ => True) State.initial s →
        ∀ d ∈ s.world.db.deployments, d.status.inProgress = true → s.carried d.id = true := by
  intro h
  obtain ⟨s, hs, hend⟩ := Reaches.exists_of_runEvents (State.step Config.clear)
    (fun _ _ => True) State.initial
    (shopCreated ++ shopWorker 23 ++ shopRequest (.createDeployment 1 1) 5 ++
      [.call 0 { outcome := .fail }])
    (fun s => s.world.db.deployments.any fun d => d.status.inProgress && !s.carried d.id)
    (by decide) (runsUnder_true _ _ _)
  obtain ⟨d, hd, hprogress⟩ := List.any_eq_true.mp hend
  rw [Bool.and_eq_true, Bool.not_eq_true'] at hprogress
  have hcarried := h Config.clear s hs d hd hprogress.1
  rw [hprogress.2] at hcarried
  cases hcarried

end System
end Code2Cloud
