import Code2Cloud.System.Backed
import Code2Cloud.System.Lifecycle
import Code2Cloud.System.Pushes

/-!
# Pushes one at a time

Runs in which pushes are handled one after the other and nothing else is asked of the API: what is
under way, and who writes the status of which deployment.
-/

namespace Code2Cloud
namespace System

open Api Worker

variable {cfg : Config} {w : World} {s s' : State} {e : Event} {p : ProjectId}
  {id : DeploymentId}

def Call.isLate : Call → Bool
  | .late _ => true
  | _ => false

/-- Only pushes arrive, and each when the one before it has been handled. -/
def OneByOne (s : State) : Event → Prop
  | .request (.push _) => s.procs.calls.all Call.isLate = true
  | .request _ => False
  | _ => True

instance (s : State) (e : Event) : Decidable (OneByOne s e) := by
  unfold OneByOne
  split <;> infer_instance

/-! ## Deployments that others write to -/

def CleanupWorker.found : CleanupWorker → List ExpiredDeployment
  | idle => []
  | fetching _ found => found
  | stopStreaming d rest | cleanup d _ rest | markExpired d rest | projectInactive d rest =>
    d :: rest

namespace CleanupWorker

theorem found_loop (ds : List ExpiredDeployment) : (loop ds).found = ds := by
  cases ds <;> rfl

/-- A deployment that the sweep finds has a READY row. -/
theorem row_of_expired {config : SystemConfig} {d : ExpiredDeployment}
    (h : d ∈ expiredOf w config) :
    ∃ row ∈ w.db.deployments,
      row.id = d.id ∧ row.projectId = d.projectId ∧ row.status = .ready := by
  obtain ⟨row, hrow, hd⟩ := List.mem_filterMap.mp h
  obtain ⟨p, _, hd⟩ := Option.bind_eq_some_iff.mp hd
  split at hd
  · rename_i hready
    cases hd
    exact ⟨row, hrow, rfl, rfl, hready.1⟩
  · cases hd

theorem found_step {r : Reply} {c : CleanupWorker} {d : ExpiredDeployment}
    (h : d ∈ (c.step w r).next.found) : d ∈ c.found ∨
      ∃ row ∈ w.db.deployments, row.id = d.id ∧ row.projectId = d.projectId ∧
        row.status = .ready := by
  cases c with
  | idle =>
    rw [step, query] at h
    split at h <;> exact absurd h List.not_mem_nil
  | fetching configs found =>
    cases configs with
    | nil =>
      rw [step, query] at h
      split at h
      · rw [Turn.pure, found_loop] at h
        exact Or.inl h
      · exact absurd h List.not_mem_nil
    | cons config configs =>
      rw [step, query] at h
      split at h
      · exact (List.mem_append.mp h).imp_right row_of_expired
      · exact absurd h List.not_mem_nil
  | stopStreaming d' rest => exact Or.inl h
  | cleanup d' left rest =>
    cases left with
    | nil => exact Or.inl h
    | cons kind left =>
      exact Or.inl (next_issue_of (P := fun c : CleanupWorker => d ∈ c.found → d ∈ d' :: rest) id id
        w r.outcome _ _ _ h)
  | markExpired d' rest =>
    refine Or.inl (next_request_of (P := fun c : CleanupWorker => d ∈ c.found → d ∈ d' :: rest)
      id ?_ w r.outcome _ _ _ h)
    rw [found_loop]
    exact List.mem_cons_of_mem d'
  | projectInactive d' rest =>
    refine Or.inl (next_request_of (P := fun c : CleanupWorker => d ∈ c.found → d ∈ d' :: rest)
      ?_ ?_ w r.outcome _ _ _ h)
    all_goals
      rw [found_loop]
      exact List.mem_cons_of_mem d'

end CleanupWorker

theorem State.found_step (h : s.step cfg e = some s') {d : ExpiredDeployment}
    (hd : d ∈ s'.procs.sweep.found) : d ∈ s.procs.sweep.found ∨
      ∃ row ∈ s.world.db.deployments, row.id = d.id ∧ row.projectId = d.projectId ∧
        row.status = .ready := by
  rcases loops_step h with hloops | ⟨_, hrestarted⟩
  · by_cases hsweep : ∃ r, e = .sweep r
    · obtain ⟨r, rfl⟩ := hsweep
      rw [step_sweep h] at hd
      exact CleanupWorker.found_step hd
    · rw [hloops.sweep fun r hr => hsweep ⟨r, hr⟩] at hd
      exact Or.inl hd
  · rw [hrestarted.sweep] at hd
    exact absurd hd List.not_mem_nil

def Call.pushes : Call → Bool
  | .push _ | .late _ => true
  | _ => false

def Call.previous : Call → List DeploymentId
  | .push c => c.previous
  | _ => []

theorem BuildWorker.job_of_writes {b : BuildWorker} {st : DeploymentStatus}
    (h : b.writes = some (id, st)) : ∃ job, b.job = some job ∧
      (job.deploymentId = id ∨ job.previousDeploymentId = some id) := by
  cases b with
  | idle => cases h
  | processing b pc =>
    refine ⟨b.job, rfl, ?_⟩
    cases pc with
    | supersede =>
      obtain ⟨previous, hprevious, hx⟩ := Option.map_eq_some_iff.mp h
      cases hx
      exact Or.inr hprevious
    | markBuilding | recordImage | markDeploying | markReady =>
      cases h
      exact Or.inl rfl
    | _ => cases h
  | cancelling job pc | failing job pc =>
    refine ⟨job, rfl, Or.inl ?_⟩
    cases pc <;> cases h
    all_goals rfl

/-- The deployment is READY, or someone but its own build may write its status. -/
inductive State.Aims (s : State) (id : DeploymentId) : Prop
  | ready (h : s.world.isReady id = true)
  | queue {job : BuildJob} (hjob : job ∈ s.world.redis.buildQueue)
      (h : job.previousDeploymentId = some id)
  | worker {job : BuildJob} (hjob : s.procs.worker.job = some job)
      (h : job.previousDeploymentId = some id)
  | call {c : Call} (hc : c ∈ s.procs.calls) (h : id ∈ c.previous)
  | late {x : StatusWrite} (h : .late (.writeStatus id x) ∈ s.procs.calls)
  | sweep {d : ExpiredDeployment} (hd : d ∈ s.procs.sweep.found) (h : d.id = id)

namespace State

def Pushing (s : State) : Prop := ∀ c ∈ s.procs.calls, c.pushes = true

theorem pushing_step (hs : s.Pushing) (he : OneByOne s e) (h : s.step cfg e = some s') :
    s'.Pushing := by
  intro c hc
  cases origin_step h hc with
  | old hold => exact hs c hold
  | start r =>
    cases r with
    | push => rfl
    | _ => exact he.elim
  | @next i r c₀ _ hc₀ hnext =>
    have hpushes := hs c₀ (List.mem_of_getElem? hc₀)
    cases c₀ with
    | push c₀ =>
      obtain ⟨y, _, rfl⟩ := toCall_eq_some hnext
      rfl
    | late x =>
      rw [next_late] at hnext
      cases hnext
    | _ => cases hpushes
  | late => rfl

/-- While only pushes are under way, a status is written by a push that has set the cancel signal,
or by the deployment's own build, or it is that of a deployment that others write to. -/
theorem written_pushing (hs : s.Pushing) {t : Turn Processes} (ht : s.turn cfg e = some t) :
    t.Writes fun id x =>
      (∃ c ∈ s.procs.calls, c.marks id ∧ x.status = .canceled) ∨
      (∃ job, s.procs.worker.job = some job ∧ job.deploymentId = id) ∨ s.Aims id := by
  refine (written_turn ht).mono fun id x hw => ?_
  rcases hw with ⟨c, hc, hw⟩ | hw | ⟨d, rest, hsweep, hid⟩
  · have hpushes := hs c hc
    cases c with
    | push c =>
      cases c <;> cases hw
      exact Or.inl ⟨_, hc, rfl, rfl⟩
    | late c =>
      cases c <;> cases hw
      exact Or.inr (Or.inr (.late hc))
    | _ => cases hpushes
  · obtain ⟨job, hjob, hid | hprevious⟩ := BuildWorker.job_of_writes hw
    · exact Or.inr (Or.inl ⟨job, hjob, hid⟩)
    · exact Or.inr (Or.inr (.worker hjob hprevious))
  · refine Or.inr (Or.inr (.sweep (d := d) ?_ hid))
    rw [hsweep]
    exact List.mem_cons_self

/-- Others come to write only to a deployment that the worker has built. -/
theorem aims_step (hs : s.Pushing) (h : s.step cfg e = some s') (hid : s'.Aims id) :
    s.Aims id ∨ ∃ job, s.procs.worker.job = some job ∧ job.deploymentId = id := by
  cases hid with
  | ready hready =>
    rcases isReady_step h hready with hold | ⟨t, ht, hreadied⟩
    · exact Or.inl (.ready hold)
    · obtain ⟨x, hc, hx⟩ := readied_eq_some_iff.mp hreadied
      rcases (written_pushing hs ht).command id x hc with ⟨_, _, _, hcanceled⟩ | hjob | haims
      · cases hx.symm.trans hcanceled
      · exact Or.inr hjob
      · exact Or.inl haims
  | queue hjob hprevious =>
    rcases queue_step h hjob with hold | ⟨t, ht, hc⟩
    · exact Or.inl (.queue hold hprevious)
    · obtain ⟨c, hmem, hheld⟩ := pushes_turn ht hc
      have hpushes := hs c hmem
      cases c with
      | push c =>
        refine Or.inl (.call hmem ?_)
        cases c with
        | enqueue =>
          cases hheld
          refine List.mem_append_left _ ?_
          rw [hprevious]
          exact List.mem_singleton_self _
        | _ => cases hheld
      | late => cases hheld
      | _ => cases hpushes
  | worker hjob hprevious =>
    rcases job_step h hjob with hold | ⟨t, queues, ht, hc, hwait⟩
    · exact Or.inl (.worker hold hprevious)
    · exact Or.inl (.queue (mem_of_waitForJob hwait) hprevious)
  | @call c hc hprevious =>
    cases origin_step h hc with
    | old hold => exact Or.inl (.call hold hprevious)
    | start r => cases r <;> exact absurd hprevious List.not_mem_nil
    | @next i r c₀ _ hc₀ hnext =>
      have hmem := List.mem_of_getElem? hc₀
      have hpushes := hs c₀ hmem
      cases c₀ with
      | push c₀ =>
        obtain ⟨y, hy, rfl⟩ := toCall_eq_some hnext
        rcases WebhooksService.previous_step hy hprevious with hold | hready
        · exact Or.inl (.call hmem hold)
        · exact Or.inl (.ready hready)
      | late x =>
        rw [next_late] at hnext
        cases hnext
      | _ => cases hpushes
    | late => exact absurd hprevious List.not_mem_nil
  | @late x hlate =>
    rcases late_step h hlate with hold | ⟨t, ht, hdeferred⟩
    · exact Or.inl (.late hold)
    · rcases (written_pushing hs ht).deferred id x hdeferred with
        ⟨_, _, _, hcanceled⟩ | hjob | haims
      · rcases deferred_turn ht hdeferred with hw | hexpired
        · obtain ⟨job, hjob, hid | hprevious⟩ := BuildWorker.job_of_writes hw
          · exact Or.inr ⟨job, hjob, hid⟩
          · exact Or.inl (.worker hjob hprevious)
        · cases hexpired.symm.trans hcanceled
      · exact Or.inr hjob
      · exact Or.inl haims
  | sweep hd hid =>
    rcases found_step h hd with hold | ⟨row, hrow, hrowid, _, hready⟩
    · exact Or.inl (.sweep hold hid)
    · exact Or.inl (.ready (World.isReady_iff.mpr ⟨row, hrow, hrowid.trans hid, hready⟩))

end State

/-! ## The push under way -/

namespace State

/-- At most one request is under way, beside those that the worker no longer waits for. -/
def Sequential (s : State) : Prop := s.procs.calls.countP (fun c => !c.isLate) ≤ 1

theorem sequential_step (hs : s.Sequential) (he : OneByOne s e) (h : s.step cfg e = some s') :
    s'.Sequential := by
  have hlate (xs : List InternalRequest) :
      (xs.map Call.late).countP (fun c => !c.isLate) = 0 := by
    rw [List.countP_map]
    exact List.countP_eq_zero.mpr fun x _ => by simp [Call.isLate]
  rw [Sequential] at hs ⊢
  cases e with
  | tick milliseconds =>
    rw [step_tick h]
    exact hs
  | request r =>
    cases r with
    | push payload =>
      rw [step_request h]
      have hnone : s.procs.calls.countP (fun c => !c.isLate) = 0 := by
        refine List.countP_eq_zero.mpr fun c hc => ?_
        rw [List.all_eq_true.mp he c hc]
        exact Bool.false_ne_true
      show (s.procs.calls ++ [Request.start (.push payload)]).countP _ ≤ 1
      rw [List.countP_append, hnone]
      exact Nat.le_refl 1
    | _ => exact he.elim
  | edit edit =>
    rw [(step_edit h).2]
    exact hs
  | call i r =>
    obtain ⟨before, c, later, hcalls, _, _, rfl⟩ := step_call h
    have hnext : (c.step cfg s.world r).next.toList.countP (fun c => !c.isLate) ≤
        if (!c.isLate) = true then 1 else 0 := by
      cases c with
      | late x =>
        rw [next_late]
        exact Nat.le_refl 0
      | _ =>
        refine Nat.le_trans List.countP_le_length ?_
        cases (Call.step cfg s.world r _).next <;> simp [Call.isLate]
    rw [hcalls, List.countP_append, List.countP_cons] at hs
    show (before ++ (c.step cfg s.world r).next.toList ++ later).countP _ ≤ 1
    rw [List.countP_append, List.countP_append]
    omega
  | worker r =>
    rw [step_worker h]
    show (s.procs.calls ++ _).countP _ ≤ 1
    rw [List.countP_append, hlate]
    exact hs
  | sweep r =>
    rw [step_sweep h]
    show (s.procs.calls ++ _).countP _ ≤ 1
    rw [List.countP_append, hlate]
    exact hs
  | projectCleanup r =>
    rw [step_projectCleanup h]
    show (s.procs.calls ++ _).countP _ ≤ 1
    rw [List.countP_append, hlate]
    exact hs
  | domainWorker r =>
    rw [step_domainWorker h]
    show (s.procs.calls ++ _).countP _ ≤ 1
    rw [List.countP_append, hlate]
    exact hs
  | restart =>
    rw [step_restart h]
    exact hs

/-- The push under way after a step has just arrived, or has waited while no row was inserted and no
job pushed, or has taken the step. -/
theorem push_origin (hs : s.Pushing) (hseq : s.Sequential) (h : s.step cfg e = some s')
    {y : WebhooksService.Push} (hy : .push y ∈ s'.procs.calls) :
    (∃ payload, y = .findProjects payload) ∨
    (.push y ∈ s.procs.calls ∧
      ∀ t ∈ s.turn cfg e, t.command.inserted = [] ∧ ∀ job, t.command ≠ .addBuildJob job) ∨
    ∃ i r c, e = .call i r ∧ s.procs.calls[i]? = some (.push c) ∧
      (c.step cfg s.world r).next = .next y ∧
      ∀ t ∈ s.turn cfg e, t.command = (c.step cfg s.world r).command := by
  have hbackground {c : Command} (hc : c.background = true) :
      c.inserted = [] ∧ ∀ job, c ≠ .addBuildJob job := by
    refine ⟨inserted_of_background hc, ?_⟩
    rintro job rfl
    cases hc
  have hlate {xs : List InternalRequest} (hy : .push y ∈ s.procs.calls ++ xs.map Call.late) :
      .push y ∈ s.procs.calls := by
    rcases List.mem_append.mp hy with hy | hy
    · exact hy
    · obtain ⟨x, _, hx⟩ := List.mem_map.mp hy
      cases hx
  cases e with
  | call i r =>
    obtain ⟨before, c, later, hcalls, rfl, _, rfl⟩ := step_call h
    have hturn := turn_call cfg hcalls r
    have hpushes := hs c (by rw [hcalls]; simp)
    rw [Sequential, hcalls, List.countP_append, List.countP_cons] at hseq
    simp only [List.mem_append, Option.mem_toList] at hy
    cases c with
    | push c =>
      refine Or.inr (Or.inr ⟨_, r, c, rfl, ?_, ?_, ?_⟩)
      · rw [hcalls, List.getElem?_append_right (Nat.le_refl _), Nat.sub_self]
        rfl
      · have hcounted {l : List Call} (hmem : .push y ∈ l) : 0 < l.countP fun c => !c.isLate :=
          List.countP_pos_iff.mpr ⟨_, hmem, rfl⟩
        have hself : (!(Call.push c).isLate) = true := rfl
        rw [if_pos hself] at hseq
        rcases hy with (hy | hy) | hy
        · have hpos := hcounted hy
          omega
        · obtain ⟨x, hx, heq⟩ := toCall_eq_some hy
          cases heq
          exact hx
        · have hpos := hcounted hy
          omega
      · intro t ht
        cases hturn.symm.trans ht
        rfl
    | late x =>
      refine Or.inr (Or.inl ⟨?_, fun t ht => ?_⟩)
      · rw [next_late] at hy
        rw [hcalls]
        rcases hy with (hy | hy) | hy
        · exact List.mem_append_left _ hy
        · cases hy
        · exact List.mem_append_right _ (List.mem_cons_of_mem _ hy)
      · cases hturn.symm.trans ht
        refine hbackground ?_
        rcases command_issue s.world r.outcome x.command (none : Option Call) none [] [] with
          hc | hc <;> rw [Turn.command_map, Call.step, hc]
        · cases x <;> rfl
        · rfl
    | _ => cases hpushes
  | request r =>
    rw [step_request h] at hy
    rcases List.mem_append.mp hy with hy | hy
    · refine Or.inr (Or.inl ⟨hy, fun t ht => ?_⟩)
      cases ht
      exact hbackground rfl
    · cases r <;> cases List.mem_singleton.mp hy
      exact Or.inl ⟨_, rfl⟩
  | tick milliseconds =>
    rw [step_tick h] at hy
    refine Or.inr (Or.inl ⟨hy, fun t ht => ?_⟩)
    cases ht
    exact ⟨rfl, fun _ hpush => by cases hpush⟩
  | edit edit =>
    rw [(step_edit h).2] at hy
    refine Or.inr (Or.inl ⟨hy, fun t ht => ?_⟩)
    rw [Option.mem_def, turn] at ht
    split at ht <;> cases ht
    cases edit <;> exact ⟨rfl, fun _ hpush => by cases hpush⟩
  | worker r =>
    rw [step_worker h] at hy
    refine Or.inr (Or.inl ⟨hlate hy, fun t ht => ?_⟩)
    cases ht
    exact hbackground (background_worker cfg s.world r s.procs.worker).command
  | sweep r =>
    rw [step_sweep h] at hy
    refine Or.inr (Or.inl ⟨hlate hy, fun t ht => ?_⟩)
    cases ht
    exact hbackground (quiet_sweep s.world r s.procs.sweep).background.command
  | projectCleanup r =>
    rw [step_projectCleanup h] at hy
    refine Or.inr (Or.inl ⟨hlate hy, fun t ht => ?_⟩)
    cases ht
    exact hbackground (quiet_projectCleanup s.world r s.procs.projectCleanup).background.command
  | domainWorker r =>
    rw [step_domainWorker h] at hy
    refine Or.inr (Or.inl ⟨hlate hy, fun t ht => ?_⟩)
    cases ht
    exact hbackground (quiet_domainWorker s.world r s.procs.domainWorker).background.command
  | restart =>
    rw [step_restart h] at hy
    refine Or.inr (Or.inl ⟨hy, fun t ht => ?_⟩)
    cases ht
    exact hbackground rfl

end State
end System
end Code2Cloud
