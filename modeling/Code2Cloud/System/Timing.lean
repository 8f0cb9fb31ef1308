import Code2Cloud.System.Entitlement
import Code2Cloud.System.Lifecycle

/-!
# The timing fields

When a deployment finished and how long it took, beside its status: what each writer of the status
makes of them.
-/

namespace Code2Cloud

namespace Api

def Deployment.Timed (d : Deployment) : Prop :=
  if d.status.inProgress then d.finishedAt = none ∧ d.duration = none
  else ∃ finishedAt, d.finishedAt = some finishedAt ∧ d.startedAt ≤ finishedAt ∧
    d.duration = some ((finishedAt - d.startedAt) / 1000)

structure Deployment.StartsAt (d : Deployment) (now : Nat) : Prop where
  queued : d.status = .queued
  finishedAt : d.finishedAt = none
  duration : d.duration = none
  startedAt : d.startedAt = now

theorem Deployment.StartsAt.timed {d : Deployment} {now : Nat} (h : d.StartsAt now) : d.Timed := by
  rw [Timed, h.queued]
  exact ⟨h.finishedAt, h.duration⟩

def StatusWrite.keepsTime (now : Nat) (d : Deployment) : StatusWrite → Bool
  | updateDeploymentStatus dto =>
    [.ready, .failed, .canceled].contains dto.status || dto.status.inProgress == d.status.inProgress
  | deleteDeploymentResources => d.duration == some (durationAt now d)
  | cancel => true
  | updateStatus status => status.inProgress == d.status.inProgress
  | webhookCancel => !d.status.inProgress

namespace Deployment

variable {d d' : Deployment}

/-- The timing fields of a row that keeps them fit a status of the same kind only. -/
theorem timed_iff_of_kept (hd : d.Timed) (d' : Deployment)
    (hfinished : d'.finishedAt = d.finishedAt) (hduration : d'.duration = d.duration)
    (hstarted : d'.startedAt = d.startedAt) :
    d'.Timed ↔ d'.status.inProgress = d.status.inProgress := by
  unfold Timed at hd ⊢
  rw [hfinished, hduration, hstarted]
  cases hold : d.status.inProgress <;> cases hnew : d'.status.inProgress <;>
    simp only [hold, Bool.false_eq_true, if_true, if_false] at hd ⊢
  · exact iff_of_true hd trivial
  · obtain ⟨finishedAt, hd, _⟩ := hd
    simp [hd]
  · simp [hd.1]
  · exact iff_of_true hd trivial

theorem timed_of_finished (now : Nat) (hstatus : d'.status.inProgress = false)
    (hfinished : d'.finishedAt = some now) (hstarted : d'.startedAt ≤ now)
    (hduration : d'.duration = some ((now - d'.startedAt) / 1000)) : d'.Timed := by
  unfold Timed
  rw [hstatus]
  exact ⟨now, hfinished, hstarted, hduration⟩

end Deployment

/-- Every writer keeps the timing fields as they should be exactly under its condition. -/
theorem StatusWrite.timed_apply_iff {d : Deployment} {now : Nat} (hd : d.Timed)
    (hnow : d.startedAt ≤ now) (x : StatusWrite) :
    (x.apply now d).Timed ↔ x.keepsTime now d = true := by
  cases x with
  | updateDeploymentStatus dto =>
    by_cases hfinished : [.ready, .failed, .canceled].contains dto.status = true
    · refine iff_of_true ?_ (by rw [keepsTime, hfinished, Bool.true_or])
      refine Deployment.timed_of_finished now ?_ ?_ hnow ?_
      · show dto.status.inProgress = false
        revert hfinished
        cases dto.status <;> decide
      · exact if_pos hfinished
      · exact if_pos hfinished
    · rw [Deployment.timed_iff_of_kept hd (apply now d (updateDeploymentStatus dto))
        (if_neg hfinished) (if_neg hfinished) rfl, keepsTime,
        Bool.eq_false_of_not_eq_true hfinished, Bool.false_or, beq_iff_eq]
      rfl
  | deleteDeploymentResources =>
    rw [keepsTime, beq_iff_eq]
    constructor
    · intro h
      obtain ⟨finishedAt, hfinished, _, hduration⟩ := h
      cases hfinished
      exact hduration
    · exact fun h => Deployment.timed_of_finished now rfl rfl hnow h
  | cancel => exact iff_of_true (Deployment.timed_of_finished now rfl rfl hnow rfl) rfl
  | updateStatus status =>
    rw [Deployment.timed_iff_of_kept hd (apply now d (updateStatus status)) rfl rfl rfl, keepsTime,
      beq_iff_eq]
    rfl
  | webhookCancel =>
    rw [Deployment.timed_iff_of_kept hd (apply now d webhookCancel) rfl rfl rfl, keepsTime,
      Bool.not_eq_true']
    exact eq_comm

end Api

namespace System

open Api Worker

variable {cfg : Config} {w : World} {s s' : State} {e : Event}

/-- The condition on a step: the status that it writes finds the timing fields of the row as the
writer takes them to be. -/
def KeepsTime (cfg : Config) (s : State) (e : Event) : Prop :=
  ∀ p ∈ (s.turn cfg e).bind (·.command.statusWrite), ∀ d ∈ s.world.db.deployments,
    d.id = p.1 → p.2.keepsTime s.world.now d = true

instance (cfg : Config) (s : State) (e : Event) : Decidable (KeepsTime cfg s e) :=
  Option.decidableForallMem _

theorem keepsTime_iff {t : Turn Processes} (ht : s.turn cfg e = some t) :
    KeepsTime cfg s e ↔ ∀ id x, t.command = .writeStatus id x →
      ∀ d ∈ s.world.db.deployments, d.id = id → x.keepsTime s.world.now d = true := by
  unfold KeepsTime
  rw [ht, Option.bind_some]
  constructor
  · intro h id x hc
    exact h (id, x) (by rw [hc]; rfl)
  · rintro h ⟨id, x⟩ hp
    refine h id x ?_
    cases hc : t.command <;> rw [hc] at hp <;> cases hp
    rfl

theorem World.now_le_exec (cfg : Config) (w : World) (c : Command) :
    w.now ≤ (w.exec cfg c).now := by
  cases c with
  | tick milliseconds => exact Nat.le_add_right _ _
  | popBuildJob | popProjectCleanup | updateIngressHosts =>
    simp only [exec]
    split <;> exact Nat.le_refl _
  | _ => exact Nat.le_refl _

/-! ## New rows -/

theorem startsAt_of_insertsRow {c : Call} {d : Deployment} (h : c.InsertsRow w d) :
    d.StartsAt w.now := by
  cases h <;> exact ⟨rfl, rfl, rfl, rfl⟩

theorem startsAt_draft {c c' : Call} {r : Reply} {draft : Draft}
    (h : (c.step cfg w r).next = some c') (hdraft : c'.draft = some draft) :
    c.draft = some draft ∨ draft.deployment.StartsAt w.now := by
  by_cases hc : ∀ x, c ≠ .createProject x
  · have hnone : (c.step cfg w r).next.bind Call.draft = none := draft_next hc r
    rw [h, Option.bind_some, hdraft] at hnone
    cases hnone
  · simp only [ne_eq, not_forall, not_not] at hc
    obtain ⟨c, rfl⟩ := hc
    obtain ⟨y, hy, rfl⟩ := toCall_eq_some h
    cases c with
    | findExisting userId dto =>
      rw [ProjectsService.Create.step, query] at hy
      split at hy
      · rw [Turn.pure] at hy
        split at hy <;> cases hy
        cases hdraft
      · cases hy
    | findGitAccounts userId dto =>
      rw [ProjectsService.Create.step, query] at hy
      split at hy
      · simp only [Turn.pure] at hy
        split at hy
        · cases hy
        · split at hy <;> cases hy
          cases hdraft
      · cases hy
    | getLatestCommit userId dto installationId =>
      cases hy
      cases hdraft
    | insert userId dto installationId commitData =>
      rw [ProjectsService.Create.step] at hy
      split at hy <;> cases hy
      cases hdraft
      exact Or.inr ⟨rfl, rfl, rfl, rfl⟩
    | enqueue draft' job =>
      rw [ProjectsService.Create.step] at hy
      rcases next_issue w r.outcome (.addBuildJob job)
        (Flow.next (ProjectsService.Create.commit draft'))
        (Flow.next (ProjectsService.Create.rollback draft')) [] [] with hn | hn <;>
        rw [hn] at hy <;> cases hy <;> exact Or.inl hdraft
    | commit draft' =>
      rw [ProjectsService.Create.step] at hy
      split at hy <;> cases hy
    | rollback draft' => cases hy

namespace State

structure Timely (s : State) : Prop where
  rows : ∀ d ∈ s.world.db.deployments, d.Timed ∧ d.startedAt ≤ s.world.now
  drafts : ∀ c ∈ s.procs.calls, ∀ draft, c.draft = some draft →
    ∃ now, now ≤ s.world.now ∧ draft.deployment.StartsAt now

theorem startsAt_inserted (hs : s.Timely) {t : Turn Processes} (ht : s.turn cfg e = some t)
    {d : Deployment} (hd : d ∈ t.command.inserted) :
    ∃ now, now ≤ s.world.now ∧ d.StartsAt now := by
  rcases command_turn ht with ⟨i, r, c, rfl, hi, hc⟩ | ⟨r, rfl, hc⟩ | hb
  · rw [hc] at hd
    by_cases hproject : ∀ x, c ≠ .createProject x
    · rcases inserted_call cfg s.world hproject r with hnone | ⟨d', hone, hinserts⟩
      · rw [hnone] at hd
        cases hd
      · rw [hone] at hd
        rw [List.mem_singleton.mp hd]
        exact ⟨s.world.now, Nat.le_refl _, startsAt_of_insertsRow hinserts⟩
    · simp only [ne_eq, not_forall, not_not] at hproject
      obtain ⟨c, rfl⟩ := hproject
      obtain ⟨draft, hdraft, rfl⟩ := inserted_createProject hd
      exact hs.drafts _ (List.mem_of_getElem? hi) draft hdraft
  · rw [hc, inserted_of_background (background_worker cfg s.world r s.procs.worker).command] at hd
    cases hd
  · rw [inserted_of_bystander hb] at hd
    cases hd

theorem now_le_step (h : s.step cfg e = some s') : s.world.now ≤ s'.world.now := by
  obtain ⟨t, _, _, rfl⟩ := step_eq_some_iff.mp h
  exact World.now_le_exec cfg s.world t.command

theorem rows_timely (hs : s.Timely) (he : KeepsTime cfg s e) (h : s.step cfg e = some s')
    {d' : Deployment} (hd' : d' ∈ s'.world.db.deployments) :
    d'.Timed ∧ d'.startedAt ≤ s'.world.now := by
  have hnow := now_le_step h
  obtain ⟨t, ht, _, rfl⟩ := step_eq_some_iff.mp h
  rcases World.mem_deployments_exec (shuffles_turn ht) hd' with hnew | ⟨d, hd, _, hwritten⟩
  · obtain ⟨now, hle, hstarts⟩ := startsAt_inserted hs ht hnew
    refine ⟨hstarts.timed, ?_⟩
    rw [hstarts.startedAt]
    exact Nat.le_trans hle hnow
  · obtain ⟨htimed, hstarted⟩ := hs.rows d hd
    rcases hwritten with rfl | ⟨x, hc, rfl⟩
    · exact ⟨htimed, Nat.le_trans hstarted hnow⟩
    · rw [StatusWrite.apply_startedAt]
      refine ⟨(x.timed_apply_iff htimed hstarted).mpr ?_, Nat.le_trans hstarted hnow⟩
      exact (keepsTime_iff ht).mp he d.id x hc d hd rfl

theorem timely_step (hs : s.Timely) (he : KeepsTime cfg s e) (h : s.step cfg e = some s') :
    s'.Timely where
  rows _ hd' := rows_timely hs he h hd'
  drafts c hc draft hdraft := by
    have hold {c : Call} (hc : c ∈ s.procs.calls) (hdraft : c.draft = some draft) :
        ∃ now, now ≤ s'.world.now ∧ draft.deployment.StartsAt now := by
      obtain ⟨now, hle, hstarts⟩ := hs.drafts c hc draft hdraft
      exact ⟨now, Nat.le_trans hle (now_le_step h), hstarts⟩
    cases origin_step h hc with
    | old hc => exact hold hc hdraft
    | start r => cases r <;> cases hdraft
    | next hi hnext =>
      rcases startsAt_draft hnext hdraft with hheld | hstarts
      · exact hold (List.mem_of_getElem? hi) hheld
      · exact ⟨s.world.now, now_le_step h, hstarts⟩
    | late => cases hdraft

/-- A write that does not find the timing fields as it takes them to be spoils them. -/
theorem keepsTime_of_timed (hs : s.Timely) (h : s.step cfg e = some s')
    (hs' : ∀ d ∈ s'.world.db.deployments, d.Timed) : KeepsTime cfg s e := by
  obtain ⟨t, ht, _, rfl⟩ := step_eq_some_iff.mp h
  refine (keepsTime_iff ht).mpr fun id x hc d hd hid => ?_
  obtain ⟨htimed, hstarted⟩ := hs.rows d hd
  refine (x.timed_apply_iff htimed hstarted).mp (hs' _ ?_)
  show x.apply s.world.now d ∈ (s.world.exec cfg t.command).db.deployments
  rw [hc]
  exact List.mem_map.mpr ⟨d, hd, if_pos hid⟩

theorem timely_of_reaches (h : Reaches (State.step cfg) (KeepsTime cfg) initial s) : s.Timely :=
  h.invariant Timely
    ⟨fun _ hd => absurd hd List.not_mem_nil, fun _ hc => absurd hc List.not_mem_nil⟩
    fun _ _ _ hs he hstep => timely_step hs he hstep

end State

/-- The timing fields fit the statuses as long as each status that is written finds them as its
writer takes them to be, and a step at which one does not breaks that. -/
theorem timing_fields (h : Reaches (State.step cfg) (KeepsTime cfg) State.initial s) :
    (∀ d ∈ s.world.db.deployments, d.Timed) ∧
      ∀ e s', s.step cfg e = some s' →
        ((∀ d ∈ s'.world.db.deployments, d.Timed) ↔ KeepsTime cfg s e) := by
  have hs := State.timely_of_reaches h
  refine ⟨fun d hd => (hs.rows d hd).1, fun e s' hstep => ⟨State.keepsTime_of_timed hs hstep, ?_⟩⟩
  exact fun he d hd => (State.rows_timely hs he hstep hd).1

theorem timing_fields_shop :
    ∃ s d, Reaches (State.step Config.clear) (KeepsTime Config.clear) State.initial s ∧
      d ∈ s.world.db.deployments ∧ d.status = .ready ∧ d.Timed := by
  obtain ⟨s, hs, hend⟩ := Reaches.exists_of_runEvents (State.step Config.clear)
    (KeepsTime Config.clear) State.initial (shopCreated ++ .tick 9000 :: shopWorker 23)
    (fun s => s.world.db.deployments.any fun d => d.status == .ready && d.duration == some 9)
    (by decide) (by decide)
  obtain ⟨d, hd, hready⟩ := List.any_eq_true.mp hend
  rw [Bool.and_eq_true, beq_iff_eq] at hready
  exact ⟨s, d, hs, hd, hready.1, (timing_fields hs).1 d hd⟩

/-- A push cancels a queued deployment and leaves its timing fields empty. -/
theorem not_timing_fields :
    ¬∀ (cfg : Config) (s : State),
      Reaches (State.step cfg) (fun _ e => e.succeeds = true ∧ e.putsStatus = false)
        State.initial s → ∀ d ∈ s.world.db.deployments, d.Timed := by
  intro h
  obtain ⟨s, hs, hend⟩ := Reaches.exists_of_runEvents (State.step Config.clear)
    (fun _ e => e.succeeds = true ∧ e.putsStatus = false) State.initial
    (shopCreated ++ shopRequest (.push WebhooksService.shopPush) 3)
    (fun s => s.world.db.deployments.any fun d => d.status == .canceled && d.finishedAt == none)
    (by decide) (by decide)
  obtain ⟨d, hd, hcanceled⟩ := List.any_eq_true.mp hend
  rw [Bool.and_eq_true, beq_iff_eq, beq_iff_eq] at hcanceled
  have htimed := h Config.clear s hs d hd
  rw [Deployment.Timed, hcanceled.1] at htimed
  obtain ⟨finishedAt, hfinished, _⟩ := htimed
  cases hcanceled.2.symm.trans hfinished

end System
end Code2Cloud
