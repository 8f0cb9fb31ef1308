import Code2Cloud.System.Entitlement
import Code2Cloud.System.Objects
import Code2Cloud.System.Writes

/-!
# The live deployment of a project

A deployment goes live when the worker marks it READY.  The one it replaces is marked SUPERSEDED a
few requests later, if the job names it.
-/

namespace Code2Cloud
namespace System

open Api Worker

variable {cfg : Config} {w : World} {s s' : State} {e : Event} {id : DeploymentId}

def BuildWorker.replacing : BuildWorker → Option (DeploymentId × DeploymentId)
  | processing b .projectActive | processing b .stopPrevious | processing b .supersede =>
    b.job.previousDeploymentId.map fun previous => (b.job.deploymentId, previous)
  | _ => none

def World.isReady (w : World) (id : DeploymentId) : Bool :=
  w.db.deployments.any fun d => d.id == id && d.status == .ready

def Command.readied : Command → Option DeploymentId
  | .writeStatus id x => if x.status = .ready then some id else none
  | _ => none

def State.replaces (s : State) : Event → Option DeploymentId
  | .worker r => if r.outcome = .ok then s.procs.worker.job.bind (·.previousDeploymentId) else none
  | _ => none

/-- The worker does not leave a replaced deployment READY. -/
def State.supersedes (s : State) : Event → Bool
  | .worker r =>
    match s.procs.worker with
    | .processing b .supersede =>
      decide r.outcome.done || b.job.previousDeploymentId.all fun previous =>
        !s.world.isReady previous
    | _ => true
  | .restart => s.procs.worker.replacing.all fun x => !s.world.isReady x.2
  | _ => true

/-- A deployment becomes READY only beside one that the worker goes on to replace, and the worker
does so. -/
def TakesOver (cfg : Config) (s : State) (e : Event) : Prop :=
  s.supersedes e = true ∧
  ∀ t ∈ s.turn cfg e, ∀ id ∈ t.command.readied, ∀ d ∈ s.world.db.deployments, d.id = id →
    d.status ≠ .ready → ∀ d' ∈ s.world.db.deployments, d'.projectId = d.projectId →
      d'.status = .ready → s.replaces e = some d'.id

instance (cfg : Config) (s : State) (e : Event) : Decidable (TakesOver cfg s e) :=
  have (t : Turn Processes) : Decidable (∀ id ∈ t.command.readied, ∀ d ∈ s.world.db.deployments,
      d.id = id → d.status ≠ .ready → ∀ d' ∈ s.world.db.deployments,
        d'.projectId = d.projectId → d'.status = .ready → s.replaces e = some d'.id) :=
    Option.decidableForallMem _
  have : Decidable (∀ t ∈ s.turn cfg e, ∀ id ∈ t.command.readied, ∀ d ∈ s.world.db.deployments,
      d.id = id → d.status ≠ .ready → ∀ d' ∈ s.world.db.deployments,
        d'.projectId = d.projectId → d'.status = .ready → s.replaces e = some d'.id) :=
    Option.decidableForallMem _
  inferInstanceAs (Decidable (_ ∧ _))

theorem World.isReady_iff :
    w.isReady id = true ↔ ∃ d ∈ w.db.deployments, d.id = id ∧ d.status = .ready := by
  simp [isReady]

theorem World.isReady_of_mem {d : Deployment} (hd : d ∈ w.db.deployments)
    (hready : d.status = .ready) :
    w.isReady d.id = true :=
  isReady_iff.mpr ⟨d, hd, rfl, hready⟩

theorem World.isReady_record (entries : List Entry) :
    (w.record entries).isReady id = w.isReady id := rfl

theorem World.isReady_writeStatus {x : StatusWrite} (hx : x.status ≠ .ready) :
    (w.exec cfg (.writeStatus id x)).isReady id = false := by
  rw [isReady, List.any_eq_false]
  intro d' hd'
  obtain ⟨d, _, rfl⟩ := List.mem_map.mp hd'
  by_cases hid : d.id = id
  · simp [hid, hx]
  · simp [hid]

/-! ## Becoming READY -/

theorem readied_eq_some_iff {c : Command} :
    c.readied = some id ↔ ∃ x, c = .writeStatus id x ∧ x.status = .ready := by
  constructor
  · intro h
    cases c with
    | writeStatus id' x =>
      rw [Command.readied] at h
      split at h
      · rename_i hx
        cases h
        exact ⟨x, rfl, hx⟩
      · cases h
    | _ => cases h
  · rintro ⟨x, rfl, hx⟩
    exact if_pos hx

/-- Only the worker's own deployment becomes READY. -/
theorem BuildWorker.markReady_of_writes {b : BuildWorker} (h : b.writes = some (id, .ready)) :
    ∃ build, b = processing build .markReady ∧ build.job.deploymentId = id := by
  cases b with
  | processing build pc =>
    cases pc with
    | markReady =>
      cases h
      exact ⟨build, rfl, rfl⟩
    | supersede =>
      obtain ⟨_, _, hx⟩ := Option.map_eq_some_iff.mp h
      cases hx
    | _ => cases h
  | cancelling job pc | failing job pc => cases pc <;> cases h
  | idle => cases h

namespace State

theorem ready_step (h : s.step cfg e = some s') {d' : Deployment}
    (hd' : d' ∈ s'.world.db.deployments) (hready : d'.status = .ready) :
    ∃ d ∈ s.world.db.deployments, d.id = d'.id ∧ d.projectId = d'.projectId ∧
      (d.status = .ready ∨ d.status ≠ .ready ∧
        ∃ t, s.turn cfg e = some t ∧ t.command.readied = some d.id) := by
  rcases rows_step h hd' with ⟨hqueued, _⟩ | ⟨d, hd, rfl | ⟨t, x, ht, hc, rfl⟩⟩
  · rw [hready] at hqueued
    cases hqueued
  · exact ⟨d', hd, rfl, rfl, Or.inl hready⟩
  · refine ⟨d, hd, (StatusWrite.apply_id _ _ _).symm, (StatusWrite.apply_projectId _ _ _).symm, ?_⟩
    by_cases hold : d.status = .ready
    · exact Or.inl hold
    · rw [StatusWrite.apply_status] at hready
      exact Or.inr ⟨hold, t, ht, readied_eq_some_iff.mpr ⟨x, hc, hready⟩⟩

theorem isReady_step (h : s.step cfg e = some s') (hready : s'.world.isReady id = true) :
    s.world.isReady id = true ∨ ∃ t, s.turn cfg e = some t ∧ t.command.readied = some id := by
  obtain ⟨d', hd', rfl, hd'_ready⟩ := World.isReady_iff.mp hready
  obtain ⟨d, hd, hid, _, hold | ⟨_, hnew⟩⟩ := ready_step h hd' hd'_ready
  · exact Or.inl (hid ▸ World.isReady_of_mem hd hold)
  · exact Or.inr (hid ▸ hnew)

/-- The worker goes on to replace the previous deployment of its job. -/
theorem replacing_of_readied {t : Turn Processes} (h : s.step cfg e = some s')
    (ht : s.turn cfg e = some t) {previous : DeploymentId} (hid : t.command.readied = some id)
    (hprevious : s.replaces e = some previous) :
    s'.procs.worker.replacing = some (id, previous) := by
  obtain ⟨x, hc, hx⟩ := readied_eq_some_iff.mp hid
  cases e with
  | worker r =>
    have hs' := step_worker h
    cases ht
    rw [Turn.command_map] at hc
    have hwrites := (s.procs.worker.writes_step cfg s.world r).command id x hc
    rw [hx] at hwrites
    rw [replaces] at hprevious
    split at hprevious
    · rename_i hok
      obtain ⟨b, hworker, rfl⟩ := BuildWorker.markReady_of_writes hwrites
      rw [hworker] at hprevious hc hs'
      have hnext : (BuildWorker.step cfg s.world r (.processing b .markReady)).next =
          some (.processing b .projectActive) := by
        rw [BuildWorker.step, BuildWorker.processStep, hok] at hc ⊢
        exact next_issue_ok fun hskip => by cases hc.symm.trans hskip
      rw [BuildWorker.job, Option.bind_some] at hprevious
      rw [hs', hnext]
      show b.job.previousDeploymentId.map _ = _
      rw [hprevious]
      rfl
    · cases hprevious
  | _ => cases hprevious

/-! ## Being replaced -/

theorem superseded_exec {r : Reply} {previous : DeploymentId}
    (hready : s.world.isReady previous = true) (hdone : r.outcome.done)
    (ok err : Option BuildWorker) :
    (request s.world r.outcome (.writeStatus previous (BuildWorker.statusUpdate .superseded)) ok
      err).command = .writeStatus previous (BuildWorker.statusUpdate .superseded) := by
  obtain ⟨d, hd, hid, _⟩ := World.isReady_iff.mp hready
  refine command_of_done ?_ hdone _ _ _ _
  rw [InternalRequest.command, World.admits, Database.findDeployment, List.find?_isSome]
  exact ⟨d, hd, beq_iff_eq.mpr hid⟩

/-- The worker goes on to replace a READY deployment until it is no longer READY. -/
theorem replacing_step (hok : s.supersedes e = true) (h : s.step cfg e = some s')
    {x : DeploymentId × DeploymentId} (hx : s.procs.worker.replacing = some x)
    (hready : s.world.isReady x.2 = true) :
    s'.procs.worker.replacing = some x ∨ s'.world.isReady x.2 = false := by
  cases e with
  | tick milliseconds =>
    rw [step_tick h]
    exact Or.inl hx
  | request r =>
    rw [step_request h]
    exact Or.inl hx
  | edit edit =>
    rw [(step_edit h).2]
    exact Or.inl hx
  | call i r =>
    obtain ⟨_, _, _, _, _, _, rfl⟩ := step_call h
    exact Or.inl hx
  | sweep r =>
    rw [step_sweep h]
    exact Or.inl hx
  | projectCleanup r =>
    rw [step_projectCleanup h]
    exact Or.inl hx
  | domainWorker r =>
    rw [step_domainWorker h]
    exact Or.inl hx
  | restart =>
    rw [supersedes, hx, Option.all_some, hready] at hok
    cases hok
  | worker r =>
    rw [step_worker h]
    cases hworker : s.procs.worker with
    | processing b pc =>
      rw [hworker] at hx
      cases hprevious : b.job.previousDeploymentId with
      | none => cases pc <;> simp [BuildWorker.replacing, hprevious] at hx
      | some previous =>
        cases pc with
        | projectActive =>
          rw [BuildWorker.replacing, hprevious] at hx
          refine Or.inl ?_
          have hnext : (BuildWorker.step cfg s.world r (.processing b .projectActive)).next =
              some (.processing b .stopPrevious) := by
            have hactive : BuildWorker.afterActive b = .processing b .stopPrevious := by
              rw [BuildWorker.afterActive, hprevious]
              rfl
            rw [BuildWorker.step, BuildWorker.processStep, hactive]
            exact next_request_of (P := fun y : Option BuildWorker =>
              y = some (.processing b .stopPrevious)) rfl rfl _ _ _ _ _
          rw [hnext]
          show b.job.previousDeploymentId.map _ = _
          rw [hprevious]
          exact hx
        | stopPrevious =>
          rw [BuildWorker.replacing, hprevious] at hx
          refine Or.inl ?_
          rw [BuildWorker.step, BuildWorker.processStep, hprevious]
          show b.job.previousDeploymentId.map _ = _
          rw [hprevious]
          exact hx
        | supersede =>
          rw [BuildWorker.replacing, hprevious] at hx
          cases hx
          simp only [supersedes, hworker, hprevious, Option.all_some, hready, Bool.not_true,
            Bool.or_false, decide_eq_true_eq] at hok
          refine Or.inr ?_
          rw [BuildWorker.step, BuildWorker.processStep, hprevious]
          dsimp only
          rw [superseded_exec hready hok, World.isReady_record]
          exact World.isReady_writeStatus (by decide)
        | _ => cases hx
    | _ =>
      rw [hworker] at hx
      cases hx

/-! ## One live deployment -/

/-- Of two READY deployments of a project the worker is replacing one by the other. -/
def OneLive (s : State) : Prop :=
  ∀ d ∈ s.world.db.deployments, ∀ d' ∈ s.world.db.deployments, d.projectId = d'.projectId →
    d.status = .ready → d'.status = .ready → d.id ≠ d'.id →
      s.procs.worker.replacing = some (d.id, d'.id) ∨ s.procs.worker.replacing = some (d'.id, d.id)

/-- Beside a deployment that the step marks READY there is only the one it replaces. -/
theorem replacing_of_takesOver (hok : TakesOver cfg s e) (h : s.step cfg e = some s')
    {d d' : Deployment} (hd : d ∈ s.world.db.deployments) (hd' : d' ∈ s.world.db.deployments)
    (hproject : d.projectId = d'.projectId) (hid : d.id ≠ d'.id)
    (hnew : d.status ≠ .ready ∧
      ∃ t, s.turn cfg e = some t ∧ t.command.readied = some d.id)
    (hready : d'.status = .ready ∨ d'.status ≠ .ready ∧
      ∃ t, s.turn cfg e = some t ∧ t.command.readied = some d'.id) :
    s'.procs.worker.replacing = some (d.id, d'.id) := by
  obtain ⟨hnot, t, ht, hreadied⟩ := hnew
  rcases hready with hready | ⟨_, t', ht', hreadied'⟩
  · exact replacing_of_readied h ht hreadied
      (hok.2 t ht d.id hreadied d hd rfl hnot d' hd' hproject.symm hready)
  · cases ht.symm.trans ht'
    cases hid (Option.some.inj (hreadied.symm.trans hreadied'))

theorem oneLive_step (hs : s.OneLive) (hok : TakesOver cfg s e) (h : s.step cfg e = some s') :
    s'.OneLive := by
  intro d₁ hd₁ d₂ hd₂ hproject hready₁ hready₂ hid
  obtain ⟨d, hd, hid₁, hproject₁, hd_ready⟩ := ready_step h hd₁ hready₁
  obtain ⟨d', hd', hid₂, hproject₂, hd'_ready⟩ := ready_step h hd₂ hready₂
  have hprojects : d.projectId = d'.projectId := hproject₁.trans (hproject.trans hproject₂.symm)
  rw [← hid₁, ← hid₂] at hid ⊢
  rcases hd_ready with hold | hnew
  · rcases hd'_ready with hold' | hnew'
    · -- both were READY: the worker goes on with the replacement
      have hgone {a : DeploymentId} {d₀ : Deployment} (hd₀ : d₀ ∈ s'.world.db.deployments)
          (hready : d₀.status = .ready) (ha : a = d₀.id) (hfalse : s'.world.isReady a = false) :
          False := by
        rw [ha, World.isReady_of_mem hd₀ hready] at hfalse
        cases hfalse
      rcases hs d hd d' hd' hprojects hold hold' hid with hx | hx
      · have hstill := replacing_step hok.1 h hx (World.isReady_of_mem hd' hold')
        exact Or.inl (hstill.resolve_right (hgone hd₂ hready₂ hid₂))
      · have hstill := replacing_step hok.1 h hx (World.isReady_of_mem hd hold)
        exact Or.inr (hstill.resolve_right (hgone hd₁ hready₁ hid₁))
    · exact Or.inr (replacing_of_takesOver hok h hd' hd hprojects.symm hid.symm hnew' (Or.inl hold))
  · exact Or.inl (replacing_of_takesOver hok h hd hd' hprojects hid hnew hd'_ready)

end State

/-- Outside the replacement of one deployment by another each project has at most one READY
deployment, in every run in which a deployment becomes READY only beside the one its job names as
the previous one, and the worker then marks that one SUPERSEDED. -/
theorem one_live {s : State} (h : Reaches (State.step cfg) (TakesOver cfg) State.initial s)
    (hworker : s.procs.worker.replacing = none) :
    ∀ d ∈ s.world.db.deployments, ∀ d' ∈ s.world.db.deployments, d.projectId = d'.projectId →
      d.status = .ready → d'.status = .ready → d.id = d'.id := by
  have hlive : s.OneLive :=
    h.invariant State.OneLive (fun _ hd => absurd hd List.not_mem_nil)
      fun _ _ _ hs hok hstep => State.oneLive_step hs hok hstep
  intro d hd d' hd' hproject hready hready'
  by_contra hid
  rcases hlive d hd d' hd' hproject hready hready' hid with hx | hx <;>
    · rw [hworker] at hx
      cases hx

/-! ## A shop that is pushed to -/

theorem one_live_shop :
    ∃ s d, Reaches (State.step Config.clear) (TakesOver Config.clear) State.initial s ∧
      d ∈ s.world.db.deployments ∧ d.status = .ready ∧ s.world.db.deployments.length = 2 ∧
      ∀ d' ∈ s.world.db.deployments, d.projectId = d'.projectId → d'.status = .ready →
        d.id = d'.id := by
  obtain ⟨s, h, hend⟩ := Reaches.exists_of_runEvents (State.step Config.clear)
    (TakesOver Config.clear) State.initial
    (shopCreated ++ shopWorker 23 ++ shopRequest (.push WebhooksService.shopPush) 4 ++
      shopWorker 25)
    (fun s => decide (s.procs.worker = .idle) && s.world.db.deployments.length == 2 &&
      s.world.db.deployments.any fun d => d.status == .ready)
    (by decide) (by decide)
  simp only [Bool.and_eq_true, decide_eq_true_eq, beq_iff_eq, List.any_eq_true] at hend
  obtain ⟨⟨hidle, hlength⟩, d, hd, hready⟩ := hend
  refine ⟨s, d, h, hd, hready, hlength, fun d' hd' hproject hready' => ?_⟩
  exact one_live h (by rw [hidle]; rfl) d hd d' hd' hproject hready hready'

/-- A redeploy's job names no previous deployment. -/
theorem not_one_live :
    ¬∀ (cfg : Config) (s : State),
      Reaches (State.step cfg) (fun _ e => e.succeeds = true) State.initial s →
        s.procs.worker.replacing = none →
          ∀ d ∈ s.world.db.deployments, ∀ d' ∈ s.world.db.deployments, d.projectId = d'.projectId →
            d.status = .ready → d'.status = .ready → d.id = d'.id := by
  intro h
  obtain ⟨s, hs, hend⟩ := Reaches.exists_of_runEvents (State.step Config.clear)
    (fun _ e => e.succeeds = true) State.initial
    (shopCreated ++ shopWorker 23 ++ shopRequest (.createDeployment 1 1) 6 ++ shopWorker 23)
    (fun s => decide (s.procs.worker = .idle) && s.world.db.deployments.any fun d =>
      s.world.db.deployments.any fun d' => d.projectId == d'.projectId && d.status == .ready &&
        d'.status == .ready && d.id != d'.id)
    (by decide) (by decide)
  simp only [Bool.and_eq_true, decide_eq_true_eq, List.any_eq_true, beq_iff_eq,
    bne_iff_ne] at hend
  obtain ⟨hidle, d, hd, d', hd', ⟨⟨hproject, hready⟩, hready'⟩, hid⟩ := hend
  exact hid (h Config.clear s hs (by rw [hidle]; rfl) d hd d' hd' hproject hready hready')

end System
end Code2Cloud
