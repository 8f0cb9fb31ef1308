import Code2Cloud.System.Backed
import Code2Cloud.System.Commands
import Code2Cloud.System.Lifecycle
import Code2Cloud.System.Removal

/-!
# Foreign keys

Every row of the deployment table is of a project with a row, and a job is of the project of its
deployment.
-/

namespace Code2Cloud
namespace System

open Api Worker

variable {cfg : Config} {w : World} {s s' : State} {e : Event}

/-- A row that is left after a command keeps its project. -/
theorem World.hasProject_of_row {c : Command} {d : Deployment}
    (hd : d ∈ (w.exec cfg c).db.deployments) (h : w.hasProject d.projectId = true) :
    (w.exec cfg c).hasProject d.projectId = true := by
  refine hasProject_exec_of_ne ?_ h
  rintro rfl
  have hkept := (List.mem_filter.mp hd).2
  simp at hkept

/-! ## Transactions -/

/-- The rows are those that `ProjectsService.create` inserts. -/
def Drafts (cfg : Config) (w : World) (draft : Draft) : Prop :=
  ∃ hash ivs userId dto commit, draft =
    ProjectsService.draft cfg.encryption cfg.deployDomain hash ivs w.now w.db userId dto commit

theorem Drafts.projectId {draft : Draft} (h : Drafts cfg w draft) :
    draft.deployment.projectId = draft.project.id := by
  obtain ⟨hash, ivs, userId, dto, commit, rfl⟩ := h
  rfl

theorem Drafts.id {draft : Draft} (h : Drafts cfg w draft) :
    draft.deployment.id = w.db.nextId + 1 ∧ draft.deployment.projectId = w.db.nextId := by
  obtain ⟨hash, ivs, userId, dto, commit, rfl⟩ := h
  exact ⟨rfl, rfl⟩

theorem drafts_of_openDraft {c : Call} {r : Reply} {draft : Draft}
    (h : (c.step cfg w r).command = .openDraft draft) : Drafts cfg w draft := by
  have hissued := issuedBy_step cfg w r c
  rw [h] at hissued
  obtain ⟨userId, dto, _, commit, hdraft, _⟩ := hissued
  exact ⟨_, _, userId, dto, commit, hdraft⟩

theorem draft_before {c c' : Call} {r : Reply} {draft : Draft}
    (h : (c.step cfg w r).next = some c') (hdraft : c'.draft = some draft) :
    c.draft = some draft ∨ Drafts cfg w draft := by
  have hopen {command : Command} (hcommand : command = .openDraft draft)
      (h : (c.step cfg w r).command = command) : Drafts cfg w draft :=
    drafts_of_openDraft (h.trans hcommand)
  have hinserts := inserts_step cfg w c r
  rw [h, Option.bind_some, hdraft] at hinserts
  generalize hcommand : (c.step cfg w r).command = command at hinserts
  generalize c.draft = held at hinserts
  cases hinserts with
  | openDraft => exact Or.inr (hopen rfl hcommand)
  | keep => exact Or.inl rfl

/-- A call commits the transaction that it holds. -/
theorem draft_of_commit {c : Call} {r : Reply} {draft : Draft}
    (h : (c.step cfg w r).command = .commitDraft draft) : c.draft = some draft := by
  have hinserts := inserts_step cfg w c r
  rw [h] at hinserts
  generalize (c.step cfg w r).next.bind Call.draft = next at hinserts
  generalize hheld : c.draft = held at hinserts
  cases hinserts with
  | none hnone => cases hnone
  | row _ _ hmint => cases hmint
  | keep hnone => cases hnone
  | commit => rfl

namespace State

theorem draft_step_cases (h : s.step cfg e = some s') {c' : Call} (hc' : c' ∈ s'.procs.calls)
    {draft : Draft} (hdraft : c'.draft = some draft) :
    (∃ c ∈ s.procs.calls, c.draft = some draft) ∨ Drafts cfg s.world draft := by
  cases origin_step h hc' with
  | old hold => exact Or.inl ⟨c', hold, hdraft⟩
  | start r => cases r <;> cases hdraft
  | @next i r c _ hc hnext =>
    exact (draft_before hnext hdraft).imp_left fun hheld => ⟨c, List.mem_of_getElem? hc, hheld⟩
  | late => cases hdraft

/-- Every deployment is of a project with a row. -/
structure Referenced (s : State) : Prop where
  deployments : ∀ d ∈ s.world.db.deployments, s.world.hasProject d.projectId = true
  drafts : ∀ c ∈ s.procs.calls, ∀ draft, c.draft = some draft →
    draft.deployment.projectId = draft.project.id

theorem referenced_initial : initial.Referenced where
  deployments _ hd := absurd hd List.not_mem_nil
  drafts _ hc := absurd hc List.not_mem_nil

theorem holder_of_commit {t : Turn Processes} (ht : s.turn cfg e = some t) {draft : Draft}
    (hc : t.command = .commitDraft draft) : ∃ c ∈ s.procs.calls, c.draft = some draft := by
  rcases command_turn ht with ⟨i, r, c, rfl, hi, hcommand⟩ | ⟨r, rfl, hcommand⟩ | hb
  · exact ⟨c, List.mem_of_getElem? hi, draft_of_commit (hcommand.symm.trans hc)⟩
  · have hbackground := (background_worker cfg s.world r s.procs.worker).command
    rw [← hcommand, hc] at hbackground
    cases hbackground
  · rw [hc] at hb
    cases hb

/-- A project has no deployment before it is committed. -/
theorem Referenced.projectId_ne (hs : s.Referenced) (hl : s.Listed) {t : Turn Processes}
    (ht : s.turn cfg e = some t) {draft : Draft} (hc : t.command = .commitDraft draft)
    {d : Deployment} (hd : d ∈ s.world.db.deployments) : d.projectId ≠ draft.project.id := by
  intro hid
  obtain ⟨c, hmem, hdraft⟩ := holder_of_commit ht hc
  have hcall : 0 < s.procs.calls.countP (Call.draftsProject draft.project.id) := by
    refine List.countP_pos_iff.mpr ⟨c, hmem, ?_⟩
    rw [Call.draftsProject, hdraft]
    exact beq_self_eq_true _
  have hrow : 0 < projectsOf draft.project.id s.world.db.projects := by
    rw [projectsOf, List.countP_pos_iff]
    exact List.any_eq_true.mp (hid ▸ hs.deployments d hd)
  have hone := (hl draft.project.id).1
  rw [projectRows] at hone
  omega

/-- A row that a step inserts is of a project with a row, or comes with it. -/
theorem Referenced.inserted (hs : s.Referenced) {t : Turn Processes} (ht : s.turn cfg e = some t)
    {d : Deployment} (hd : d ∈ t.command.inserted) :
    (s.world.exec cfg t.command).hasProject d.projectId = true := by
  have hadmits := admits_turn ht
  have hstored (h : (s.world.db.findProject d.projectId).isSome = true) :
      s.world.hasProject d.projectId = true := by
    rw [Database.findProject, List.find?_isSome] at h
    exact List.any_eq_true.mpr h
  rcases mem_inserted.mp hd with hc | hc | ⟨draft, hc, rfl⟩
  · rw [hc] at hadmits ⊢
    refine World.hasProject_of_row ?_ (hstored hadmits)
    exact List.mem_append_right _ (List.mem_singleton_self _)
  · rw [hc] at hadmits ⊢
    refine World.hasProject_of_row ?_ (hstored hadmits)
    exact List.mem_append_right _ (List.mem_singleton_self _)
  · obtain ⟨c, hmem, hdraft⟩ := holder_of_commit ht hc
    have hlinked := hs.drafts c hmem draft hdraft
    rw [hc]
    refine List.any_eq_true.mpr ⟨draft.project, ?_, ?_⟩
    · exact List.mem_append_right _ (List.mem_singleton_self _)
    · rw [hlinked]
      exact beq_self_eq_true _

theorem referenced_step (hs : s.Referenced) (h : s.step cfg e = some s') : s'.Referenced where
  deployments d' hd' := by
    obtain ⟨t, ht, _, rfl⟩ := step_eq_some_iff.mp h
    rcases World.mem_deployments_exec (shuffles_turn ht) hd' with hd | ⟨d, hd, _, hsame⟩
    · exact hs.inserted ht hd
    · have hproject : d'.projectId = d.projectId := by
        rcases hsame with rfl | ⟨st, _, rfl⟩
        · rfl
        · exact StatusWrite.apply_projectId _ _ _
      exact World.hasProject_of_row hd' (hproject ▸ hs.deployments d hd)
  drafts c' hc' draft hdraft := by
    rcases draft_step_cases h hc' hdraft with ⟨c, hc, hheld⟩ | hnew
    · exact hs.drafts c hc draft hheld
    · exact hnew.projectId

/-! ## Jobs and the rows of their deployments -/

/-- The deployment is of the project, if it has a row or is to get one. -/
structure Belongs (s : State) (id : DeploymentId) (p : ProjectId) : Prop where
  lt : id < s.world.db.nextId
  rows : ∀ d ∈ s.world.db.deployments, d.id = id → d.projectId = p
  drafts : ∀ c ∈ s.procs.calls, ∀ draft, c.draft = some draft → draft.deployment.id = id →
    draft.deployment.projectId = p

theorem nextId_turn (h : s.step cfg e = some s') {t : Turn Processes} (ht : s.turn cfg e = some t) :
    s'.world.db.nextId = s.world.db.nextId + World.minted t.command := by
  obtain ⟨t', ht', _, rfl⟩ := step_eq_some_iff.mp h
  cases ht.symm.trans ht'
  rw [after, World.record_db, World.nextId_exec]

theorem id_of_create {t : Turn Processes} (ht : s.turn cfg e = some t) {d : Deployment}
    (hc : t.command = .createDeployment d ∨ t.command = .createRedeployment d) :
    d.id = s.world.db.nextId := by
  have hinserted : t.command.inserted = [d] := by
    rcases hc with hc | hc <;> rw [hc] <;> rfl
  have hnone (h : t.command.inserted = []) : d.id = s.world.db.nextId := by
    cases hinserted.symm.trans h
  rcases command_turn ht with ⟨i, r, c, rfl, hi, hcommand⟩ | ⟨r, rfl, hcommand⟩ | hb
  · have hinserts := inserts_step cfg s.world c r
    rw [← hcommand] at hinserts
    generalize c.draft = held at hinserts
    generalize (c.step cfg s.world r).next.bind Call.draft = next at hinserts
    generalize t.command = command at hinserts hinserted hnone hc
    cases hinserts with
    | none h => exact hnone h
    | keep h => exact hnone h
    | openDraft => exact hnone rfl
    | row h hid =>
      cases hinserted.symm.trans h
      exact hid
    | commit => rcases hc with hc | hc <;> cases hc
  · exact hnone (hcommand ▸ inserted_of_background (background_worker cfg s.world r _).command)
  · exact hnone (inserted_of_bystander hb)

theorem belongs_step {id : DeploymentId} {p : ProjectId} (hid : s.Belongs id p)
    (h : s.step cfg e = some s') : s'.Belongs id p where
  lt := by
    obtain ⟨t, ht, _⟩ := step_eq_some_iff.mp h
    rw [nextId_turn h ht]
    exact Nat.lt_add_right _ hid.lt
  rows d' hd' hd'id := by
    obtain ⟨t, ht, _, rfl⟩ := step_eq_some_iff.mp h
    rcases World.mem_deployments_exec (shuffles_turn ht) hd' with hd | ⟨d, hd, hsame, hwritten⟩
    · have hold (hnew : d'.id = s.world.db.nextId) : d'.projectId = p :=
        absurd (hnew.symm.trans hd'id) hid.lt.ne'
      rcases mem_inserted.mp hd with hc | hc | ⟨draft, hc, rfl⟩
      · exact hold (id_of_create ht (Or.inl hc))
      · exact hold (id_of_create ht (Or.inr hc))
      · obtain ⟨c, hmem, hdraft⟩ := holder_of_commit ht hc
        exact hid.drafts c hmem draft hdraft hd'id
    · have hproject : d'.projectId = d.projectId := by
        rcases hwritten with rfl | ⟨st, _, rfl⟩
        · rfl
        · exact StatusWrite.apply_projectId _ _ _
      rw [hproject]
      exact hid.rows d hd (hsame.symm.trans hd'id)
  drafts c' hc' draft hdraft hdraftid := by
    rcases draft_step_cases h hc' hdraft with ⟨c, hc, hheld⟩ | hnew
    · exact hid.drafts c hc draft hheld hdraftid
    · have hlt := hid.lt
      rw [← hdraftid, hnew.id.1] at hlt
      exact absurd hlt (Nat.not_lt.mpr (Nat.le_succ _))

/-- The project of a row is known by the row's identifier. -/
theorem Tabled.belongs (hs : s.Tabled) {d : Deployment} (hd : d ∈ s.world.db.deployments) :
    s.Belongs d.id d.projectId where
  lt := (hs.settled hd).1
  rows d' hd' hid := by rw [hs.eq_of_id hd hd' hid]
  drafts c hc draft hdraft hid := by
    have hnone := (hs.settled hd).2 c hc
    rw [Call.drafts, hdraft, Option.any_some, beq_eq_false_iff_ne] at hnone
    exact absurd hid hnone

/-- The jobs on their way to the worker, and its own, are of the projects of their deployments. -/
structure Matched (s : State) : Prop where
  held : ∀ c ∈ s.procs.calls, ∀ job, c.held = some job →
    s.Belongs job.deploymentId job.projectId
  queue : ∀ job ∈ s.world.redis.buildQueue, s.Belongs job.deploymentId job.projectId
  worker : ∀ job, s.procs.worker.job = some job → s.Belongs job.deploymentId job.projectId

theorem matched_initial : initial.Matched where
  held _ hc := absurd hc List.not_mem_nil
  queue _ hjob := absurd hjob List.not_mem_nil
  worker _ hjob := by cases hjob

theorem Tabled.draft_lt (hs : s.Tabled) {c : Call} (hc : c ∈ s.procs.calls) {draft : Draft}
    (hdraft : c.draft = some draft) : draft.deployment.id < s.world.db.nextId := by
  refine hs.lt (Nat.lt_of_lt_of_le ?_ (Nat.le_add_left _ _))
  refine List.countP_pos_iff.mpr ⟨c, hc, ?_⟩
  rw [Call.drafts, hdraft]
  exact beq_self_eq_true _

theorem drafts_of_turn {t : Turn Processes} (ht : s.turn cfg e = some t) {draft : Draft}
    (hc : t.command = .openDraft draft) : Drafts cfg s.world draft := by
  rcases command_turn ht with ⟨i, r, c, rfl, hi, hcommand⟩ | ⟨r, rfl, hcommand⟩ | hb
  · exact drafts_of_openDraft (hcommand.symm.trans hc)
  · have hbackground := (background_worker cfg s.world r s.procs.worker).command
    rw [← hcommand, hc] at hbackground
    cases hbackground
  · rw [hc] at hb
    cases hb

/-- A job that a call takes up belongs to the row that comes with it. -/
theorem belongs_of_holds (hs : s.Tabled) (h : s.step cfg e = some s') {t : Turn Processes}
    (ht : s.turn cfg e = some t) {held : Option BuildJob} {job : BuildJob}
    (hholds : Holds s.world held t.command (some job)) :
    s'.Belongs job.deploymentId job.projectId := by
  obtain ⟨t', ht', _, rfl⟩ := step_eq_some_iff.mp h
  cases ht.symm.trans ht'
  have hnext := nextId_turn h ht
  have hrow {d : Deployment} (hd : d ∈ (s.after cfg t).world.db.deployments)
      (hid : s.world.db.nextId ≤ d.id) : d ∈ t.command.inserted := by
    rcases World.mem_deployments_exec (shuffles_turn ht) hd with hnew | ⟨d', hd', hsame, _⟩
    · exact hnew
    · exact absurd (hs.settled hd').1 (Nat.not_lt.mpr (hsame ▸ hid))
  have hdraft {c : Call} (hc : c ∈ (s.after cfg t).procs.calls) {draft : Draft}
      (hheld : c.draft = some draft) (hid : s.world.db.nextId ≤ draft.deployment.id) :
      Drafts cfg s.world draft := by
    rcases draft_step_cases h hc hheld with ⟨c₀, hc₀, hheld₀⟩ | hnew
    · exact absurd (hs.draft_lt hc₀ hheld₀) (Nat.not_lt.mpr hid)
    · exact hnew
  generalize hcommand : t.command = command at hholds
  rw [hcommand] at hnext hrow
  cases hholds with
  | @insert _ _ job d hc hid _ hjob hproject =>
    have hjobid : job.deploymentId = s.world.db.nextId := hjob.trans hid
    have hinserted : command.inserted = [d] := by
      rcases hc with rfl | rfl <;> rfl
    refine ⟨?_, fun d' hd' hd'id => ?_, fun c hc draft hheld hdraftid => ?_⟩
    · rw [hnext, hjobid]
      rcases hc with rfl | rfl <;> exact Nat.lt_succ_self _
    · have hmem := hrow hd' (hd'id.trans hjobid).ge
      rw [hinserted, List.mem_singleton] at hmem
      rw [hmem, hproject]
    · have hnew := (hdraft hc hheld (hdraftid.trans hjobid).ge).id.1
      rw [hdraftid, hjobid] at hnew
      exact absurd hnew (Nat.succ_ne_self _).symm
  | @openDraft _ draft job hid hjob hproject =>
    have hjobid : job.deploymentId = s.world.db.nextId + 1 := hjob.trans hid
    refine ⟨?_, fun d' hd' hd'id => ?_, fun c hc draft' hheld hdraftid => ?_⟩
    · rw [hnext, hjobid]
      exact Nat.add_lt_add_left (by decide : 1 < 3) _
    · have hmem := hrow hd' (Nat.le_of_succ_le (hd'id.trans hjobid).ge)
      cases hmem
    · have hnew := hdraft hc hheld (Nat.le_of_succ_le (hdraftid.trans hjobid).ge)
      rw [hnew.id.2, hproject, (drafts_of_turn ht hcommand).id.2]

theorem matched_step (hs : s.Matched) (ht : s.Tabled) (h : s.step cfg e = some s') :
    s'.Matched where
  held c hc job hjob := by
    cases origin_step h hc with
    | old hold => exact belongs_step (hs.held c hold job hjob) h
    | start r => cases r <;> cases hjob
    | @next i r c₀ _ hc₀ hnext =>
      have hholds := holds_step cfg s.world c₀ r
      rw [hnext, Option.bind_some, hjob] at hholds
      obtain ⟨t, hturn, _⟩ := step_eq_some_iff.mp h
      have hcommand : t.command = (c₀.step cfg s.world r).command := by
        rw [turn, hc₀, Option.map_some] at hturn
        cases hturn
        rfl
      exact belongs_of_holds ht h hturn (hcommand ▸ hholds)
    | late => cases hjob
  queue job hjob := by
    rcases queue_step h hjob with hold | ⟨t, hturn, hc⟩
    · exact belongs_step (hs.queue job hold) h
    · obtain ⟨c, hmem, hheld⟩ := pushes_turn hturn hc
      exact belongs_step (hs.held c hmem job hheld) h
  worker job hjob := by
    rcases job_step h hjob with hold | ⟨t, queues, _, _, hwait⟩
    · exact belongs_step (hs.worker job hold) h
    · exact belongs_step (hs.queue job (mem_of_waitForJob hwait)) h

end State
end System
end Code2Cloud
