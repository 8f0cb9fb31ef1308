import Code2Cloud.System.Hosts
import Code2Cloud.System.Live

/-!
# What a push goes on to do

The projects a push may still insert rows for, the deployments it cancels before that, and those
its jobs will name as the previous ones.
-/

namespace Code2Cloud
namespace System

open Api Worker

variable {cfg : Config} {w : World} {id : DeploymentId}

namespace WebhooksService

open Push

/-- A project, and the deployment in progress that is to be cancelled before its next row is
inserted. -/
def Candidate.target (c : Candidate) : ProjectId × Option DeploymentId :=
  (c.loaded.project.id, c.current.bind fun x => if x.2.inProgress then some x.1 else none)

def Candidate.previous (c : Candidate) : Option DeploymentId :=
  c.current.bind fun x => if x.2 = .ready then some x.1 else none

def Push.targets : Push → List (ProjectId × Option DeploymentId)
  | .findProjects _ => []
  | .publish _ l id rest => (l.project.id, some id) :: rest.map Candidate.target
  | .markCanceled _ l _ rest | .findSystemConfig _ l _ _ rest | .insert _ l _ _ _ rest =>
    (l.project.id, none) :: rest.map Candidate.target
  | .enqueue _ job rest => (job.projectId, none) :: rest.map Candidate.target

def Push.previous : Push → List DeploymentId
  | .findProjects _ => []
  | .publish _ _ _ rest | .markCanceled _ _ _ rest => rest.filterMap Candidate.previous
  | .findSystemConfig _ _ _ previous rest | .insert _ _ _ previous _ rest =>
    previous.toList ++ rest.filterMap Candidate.previous
  | .enqueue _ job rest =>
    job.previousDeploymentId.toList ++ rest.filterMap Candidate.previous

variable {e : EncryptionService} {opts : TriggerOptions} {c y : Push} {r : Reply}

/-- The loop takes up the first candidate that it does not skip. -/
theorem loop_next {cs : List Candidate} (h : loop e opts cs = .next y) :
    ∃ skipped c rest, cs = skipped ++ c :: rest ∧
      y.targets = c.target :: rest.map Candidate.target ∧
      y.previous ⊆ c.previous.toList ++ rest.filterMap Candidate.previous := by
  induction cs with
  | nil => cases h
  | cons c rest ih =>
    have hskip (h : loop e opts rest = .next y) :
        ∃ skipped c' rest', c :: rest = skipped ++ c' :: rest' ∧
          y.targets = c'.target :: rest'.map Candidate.target ∧
          y.previous ⊆ c'.previous.toList ++ rest'.filterMap Candidate.previous := by
      obtain ⟨skipped, c', rest', rfl, htargets⟩ := ih h
      exact ⟨c :: skipped, c', rest', rfl, htargets⟩
    rw [loop] at h
    split at h
    · split at h
      · rename_i id status hcurrent
        split at h
        · rename_i hprogress
          cases h
          refine ⟨[], c, rest, rfl, ?_, List.subset_append_right _ _⟩
          simp [Push.targets, Candidate.target, hcurrent, hprogress]
        · rename_i hprogress
          split at h
          · exact hskip h
          · cases h
            refine ⟨[], c, rest, rfl, ?_, ?_⟩
            · simp [Push.targets, Candidate.target, hcurrent, hprogress]
            · simp [Push.previous, Candidate.previous, hcurrent]
      · rename_i hcurrent
        split at h
        · exact hskip h
        · cases h
          refine ⟨[], c, rest, rfl, ?_, ?_⟩
          · simp [Push.targets, Candidate.target, hcurrent]
          · simp [Push.previous]
    · exact hskip h

theorem targets_loop {cs : List Candidate} (h : loop e opts cs = .next y) :
    y.targets <:+ cs.map Candidate.target := by
  obtain ⟨skipped, c, rest, rfl, htargets, _⟩ := loop_next h
  rw [htargets, List.map_append, List.map_cons]
  exact List.suffix_append _ _

theorem previous_loop {cs : List Candidate} (h : loop e opts cs = .next y) :
    y.previous ⊆ cs.filterMap Candidate.previous := by
  obtain ⟨skipped, c, rest, rfl, _, hprevious⟩ := loop_next h
  refine fun id hid => ?_
  rw [List.filterMap_append, List.filterMap_cons]
  refine List.mem_append_right _ ?_
  have hmem := hprevious hid
  cases hc : c.previous <;> simpa [hc] using hmem

theorem targets_afterCancel {l : Loaded} {rest : List Candidate}
    (h : afterCancel e opts l rest = .next y) :
    y.targets <:+ (l.project.id, none) :: rest.map Candidate.target := by
  rw [afterCancel] at h
  split at h
  · exact (targets_loop h).trans (List.suffix_cons _ _)
  · cases h
    exact List.suffix_rfl

theorem previous_afterCancel {l : Loaded} {rest : List Candidate}
    (h : afterCancel e opts l rest = .next y) :
    y.previous ⊆ rest.filterMap Candidate.previous := by
  rw [afterCancel] at h
  split at h
  · exact previous_loop h
  · cases h
    exact List.Subset.refl _

/-- A push goes on with projects that it has read, and with none before the deployment in progress
is cancelled. -/
theorem targets_step (h : (c.step cfg w r).next = .next y) :
    (∃ payload, c = .findProjects payload ∧
      y.targets <:+ (candidates w.db payload).map Candidate.target) ∨
    (∃ p id rest, c.targets = (p, some id) :: rest ∧ y.targets = (p, none) :: rest ∧
      (c.step cfg w r).command = .publishCancelSignal id) ∨
    y.targets <:+ c.targets := by
  cases c with
  | findProjects payload =>
    rw [Push.step] at h
    split at h
    · cases h
    · split at h
      · cases h
      · rw [query] at h
        split at h
        · exact Or.inl ⟨payload, rfl, targets_loop h⟩
        · cases h
  | publish opts l id rest =>
    rw [Push.step] at h ⊢
    rcases issue_cases w r.outcome (.publishCancelSignal id)
      (Flow.next (markCanceled opts l id rest)) (loop cfg.encryption opts rest) [] [] with
      ⟨_, ht⟩ | ⟨_, ht⟩ | ht <;> rw [ht] at h ⊢
    · cases h
      exact Or.inr (Or.inl ⟨_, id, _, rfl, rfl, rfl⟩)
    · exact Or.inr (Or.inr ((targets_loop h).trans (List.suffix_cons _ _)))
    · exact Or.inr (Or.inr ((targets_loop h).trans (List.suffix_cons _ _)))
  | markCanceled opts l id rest =>
    rw [Push.step] at h
    refine Or.inr (Or.inr ?_)
    rcases next_issue w r.outcome (.writeStatus id .webhookCancel)
      (afterCancel cfg.encryption opts l rest) (loop cfg.encryption opts rest) [.acknowledged id] []
      with hn | hn <;> rw [hn] at h
    · exact targets_afterCancel h
    · exact (targets_loop h).trans (List.suffix_cons _ _)
  | findSystemConfig opts l envVars previous rest =>
    rw [Push.step, query] at h
    refine Or.inr (Or.inr ?_)
    split at h
    · cases h
      exact List.suffix_rfl
    · exact (targets_loop h).trans (List.suffix_cons _ _)
  | insert opts l envVars previous region rest =>
    rw [Push.step] at h
    refine Or.inr (Or.inr ?_)
    rcases next_issue w r.outcome (.createDeployment (row w opts l region))
      (.next (enqueue opts (job opts l envVars previous (row w opts l region).id) rest))
      (loop cfg.encryption opts rest) [] [] with hn | hn <;> rw [hn] at h
    · cases h
      exact List.suffix_rfl
    · exact (targets_loop h).trans (List.suffix_cons _ _)
  | enqueue opts job rest =>
    rw [Push.step] at h
    refine Or.inr (Or.inr ?_)
    rcases next_issue w r.outcome (.addBuildJob job) (loop cfg.encryption opts rest)
      (loop cfg.encryption opts rest) [] [] with hn | hn <;> rw [hn] at h <;>
      exact (targets_loop h).trans (List.suffix_cons _ _)

theorem targets_held (cfg : Config) (w : World) (r : Reply) {job : BuildJob}
    (hjob : (Call.push c).held = some job) :
    ∃ rest, c.targets = (job.projectId, none) :: rest ∧
      ∀ y, (c.step cfg w r).next = .next y → y.targets <:+ rest := by
  cases c with
  | enqueue opts job' rest =>
    cases hjob
    refine ⟨_, rfl, fun y h => ?_⟩
    rw [Push.step] at h
    rcases next_issue w r.outcome (.addBuildJob job) (loop cfg.encryption opts rest)
      (loop cfg.encryption opts rest) [] [] with hn | hn <;> rw [hn] at h <;>
      exact targets_loop h
  | _ => cases hjob

/-- A push inserts a row when it has no deployment of the project left to cancel. -/
theorem targets_insert {d : Deployment} (h : d ∈ (c.step cfg w r).command.inserted) :
    (d.projectId, none) ∈ c.targets := by
  cases c with
  | findProjects payload =>
    rw [Push.step] at h
    split at h
    · cases h
    · split at h
      · cases h
      · rw [inserted_query] at h
        cases h
  | insert opts l envVars previous region rest =>
    rw [Push.step] at h
    rcases command_issue w r.outcome (.createDeployment (row w opts l region))
      (.next (enqueue opts (job opts l envVars previous (row w opts l region).id) rest))
      (loop cfg.encryption opts rest) [] [] with hn | hn <;> rw [hn] at h
    · rw [List.mem_singleton.mp h]
      exact List.mem_cons_self
    · cases h
  | findSystemConfig opts l envVars previous rest =>
    rw [Push.step, inserted_query] at h
    cases h
  | publish | markCanceled | enqueue =>
    rw [Push.step, inserted_issue rfl] at h
    cases h

theorem held_insert {job : BuildJob} (h : (c.step cfg w r).next = .next y)
    (hheld : (Call.push y).held = some job) :
    ∃ d ∈ (c.step cfg w r).command.inserted, d.id = w.db.nextId ∧ d.status = .queued ∧
      job.deploymentId = d.id ∧ job.projectId = d.projectId := by
  have hholds := holds_step cfg w (.push c) r
  have hbuilds := builds_call cfg w (c := .push c) rfl r
  have hnext : ((Call.push c).step cfg w r).next = some (.push y) := by
    rw [Call.step, Turn.map, h]
    rfl
  rw [hnext, Option.bind_some, hheld] at hholds
  rw [Call.step, Turn.command_map] at hholds hbuilds
  generalize (Call.push c).held = held at hholds
  generalize (c.step cfg w r).command = command at hholds hbuilds ⊢
  cases hholds with
  | @insert _ _ _ d hinsert hid hqueued hjob hproject =>
    refine ⟨d, ?_, hid, hqueued, hjob, hproject⟩
    rcases hinsert with rfl | rfl <;> exact List.mem_singleton_self _
  | openDraft => cases hbuilds

/-- The previous deployments that a push names are READY when it reads them. -/
theorem previous_step (h : (c.step cfg w r).next = .next y) (hid : id ∈ y.previous) :
    id ∈ c.previous ∨ w.isReady id = true := by
  cases c with
  | findProjects payload =>
    rw [Push.step] at h
    split at h
    · cases h
    · split at h
      · cases h
      · rw [query] at h
        split at h
        · obtain ⟨c, hc, hprevious⟩ := List.mem_filterMap.mp (previous_loop h hid)
          obtain ⟨p, _, _, _, _, rfl⟩ := mem_candidates.mp hc
          refine Or.inr ?_
          rw [Candidate.previous, candidate] at hprevious
          obtain ⟨x, hx, hready⟩ := Option.bind_eq_some_iff.mp hprevious
          obtain ⟨d, hd, rfl⟩ := Option.map_eq_some_iff.mp hx
          split at hready
          · rename_i hstatus
            cases hready
            have hmem := List.mem_of_mem_filter (List.mem_of_mem_filter (Database.mem_of_latest hd))
            exact World.isReady_of_mem hmem hstatus
          · cases hready
        · cases h
  | publish opts l id' rest =>
    rw [Push.step] at h
    rcases next_issue w r.outcome (.publishCancelSignal id')
      (Flow.next (markCanceled opts l id' rest)) (loop cfg.encryption opts rest) [] [] with
      hn | hn <;> rw [hn] at h
    · cases h
      exact Or.inl hid
    · exact Or.inl (previous_loop h hid)
  | markCanceled opts l id' rest =>
    rw [Push.step] at h
    rcases next_issue w r.outcome (.writeStatus id' .webhookCancel)
      (afterCancel cfg.encryption opts l rest) (loop cfg.encryption opts rest)
      [.acknowledged id'] [] with hn | hn <;> rw [hn] at h
    · exact Or.inl (previous_afterCancel h hid)
    · exact Or.inl (previous_loop h hid)
  | findSystemConfig opts l envVars previous rest =>
    rw [Push.step, query] at h
    split at h
    · cases h
      exact Or.inl hid
    · exact Or.inl (List.mem_append_right _ (previous_loop h hid))
  | insert opts l envVars previous region rest =>
    rw [Push.step] at h
    rcases next_issue w r.outcome (.createDeployment (row w opts l region))
      (.next (enqueue opts (job opts l envVars previous (row w opts l region).id) rest))
      (loop cfg.encryption opts rest) [] [] with hn | hn <;> rw [hn] at h
    · cases h
      exact Or.inl hid
    · exact Or.inl (List.mem_append_right _ (previous_loop h hid))
  | enqueue opts job rest =>
    rw [Push.step] at h
    rcases next_issue w r.outcome (.addBuildJob job) (loop cfg.encryption opts rest)
      (loop cfg.encryption opts rest) [] [] with hn | hn <;> rw [hn] at h <;>
      exact Or.inl (List.mem_append_right _ (previous_loop h hid))

/-! ## What a push reads -/

variable {db : Database} {payload : PushEventPayload}

theorem target_candidate {p : Project} {d : Deployment} (hd : d ∈ db.deployments)
    (hproject : d.projectId = p.id) (hprogress : d.status.inProgress = true)
    (hlatest : ∀ d' ∈ db.deployments, d'.projectId = p.id → d'.status.active = true →
      d' = d ∨ d'.startedAt < d.startedAt) :
    (candidate db p).target = (p.id, some d.id) := by
  have hactive : d.status.active = true := by
    rw [DeploymentStatus.active, hprogress, Bool.true_or]
  have hcurrent : Database.latest ((db.deploymentsOf p.id).filter fun d => d.status.active) =
      some d := by
    refine Database.latest_eq_some ?_ fun d' hd' => ?_
    · rw [List.mem_filter, Database.deploymentsOf, List.mem_filter, beq_iff_eq]
      exact ⟨⟨hd, hproject⟩, hactive⟩
    · rw [List.mem_filter, Database.deploymentsOf, List.mem_filter, beq_iff_eq] at hd'
      exact hlatest d' hd'.1.1 hd'.1.2 hd'.2
  simp [Candidate.target, candidate, load, hcurrent, hprogress]

theorem projects_candidates :
    (((candidates db payload).map Candidate.target).map Prod.fst).Sublist
      (db.projects.map (·.id)) := by
  rw [candidates, List.map_map, List.map_map]
  exact List.filter_sublist.map _

end WebhooksService
end System
end Code2Cloud
