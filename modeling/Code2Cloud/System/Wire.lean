import Code2Cloud.Api.Payloads
import Code2Cloud.Base.Relay
import Code2Cloud.System.Redis
import Code2Cloud.Worker.Payloads

/-!
# Jobs on the wire

The lists of Redis hold texts.  What the worker decodes from them, for jobs of the API among
any other payloads.
-/

namespace Code2Cloud
namespace System

open Api Worker

/-! ## One job -/

/-- `installationId` as the worker decodes it: an `int` takes no fraction and no exponent, and keeps
its 0 for `null`. -/
def decoded (installationId : Number) : Option Int := Unmarshal.int installationId.json 0

/-- The job as the worker knows it. -/
def received (ids : IdText) (job : Api.BuildJob) (installationID : Int) : Types.BuildJob where
  deploymentID := ids.text job.deploymentId
  projectID := ids.text job.projectId
  projectName := job.projectName.val
  gitURL := job.gitUrl
  installationID
  branch := job.branch
  commitHash := job.commitHash
  rootDirectory := job.rootDirectory
  buildConfig :=
    { installCommand := job.buildConfig.installCommand
      buildCommand := job.buildConfig.buildCommand
      runCommand := job.buildConfig.runCommand
      outputDir := job.buildConfig.outputDir
      framework := job.buildConfig.framework }
  domains := job.domains
  envVars := EnvMap.merge [job.envVars]
  previousDeploymentID := (job.previousDeploymentId.map ids.text).getD ""

def payload (ids : IdText) (job : Api.BuildJob) : Bytes :=
  QueuesService.stringify (job.data ids).json

theorem getD_orUndefined (s : String) : (QueuesService.orUndefined s).getD "" = s := by
  rw [QueuesService.orUndefined]
  split
  · rename_i h
    rw [Option.getD_none, String.isEmpty_iff.mp h]
  · rfl

section

open QueuesService Unmarshal Types

theorem struct_buildConfig (c : BuildConfigData) :
    struct BuildConfig.fields c.json {} = some
      { installCommand := c.installCommand.getD ""
        buildCommand := c.buildCommand.getD ""
        runCommand := c.runCommand.getD ""
        outputDir := c.outputDir.getD ""
        framework := c.framework } := by
  obtain ⟨framework, installCommand, buildCommand, runCommand, outputDir⟩ := c
  cases installCommand <;> cases buildCommand <;> cases runCommand <;> cases outputDir <;>
    simp [BuildConfigData.json, struct, defined, members, lookup, BuildConfig.fields, field, string]

theorem slice_texts (texts old : List String) :
    sliceOf string "" (.arr (texts.map .str)) old = some texts := by
  have helems : elems string "" (texts.map .str) = some (texts.map id) :=
    elems_map (fun _ => rfl) texts
  rw [sliceOf, helems, List.map_id]

theorem stringMap_texts (kvs : List (String × String)) :
    stringMap [] EnvMap.set (.obj (kvs.map fun kv => (kv.1, .str kv.2))) [] =
      some (EnvMap.merge [kvs]) := by
  rw [stringMap, Unmarshal.entries_map, EnvMap.merge, List.flatten_singleton]

theorem struct_buildJob (d : BuildJobData) :
    struct BuildJob.fields d.json {} = (decoded d.installationId).map fun installationID =>
      { deploymentID := d.deploymentId
        projectID := d.projectId
        projectName := d.projectName
        gitURL := d.gitUrl
        installationID
        branch := d.branch
        commitHash := d.commitHash
        rootDirectory := d.rootDirectory.getD ""
        buildConfig :=
          { installCommand := d.buildConfig.installCommand.getD ""
            buildCommand := d.buildConfig.buildCommand.getD ""
            runCommand := d.buildConfig.runCommand.getD ""
            outputDir := d.buildConfig.outputDir.getD ""
            framework := d.buildConfig.framework }
        domains := d.domains
        envVars := EnvMap.merge [d.envVars]
        previousDeploymentID := d.previousDeploymentId.getD "" } := by
  have hconfig := struct_buildConfig d.buildConfig
  have hdomains := slice_texts d.domains []
  have henvVars := stringMap_texts d.envVars
  rw [BuildJobData.json, struct]
  cases hid : int d.installationId.json 0 <;> cases d.rootDirectory <;>
    cases d.previousDeploymentId <;>
    simp [defined, members, lookup, BuildJob.fields, field, string, decoded, hid, hconfig, hdomains,
      henvVars]

end

/-- A build job is read as it was written, if its installation is. -/
theorem unmarshal_payload (ids : IdText) (job : Api.BuildJob) :
    Types.unmarshalBuildJob (payload ids job) =
      (decoded job.installationId).map (received ids job) := by
  have hread := struct_buildJob (job.data ids)
  rw [Types.unmarshalBuildJob, payload, QueuesService.stringify]
  refine (Types.unmarshal_print _ _ _ (QueuesService.fits_buildJob _) (by decide)).trans ?_
  rw [hread]
  simp only [BuildJob.data, getD_orUndefined]
  rfl

/-- The lists as Redis keeps them: what anyone pushed, and what was popped. -/
abbrev WireTrace := Queues.Trace Bytes Bytes

/-- The lists of the jobs in them. -/
abbrev JobTrace := Queues.Trace Types.BuildJob Types.ProjectCleanupJob

namespace Wire

open Queues

def builds (t : WireTrace) : List Types.BuildJob :=
  t.buildsHanded.filterMap fun e => Types.unmarshalBuildJob e.2

def cleanups (t : WireTrace) : List Types.ProjectCleanupJob :=
  t.cleanupsHanded.filterMap fun e => Types.unmarshalProjectCleanupJob e.2

/-- The payloads that parse are the jobs of the other lists, in the same places. -/
structure Refines (t : WireTrace) (u : JobTrace) : Prop where
  builds : Deque.Reads Types.unmarshalBuildJob t.builds u.builds
  cleanups : Deque.Reads Types.unmarshalProjectCleanupJob t.cleanups u.cleanups

variable {t : WireTrace} {u : JobTrace}

/-- A command that touches the build queue at most, on both. -/
theorem Refines.of_builds (h : Refines t u) {op : Op Bytes Bytes}
    {op' : Op Types.BuildJob Types.ProjectCleanupJob} (hop : Trace.cleanupOp op = none)
    (hop' : Trace.cleanupOp op' = none)
    (hbuilds : Deque.Reads Types.unmarshalBuildJob (t.step op).builds (u.step op').builds) :
    Refines (t.step op) (u.step op') where
  builds := hbuilds
  cleanups := by
    rw [Trace.cleanups_step, Trace.cleanups_step, hop, hop']
    exact h.cleanups

theorem Refines.of_cleanups (h : Refines t u) {op : Op Bytes Bytes}
    {op' : Op Types.BuildJob Types.ProjectCleanupJob} (hop : Trace.buildOp op = none)
    (hop' : Trace.buildOp op' = none)
    (hcleanups : Deque.Reads Types.unmarshalProjectCleanupJob (t.step op).cleanups
      (u.step op').cleanups) :
    Refines (t.step op) (u.step op') where
  builds := by
    rw [Trace.builds_step, Trace.builds_step, hop, hop']
    exact h.builds
  cleanups := hcleanups

/-- A command on the payloads is one on the jobs, or none. -/
theorem refines_step (h : Refines t u) (op : Op Bytes Bytes) :
    ∃ u', (u' = u ∨ ∃ op', u' = u.step op') ∧ Refines (t.step op) u' := by
  cases op with
  | addBuildJob rawJSON =>
    have hpush := Deque.reads_push (p := .right) h.builds rawJSON
    cases hjob : Types.unmarshalBuildJob rawJSON with
    | none =>
      rw [hjob] at hpush
      exact ⟨u, Or.inl rfl, hpush, h.cleanups⟩
    | some job =>
      rw [hjob] at hpush
      exact ⟨_, Or.inr ⟨.addBuildJob job, rfl⟩, h.of_builds rfl rfl hpush⟩
  | waitForJob =>
    have hstep := Trace.builds_step t .waitForJob
    have hstep' := Trace.builds_step u .waitForJob
    rcases Deque.reads_pop (p := .right) h.builds with hnone | hpop
    · refine ⟨u, Or.inl rfl, ?_, ?_⟩
      · rw [hstep]
        exact hnone
      · rw [Trace.cleanups_step]
        exact h.cleanups
    · refine ⟨_, Or.inr ⟨.waitForJob, rfl⟩, h.of_builds rfl rfl ?_⟩
      rw [hstep, hstep']
      exact hpop
  | addProjectCleanupJob rawJSON =>
    have hpush := Deque.reads_push (p := .left) h.cleanups rawJSON
    cases hjob : Types.unmarshalProjectCleanupJob rawJSON with
    | none =>
      rw [hjob] at hpush
      exact ⟨u, Or.inl rfl, h.builds, hpush⟩
    | some job =>
      rw [hjob] at hpush
      exact ⟨_, Or.inr ⟨.addProjectCleanupJob job, rfl⟩, h.of_cleanups rfl rfl hpush⟩
  | popProjectCleanup =>
    have hstep := Trace.cleanups_step t .popProjectCleanup
    have hstep' := Trace.cleanups_step u .popProjectCleanup
    rcases Deque.reads_pop (p := .left) h.cleanups with hnone | hpop
    · refine ⟨u, Or.inl rfl, ?_, ?_⟩
      · rw [Trace.builds_step]
        exact h.builds
      · rw [hstep]
        exact hnone
    · refine ⟨_, Or.inr ⟨.popProjectCleanup, rfl⟩, h.of_cleanups rfl rfl ?_⟩
      rw [hstep, hstep']
      exact hpop

theorem exists_refines (ops : List (Op Bytes Bytes)) :
    ∃ ops', Refines (Trace.run ops) (Trace.run ops') := by
  induction ops using List.reverseRecOn with
  | nil => exact ⟨[], ⟨rfl, rfl, rfl⟩, ⟨rfl, rfl, rfl⟩⟩
  | append_singleton ops op ih =>
    obtain ⟨ops', h⟩ := ih
    rw [Trace.run_concat]
    obtain ⟨u', hu' | ⟨op', hu'⟩, hrefines⟩ := refines_step h op
    · exact ⟨ops', hu' ▸ hrefines⟩
    · refine ⟨ops' ++ [op'], ?_⟩
      rw [Trace.run_concat, ← hu']
      exact hrefines

end Wire

/-- Whatever payloads are pushed on the two lists, and in whichever order they are pushed and
popped, the worker gets its jobs as from lists that hold nothing but jobs.  Every payload that
parses was handed out as its job or still waits; cleanups were handed out in the order they
came. -/
theorem wire_refines (ops : List (Queues.Op Bytes Bytes)) :
    let t : WireTrace := Queues.Trace.run ops
    (∃ ops' : List (Queues.Op Types.BuildJob Types.ProjectCleanupJob),
      let u : JobTrace := Queues.Trace.run ops'
      u.buildsHanded.map (·.2) = Wire.builds t ∧
      u.cleanupsHanded.map (·.2) = Wire.cleanups t ∧
      u.buildsEnqueued.map (·.2) =
        t.buildsEnqueued.filterMap (fun e => Types.unmarshalBuildJob e.2) ∧
      u.cleanupsEnqueued.map (·.2) =
        t.cleanupsEnqueued.filterMap (fun e => Types.unmarshalProjectCleanupJob e.2)) ∧
    (t.buildsEnqueued.filterMap fun e => Types.unmarshalBuildJob e.2).Perm
      (Wire.builds t ++ t.queues.buildQueue.filterMap fun e => Types.unmarshalBuildJob e.2) ∧
    t.cleanupsEnqueued.filterMap (fun e => Types.unmarshalProjectCleanupJob e.2) =
      Wire.cleanups t ++
        t.queues.cleanupQueue.reverse.filterMap fun e => Types.unmarshalProjectCleanupJob e.2 := by
  intro t
  obtain ⟨ops', hbuilds, hcleanups⟩ := Wire.exists_refines ops
  refine ⟨⟨ops', hbuilds.handed, hcleanups.handed, hbuilds.enqueued, hcleanups.enqueued⟩, ?_, ?_⟩
  · have hperm := Deque.enqueued_perm .right (ops.filterMap (Queues.Trace.buildOp (C := Bytes)))
    have hrun : t.builds = _ := Queues.Trace.builds_run ops
    unfold Wire.builds
    rw [← List.filterMap_append]
    refine List.Perm.filterMap _ ?_
    change t.builds.enqueued.Perm (t.builds.handed ++ t.builds.waiting)
    rw [hrun]
    exact hperm
  · have hsplit := Deque.enqueued_lpush (ops.filterMap (Queues.Trace.cleanupOp (B := Bytes)))
    have hrun : t.cleanups = _ := Queues.Trace.cleanups_run ops
    unfold Wire.cleanups
    rw [← List.filterMap_append]
    congr 1
    change t.cleanups.enqueued = t.cleanups.handed ++ t.cleanups.waiting.reverse
    rw [hrun]
    exact hsplit

end System
end Code2Cloud
