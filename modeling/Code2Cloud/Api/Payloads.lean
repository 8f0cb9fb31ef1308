import Code2Cloud.Api.Schema
import Code2Cloud.Base.Json

/-!
# Payloads

What `QueuesService` pushes on its two lists: the JSON text of a job.
-/

namespace Code2Cloud
namespace Api

structure IdText where
  text : Nat → String
  injective : Function.Injective text
  ne_empty : ∀ id, text id ≠ ""

namespace QueuesService

/-- `buildConfig` of `BuildJobData` -/
structure BuildConfigData where
  framework : String
  installCommand : Option String
  buildCommand : Option String
  runCommand : Option String
  outputDir : Option String

/-- `BuildJobData`, with `none` for a field that is `undefined`. -/
structure BuildJobData where
  deploymentId : String
  projectId : String
  projectName : String
  gitUrl : String
  installationId : Number
  branch : String
  commitHash : String
  rootDirectory : Option String
  buildConfig : BuildConfigData
  domains : List String
  /-- In the order of its members. -/
  envVars : List (String × String)
  previousDeploymentId : Option String

structure ProjectCleanupJobData where
  projectId : String
  projectName : String
  activeDeploymentIds : List String

/-- A member that `JSON.stringify` leaves out where its value is `undefined`. -/
def defined (key : String) : Option String → List (String × Json)
  | none => []
  | some value => [(key, .str value)]

def BuildConfigData.json (c : BuildConfigData) : Json :=
  .obj (("framework", .str c.framework) :: (defined "installCommand" c.installCommand ++
    defined "buildCommand" c.buildCommand ++ defined "runCommand" c.runCommand ++
    defined "outputDir" c.outputDir))

def BuildJobData.json (d : BuildJobData) : Json :=
  .obj ([("deploymentId", .str d.deploymentId), ("projectId", .str d.projectId),
      ("projectName", .str d.projectName), ("gitUrl", .str d.gitUrl),
      ("installationId", d.installationId.json), ("branch", .str d.branch),
      ("commitHash", .str d.commitHash)] ++ defined "rootDirectory" d.rootDirectory ++
    [("buildConfig", d.buildConfig.json), ("domains", .arr (d.domains.map .str)),
      ("envVars", .obj (d.envVars.map fun kv => (kv.1, .str kv.2)))] ++
    defined "previousDeploymentId" d.previousDeploymentId)

def ProjectCleanupJobData.json (d : ProjectCleanupJobData) : Json :=
  .obj [("projectId", .str d.projectId), ("projectName", .str d.projectName),
    ("activeDeploymentIds", .arr (d.activeDeploymentIds.map .str))]

/-- `JSON.stringify`, as the bytes that Redis is sent. -/
def stringify (j : Json) : Bytes := (Json.print .minimal j).flatMap String.utf8EncodeChar

/-- `text || undefined` -/
def orUndefined (text : String) : Option String := if text.isEmpty then none else some text

end QueuesService

open QueuesService

/-- The job as the producers build it: texts that are empty are left out. -/
def BuildJob.data (ids : IdText) (job : BuildJob) : BuildJobData where
  deploymentId := ids.text job.deploymentId
  projectId := ids.text job.projectId
  projectName := job.projectName.val
  gitUrl := job.gitUrl
  installationId := job.installationId
  branch := job.branch
  commitHash := job.commitHash
  rootDirectory := orUndefined job.rootDirectory
  buildConfig :=
    { framework := job.buildConfig.framework
      installCommand := orUndefined job.buildConfig.installCommand
      buildCommand := orUndefined job.buildConfig.buildCommand
      runCommand := orUndefined job.buildConfig.runCommand
      outputDir := orUndefined job.buildConfig.outputDir }
  domains := job.domains
  envVars := job.envVars
  previousDeploymentId := job.previousDeploymentId.map ids.text

def ProjectCleanupJob.data (ids : IdText) (job : ProjectCleanupJob) : ProjectCleanupJobData where
  projectId := ids.text job.projectId
  projectName := job.projectName.val
  activeDeploymentIds := job.activeDeploymentIds.map ids.text

namespace QueuesService

theorem fits_defined (key : String) (value : Option String) :
    ∀ m ∈ defined key value, Json.Fits 0 m.2 := by
  intro m hm
  cases value with
  | none => cases hm
  | some text =>
    rw [defined, List.mem_singleton] at hm
    subst hm
    trivial

theorem fits_texts (texts : List String) : Json.Fits 1 (.arr (texts.map .str)) := by
  intro j hj
  obtain ⟨s, _, rfl⟩ := List.mem_map.mp hj
  trivial

theorem fits_buildConfig (c : BuildConfigData) : Json.Fits 1 c.json := by
  intro m hm
  simp only [List.mem_cons, List.mem_append] at hm
  rcases hm with rfl | ((hm | hm) | hm) | hm
  · trivial
  all_goals exact fits_defined _ _ m hm

theorem fits_buildJob (d : BuildJobData) : Json.Fits 2 d.json := by
  intro m hm
  simp only [List.mem_append, List.mem_cons, List.not_mem_nil, or_false] at hm
  rcases hm with ((hm | hm) | hm) | hm
  · rcases hm with rfl | rfl | rfl | rfl | rfl | rfl | rfl
    case inr.inr.inr.inr.inl => exact Number.fits_json _ _
    all_goals trivial
  · exact (fits_defined _ _ m hm).mono (by decide)
  · rcases hm with rfl | rfl | rfl
    · exact fits_buildConfig _
    · exact fits_texts _
    · intro m hm
      obtain ⟨kv, _, rfl⟩ := List.mem_map.mp hm
      trivial
  · exact (fits_defined _ _ m hm).mono (by decide)

end QueuesService
end Api
end Code2Cloud
