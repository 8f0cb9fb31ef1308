import Code2Cloud.Base.Unmarshal
import Code2Cloud.Worker.Env

/-!
# Payloads

The jobs as the worker's `types` package declares them, and what `json.Unmarshal` makes of
the payloads on the two lists.
-/

namespace Code2Cloud
namespace Worker
namespace Types

open Unmarshal

structure BuildConfig where
  installCommand : String := ""
  buildCommand : String := ""
  runCommand : String := ""
  outputDir : String := ""
  framework : String := ""
  deriving DecidableEq

structure BuildJob where
  deploymentID : String := ""
  projectID : String := ""
  projectName : String := ""
  gitURL : String := ""
  installationID : Int := 0
  branch : String := ""
  commitHash : String := ""
  rootDirectory : String := ""
  buildConfig : BuildConfig := {}
  domains : List String := []
  envVars : EnvMap := []
  previousDeploymentID : String := ""
  deriving DecidableEq

structure ProjectCleanupJob where
  projectID : String := ""
  projectName : String := ""
  activeDeploymentIDs : List String := []
  deriving DecidableEq

def BuildConfig.fields : List (StructField BuildConfig) := [
  field "installCommand" string (·.installCommand) fun c s => { c with installCommand := s },
  field "buildCommand" string (·.buildCommand) fun c s => { c with buildCommand := s },
  field "runCommand" string (·.runCommand) fun c s => { c with runCommand := s },
  field "outputDir" string (·.outputDir) fun c s => { c with outputDir := s },
  field "framework" string (·.framework) fun c s => { c with framework := s }]

def BuildJob.fields : List (StructField BuildJob) := [
  field "deploymentId" string (·.deploymentID) fun job s => { job with deploymentID := s },
  field "projectId" string (·.projectID) fun job s => { job with projectID := s },
  field "projectName" string (·.projectName) fun job s => { job with projectName := s },
  field "gitUrl" string (·.gitURL) fun job s => { job with gitURL := s },
  field "installationId" int (·.installationID) fun job n => { job with installationID := n },
  field "branch" string (·.branch) fun job s => { job with branch := s },
  field "commitHash" string (·.commitHash) fun job s => { job with commitHash := s },
  field "rootDirectory" string (·.rootDirectory) fun job s => { job with rootDirectory := s },
  field "buildConfig" (struct BuildConfig.fields) (·.buildConfig)
    fun job c => { job with buildConfig := c },
  field "domains" (sliceOf string "") (·.domains) fun job ds => { job with domains := ds },
  field "envVars" (stringMap [] EnvMap.set) (·.envVars) fun job m => { job with envVars := m },
  field "previousDeploymentId" string (·.previousDeploymentID)
    fun job s => { job with previousDeploymentID := s }]

def ProjectCleanupJob.fields : List (StructField ProjectCleanupJob) := [
  field "projectId" string (·.projectID) fun job s => { job with projectID := s },
  field "projectName" string (·.projectName) fun job s => { job with projectName := s },
  field "activeDeploymentIds" (sliceOf string "") (·.activeDeploymentIDs)
    fun job ids => { job with activeDeploymentIDs := ids }]

/-- How deep `encoding/json` lets a text nest. -/
def maxNestingDepth : Nat := 10000

/-- `json.Unmarshal` into a new value. -/
def unmarshal {S : Type} (fields : List (StructField S)) (zero : S)
    (payload : GoString) : Option S :=
  (Json.parse maxNestingDepth (GoString.runes 0 payload)).bind fun j => struct fields j zero

def unmarshalBuildJob (payload : GoString) : Option BuildJob :=
  unmarshal BuildJob.fields {} payload

def unmarshalProjectCleanupJob (payload : GoString) : Option ProjectCleanupJob :=
  unmarshal ProjectCleanupJob.fields {} payload

/-- A value that was written is read as it was, down to the depth the reader allows. -/
theorem unmarshal_print {S : Type} (fields : List (StructField S)) (zero : S) (e : Json.Escaping)
    {j : Json} {depth : Nat} (hj : Json.Fits depth j) (hdepth : depth ≤ maxNestingDepth) :
    unmarshal fields zero (GoString.ofRunes (Json.print e j)) = struct fields j zero := by
  rw [unmarshal, GoString.runes_ofRunes, Json.parse_print e (hj.mono hdepth), Option.bind_some]

end Types
end Worker
end Code2Cloud
