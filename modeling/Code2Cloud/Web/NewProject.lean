import Code2Cloud.Api.Nest
import Code2Cloud.Api.Payloads
import Code2Cloud.Api.Settings
import Code2Cloud.Base.Trim

/-!
# The dialog for a new project

The form that `NewProjectDialog` fills from a repository, its check, and the request that it
sends.
-/

namespace Code2Cloud
namespace Web

open Api Trim
open Api.SettingsService (isTrimmed)
open Api.QueuesService (defined stringify)

/-- The fields of `GitRepository` that the dialog reads. -/
structure GitRepository where
  id : Nat
  name : String
  fullName : String
  url : String
  cloneUrl : String
  language : Option String
  defaultBranch : String
  framework : String
  installCommand : String
  buildCommand : String
  runCommand : String
  outputDirectory : String

/-- `ProjectSchema` -/
structure ProjectForm where
  projectName : String
  rootDirectory : String
  framework : String
  buildCommand : Option String
  outputDirectory : Option String
  installCommand : Option String
  runCommand : Option String
  pythonVersion : Option String
  envVars : List (String × String)

namespace NewProjectDialog

def projectSchema (data : ProjectForm) : Bool :=
  acceptsProjectName data.projectName && !data.rootDirectory.isEmpty

/-- `[^a-zA-Z0-9-]` is replaced, a code unit at a time. -/
def replaceOthers (name : String) : String :=
  String.ofList (name.toList.flatMap fun c =>
    if c.isAlphanum || c == '-' then [c] else if c.toNat ≤ 0xffff then ['-'] else ['-', '-'])

def handleImport (repo : GitRepository) : ProjectForm where
  projectName := replaceOthers repo.name
  rootDirectory := "./"
  framework := if repo.framework.isEmpty then "unknown" else repo.framework
  buildCommand := some repo.buildCommand
  outputDirectory := some repo.outputDirectory
  installCommand := some repo.installCommand
  runCommand := some repo.runCommand
  pythonVersion := some ""
  envVars := [("", "")]

/-- `selectedRepo.fullName.split('/')[0]` -/
def owner (repo : GitRepository) : String :=
  String.ofList ((repo.fullName.toList.splitOn '/').headD [])

/-- `selectedRepo.language || "Unknown"` -/
def languageOf (repo : GitRepository) : String :=
  match repo.language with
  | some language => if language.isEmpty then "Unknown" else language
  | none => "Unknown"

def isBlank (s : String) : Bool := trim isTrimmed s.toList = []

/-- The variables that are sent: those with a key and a value. -/
def entered (data : ProjectForm) : List (String × String) :=
  data.envVars.filter fun v => !isBlank v.1 && !isBlank v.2

/-- `data.pythonVersion || undefined` -/
def pythonVersionOf (data : ProjectForm) : Option String :=
  data.pythonVersion.filter fun version => !version.isEmpty

def envVarJson (v : String × String) : Json := .obj [("key", .str v.1), ("value", .str v.2)]

/-- The members of the payload that `onSubmit` prepares. -/
def payload (repo : GitRepository) (data : ProjectForm) : List (String × Json) :=
  [("name", .str data.projectName), ("framework", .str data.framework),
    ("rootDirectory", .str data.rootDirectory), ("language", .str (languageOf repo))] ++
  defined "installCommand" data.installCommand ++ defined "buildCommand" data.buildCommand ++
  defined "runCommand" data.runCommand ++ defined "outputDirectory" data.outputDirectory ++
  defined "pythonVersion" (pythonVersionOf data) ++
  [("gitRepoId", .num (toString repo.id)), ("gitRepoName", .str repo.name),
    ("gitRepoOwner", .str (owner repo)), ("gitBranch", .str repo.defaultBranch),
    ("gitRepoUrl", .str repo.url), ("gitCloneUrl", .str repo.cloneUrl),
    ("envVars", .arr ((entered data).map envVarJson))]

/-- The request to create the project, with the access token if there is one. -/
def request (token : Option String) (repo : GitRepository) (data : ProjectForm) : HttpRequest where
  method := "POST"
  path := "/projects"
  headers := [("content-type", "application/json"), ("accept", "application/json")] ++
    (match token with
      | some token => [("authorization", "Bearer " ++ token)]
      | none => [])
  body := stringify (.obj (payload repo data))

/-! ## The imported form -/

/-- A repository with a name fills the form so that it can be sent. -/
theorem projectSchema_handleImport {repo : GitRepository} (h : repo.name ≠ "") :
    projectSchema (handleImport repo) = true := by
  have hchars : repo.name.toList ≠ [] := fun hnil => h (String.toList_eq_nil_iff.mp hnil)
  obtain ⟨c, cs, hcs⟩ := List.exists_cons_of_ne_nil hchars
  have hall : (replaceOthers repo.name).toList.all (fun d => d.isAlphanum || d == '-') = true := by
    rw [replaceOthers, String.toList_ofList, List.all_flatMap, List.all_eq_true]
    intro d _
    by_cases hd : (d.isAlphanum || d == '-') = true
    · simp [hd]
    · by_cases hunit : d.toNat ≤ 0xffff <;> simp [hd, hunit]
  have hne : (replaceOthers repo.name).toList ≠ [] := by
    rw [replaceOthers, String.toList_ofList, hcs, List.flatMap_cons]
    split
    · exact List.cons_ne_nil _ _
    · split <;> exact List.cons_ne_nil _ _
  rw [projectSchema, acceptsProjectName, handleImport, hall, List.isEmpty_eq_false_iff.mpr hne]
  rfl

theorem key_ne_of_mem_entered {data : ProjectForm} {v : String × String}
    (h : v ∈ entered data) : v.1 ≠ "" := by
  intro hkey
  have hfilled := (List.mem_filter.mp h).2
  rw [hkey, Bool.and_eq_true] at hfilled
  exact absurd hfilled.1 (by decide)

end NewProjectDialog
end Web
end Code2Cloud
