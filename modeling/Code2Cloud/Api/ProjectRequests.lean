import Code2Cloud.Api.InternalController

/-!
# Requests to create a project

The route `POST /projects` with `CreateProjectDto`, the class of its body.
-/

namespace Code2Cloud
namespace Api
namespace ProjectsController

open Dto
open InternalController (members readOptional)

/-! ## Checks -/

/-- `@Matches` of a project's name -/
def matchesName : Json → Bool
  | .str s => acceptsProjectName s
  | _ => false

/-- `@IsString() @IsNotEmpty() @Matches(…)` -/
def checksName (j : Json) : Bool := isString j && isNotEmpty j && matchesName j

/-- `@IsString() @IsNotEmpty()` -/
def text (name : String) : Property where
  name
  check := fun j => isString j && isNotEmpty j

/-- `@IsString() @IsOptional()` -/
def optionalText (name : String) : Property where
  name
  optional := true
  check := isString

@[simp]
theorem text_name (name : String) : (text name).name = name := rfl

@[simp]
theorem optionalText_name (name : String) : (optionalText name).name = name := rfl

theorem holds_text (name s : String) : (text name).holds (some (.str s)) = !s.isEmpty := rfl

theorem holds_optionalText (name : String) (value : Option String) :
    (optionalText name).holds (value.map .str) = true := by
  cases value <;> rfl

def baseProjectDto : List Property := [
  { name := "name", check := checksName },
  { name := "gitRepoId", check := isNotEmpty },
  text "gitRepoName", text "gitRepoOwner", text "gitBranch", text "gitRepoUrl",
  text "gitCloneUrl", text "language", optionalText "framework", optionalText "rootDirectory",
  optionalText "installCommand", optionalText "buildCommand", optionalText "runCommand",
  optionalText "outputDirectory", optionalText "pythonVersion"]

def envVarDto : List Property := [text "key", { name := "value", check := isString }]

def createProjectDto : List Property :=
  baseProjectDto ++ [{ name := "envVars", optional := true, check := isArrayOf envVarDto }]

/-! ## Reading a checked body -/

def readName (j : Option Json) : Option ProjectName :=
  (textOf j).bind fun s => if h : acceptsProjectName s = true then some ⟨s, h⟩ else none

def readEnvVar (j : Json) : Option (String × String) :=
  (textOf (get (members j) "key")).bind fun key =>
    (textOf (get (members j) "value")).map fun value => (key, value)

def readEnvVars : List Json → Option (List (String × String))
  | [] => some []
  | j :: js => (readEnvVar j).bind fun x => (readEnvVars js).map (x :: ·)

def readEnvironment : Option Json → Option (List (String × String))
  | none => some []
  | some (.arr elems) => readEnvVars elems
  | some _ => none

def readCreateProject (j : Json) : Option CreateProjectDto :=
  let required (key : String) := textOf (get (members j) key)
  let optional (key : String) := readOptional (get (members j) key)
  (readName (get (members j) "name")).bind fun name =>
  (required "gitRepoName").bind fun gitRepoName =>
  (required "gitRepoOwner").bind fun gitRepoOwner =>
  (required "gitBranch").bind fun gitBranch =>
  (required "gitCloneUrl").bind fun gitCloneUrl =>
  (optional "framework").bind fun framework =>
  (optional "rootDirectory").bind fun rootDirectory =>
  (optional "installCommand").bind fun installCommand =>
  (optional "buildCommand").bind fun buildCommand =>
  (optional "runCommand").bind fun runCommand =>
  (optional "outputDirectory").bind fun outputDirectory =>
  (optional "pythonVersion").bind fun pythonVersion =>
  (readEnvironment (get (members j) "envVars")).map fun envVars =>
    { name, gitRepoName, gitRepoOwner, gitBranch, gitCloneUrl, framework, rootDirectory
      installCommand, buildCommand, runCommand, outputDirectory, pythonVersion, envVars }

/-- `POST /projects` -/
def create : Route CreateProjectDto where
  method := "POST"
  pattern := [.lit "projects"]
  body := some createProjectDto
  handle := fun _ body => body.bind readCreateProject

end ProjectsController
end Api
end Code2Cloud
