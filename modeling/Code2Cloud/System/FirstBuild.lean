import Code2Cloud.Api.ProjectRequests
import Code2Cloud.System.InternalApi
import Code2Cloud.System.Services
import Code2Cloud.System.Arrivals
import Code2Cloud.System.Wire
import Code2Cloud.Web.NewProject

/-!
# From the dialog to the first build

What a user enters for a new project passes the API's checks, and the worker reads it from
the first build job.
-/

namespace Code2Cloud
namespace System

open Api HttpRequest Worker
open Api.QueuesService (defined)
open Web (GitRepository ProjectForm NewProjectDialog.projectSchema NewProjectDialog.payload
  NewProjectDialog.request
  NewProjectDialog.entered NewProjectDialog.pythonVersionOf NewProjectDialog.owner
  NewProjectDialog.languageOf NewProjectDialog.envVarJson NewProjectDialog.key_ne_of_mem_entered)

/-- What the API asks of a repository: the form has no field for it. -/
def complete (repo : GitRepository) : Bool :=
  !repo.name.isEmpty && !(NewProjectDialog.owner repo).isEmpty && !repo.defaultBranch.isEmpty &&
    !repo.url.isEmpty && !repo.cloneUrl.isEmpty

/-- What the form means to the API. -/
def submitted (repo : GitRepository) (data : ProjectForm)
    (hname : acceptsProjectName data.projectName = true) : CreateProjectDto where
  name := ⟨data.projectName, hname⟩
  gitRepoName := repo.name
  gitRepoOwner := NewProjectDialog.owner repo
  gitBranch := repo.defaultBranch
  gitCloneUrl := repo.cloneUrl
  framework := some data.framework
  rootDirectory := some data.rootDirectory
  installCommand := data.installCommand
  buildCommand := data.buildCommand
  runCommand := data.runCommand
  outputDirectory := data.outputDirectory
  pythonVersion := NewProjectDialog.pythonVersionOf data
  envVars := NewProjectDialog.entered data

/-! ## The request -/

theorem get_defined (key : String) (value : Option String) (name : String) :
    Dto.get (defined key value) name = if key = name then value.map .str else none := by
  cases value with
  | none => rw [defined, Dto.get_nil, Option.map_none, ite_self]
  | some text => rw [defined, Dto.get_singleton, Option.map_some]

theorem all_defined (key : String) (value : Option String) {p : String × Json → Bool}
    (hp : ∀ text, p (key, .str text) = true) : (defined key value).all p = true := by
  cases value with
  | none => rfl
  | some text => rw [defined, List.all_cons, hp]; rfl

def payloadNames : List String :=
  ["name", "framework", "rootDirectory", "language", "installCommand", "buildCommand",
    "runCommand", "outputDirectory", "pythonVersion", "gitRepoId", "gitRepoName", "gitRepoOwner",
    "gitBranch", "gitRepoUrl", "gitCloneUrl", "envVars"]

theorem names_defined (key : String) (value : Option String) :
    ((defined key value).map (·.1)).Sublist [key] := by
  cases value with
  | none => exact List.nil_sublist _
  | some text => exact List.Sublist.refl _

theorem names_payload (repo : GitRepository) (data : ProjectForm) :
    ((NewProjectDialog.payload repo data).map (·.1)).Sublist payloadNames := by
  simp only [NewProjectDialog.payload, List.map_append]
  exact ((((((List.Sublist.refl _).append (names_defined _ _)).append (names_defined _ _)).append
    (names_defined _ _)).append (names_defined _ _)).append (names_defined _ _)).append
      (List.Sublist.refl _)

theorem plain_payload {repo : GitRepository} (hid : repo.id < 2 ^ 53) (data : ProjectForm) :
    PlainJson 3 (.obj (NewProjectDialog.payload repo data)) := by
  have hvariables : PlainJson 2
      (.arr ((NewProjectDialog.entered data).map NewProjectDialog.envVarJson)) := by
    intro j hj
    obtain ⟨v, _, rfl⟩ := List.mem_map.mp hj
    exact ⟨rfl, by
      simp [NewProjectDialog.envVarJson, PlainJson, isOwnName, inherited]⟩
  have hdefined {key : String} {value : Option String} {m : String × Json}
      (hm : m ∈ defined key value) : PlainJson 2 m.2 := by
    cases value with
    | none => cases hm
    | some text =>
      rw [defined, List.mem_singleton] at hm
      rw [hm]
      trivial
  have hnumber : PlainJson 2 (.num (toString repo.id)) := ⟨repo.id, hid, rfl⟩
  have hnames : payloadNames.Nodup ∧ ∀ name ∈ payloadNames, isOwnName name = true := by decide
  refine ⟨(names_payload repo data).nodup hnames.1, fun m hm => ⟨?_, ?_⟩⟩
  · exact hnames.2 _ ((names_payload repo data).subset (List.mem_map_of_mem hm))
  · simp only [NewProjectDialog.payload, List.mem_append, List.mem_cons, List.not_mem_nil,
      or_false] at hm
    rcases hm with ((((((rfl | rfl | rfl | rfl) | hm) | hm) | hm) | hm) | hm) |
      (rfl | rfl | rfl | rfl | rfl | rfl | rfl)
    all_goals first
      | exact hdefined hm
      | exact hvariables
      | exact hnumber
      | trivial

theorem accepts_envVarJson {v : String × String} (hkey : v.1 ≠ "") :
    Dto.accepts ProjectsController.envVarDto (NewProjectDialog.envVarJson v) = true := by
  have hnonempty : v.1.isEmpty = false := by
    rw [Bool.eq_false_iff, Ne, String.isEmpty_iff]
    exact hkey
  simp [NewProjectDialog.envVarJson, Dto.accepts, ProjectsController.envVarDto,
    ProjectsController.text, Dto.Property.holds, Dto.isString, Dto.isNotEmpty, hnonempty]

theorem known_payload (repo : GitRepository) (data : ProjectForm) :
    (NewProjectDialog.payload repo data).all (fun m =>
      ProjectsController.createProjectDto.any fun p => p.name == m.1) = true := by
  simp [NewProjectDialog.payload, all_defined, ProjectsController.createProjectDto,
    ProjectsController.baseProjectDto, ProjectsController.text, ProjectsController.optionalText]

theorem accepts_entered (data : ProjectForm) :
    Dto.isArrayOf ProjectsController.envVarDto
      (.arr ((NewProjectDialog.entered data).map NewProjectDialog.envVarJson)) = true := by
  rw [Dto.isArrayOf, List.all_map, List.all_eq_true]
  intro v hv
  exact accepts_envVarJson (NewProjectDialog.key_ne_of_mem_entered hv)

theorem isEmpty_languageOf (repo : GitRepository) :
    (NewProjectDialog.languageOf repo).isEmpty = false := by
  rw [NewProjectDialog.languageOf]
  split
  · split
    · decide
    · rename_i hlanguage
      exact Bool.eq_false_iff.mpr hlanguage
  · decide

/-- Only what the form does not ask for can be refused. -/
theorem accepts_payload (repo : GitRepository) {data : ProjectForm}
    (hname : acceptsProjectName data.projectName = true) :
    Dto.accepts ProjectsController.createProjectDto (.obj (NewProjectDialog.payload repo data)) =
      complete repo := by
  have hchecked : ProjectsController.checksName (.str data.projectName) = true := by
    rw [ProjectsController.checksName, ProjectsController.matchesName, hname, Bool.and_true]
    rw [acceptsProjectName, Bool.and_eq_true, Bool.not_eq_true'] at hname
    rw [Dto.isString, Dto.isNotEmpty, Bool.true_and, Bool.not_eq_true', Bool.eq_false_iff, Ne,
      String.isEmpty_iff]
    rintro hempty
    rw [hempty] at hname
    exact absurd hname.1 (by decide)
  rw [Dto.accepts, known_payload, Bool.true_and]
  simp only [ProjectsController.createProjectDto, ProjectsController.baseProjectDto,
    List.all_append, List.all_cons, List.all_nil, NewProjectDialog.payload,
    ProjectsController.text_name, ProjectsController.optionalText_name, Dto.get_append,
    Dto.get_cons, Dto.get_nil, get_defined, String.reduceEq, if_true, if_false, Option.or_none,
    Option.none_or, ProjectsController.holds_text, ProjectsController.holds_optionalText,
    Bool.and_true]
  have hframework : (ProjectsController.optionalText "framework").check (.str data.framework) := rfl
  have hroot : (ProjectsController.optionalText "rootDirectory").check
      (.str data.rootDirectory) := rfl
  simp [Dto.Property.holds, hchecked, hframework, hroot, accepts_entered, isEmpty_languageOf,
    Dto.isNotEmpty, complete, Bool.and_assoc]

theorem readEnvVars_map (vs : List (String × String)) :
    ProjectsController.readEnvVars (vs.map NewProjectDialog.envVarJson) = some vs := by
  induction vs with
  | nil => rfl
  | cons v vs ih =>
    rw [List.map_cons, ProjectsController.readEnvVars, ih]
    rfl

theorem read_payload (repo : GitRepository) {data : ProjectForm}
    (hname : acceptsProjectName data.projectName = true) :
    ProjectsController.readCreateProject (.obj (NewProjectDialog.payload repo data)) =
      some (submitted repo data hname) := by
  have hread : ProjectsController.readName (some (.str data.projectName)) =
      some ⟨data.projectName, hname⟩ := dif_pos hname
  rw [ProjectsController.readCreateProject]
  simp only [InternalController.members, NewProjectDialog.payload, Dto.get_append, Dto.get_cons,
    Dto.get_nil, get_defined, String.reduceEq, if_true, if_false, Option.or_none, Option.none_or,
    Dto.textOf_str, hread, ProjectsController.readEnvironment, readEnvVars_map,
    InternalController.readOptional_map, InternalController.readOptional_str, Option.bind_some,
    Option.map_some]
  rfl

theorem serve_request (nest : Nest) (guard : HttpRequest → Bool) (token : Option String)
    {repo : GitRepository} (hid : repo.id < 2 ^ 53) {data : ProjectForm}
    (hname : acceptsProjectName data.projectName = true) :
    nest.serve [ProjectsController.create] guard (NewProjectDialog.request token repo data) =
      if (NewProjectDialog.request token repo data).tooLarge then .error 413
      else if guard (NewProjectDialog.request token repo data) then
        if complete repo then .ok (some (submitted repo data hname)) else .error 400
      else .error 401 := by
  have hplain : (NewProjectDialog.request token repo data).Plain ["projects"]
      (some (.obj (NewProjectDialog.payload repo data))) := by
    have hpath : "/projects".toList = pathOf ["projects"] := by decide
    have hjson : (NewProjectDialog.request token repo data).isJson = true := by
      cases token <;> rfl
    refine ⟨hjson, hpath, by simp, by decide, .inr ⟨_, _, rfl, rfl, ?_⟩⟩
    exact ⟨.minimal, 3, _, rfl, plain_payload hid data, rfl⟩
  by_cases hlarge : (NewProjectDialog.request token repo data).tooLarge = true
  · rw [if_pos hlarge, nest.serve_large _ _ _ hplain.isJson hlarge]
  · rw [if_neg hlarge, nest.serve_plain _ _ _ ["projects"] _ ProjectsController.create [] hplain
      (Bool.not_eq_true _ ▸ hlarge) rfl fun _ => rfl]
    have hadmits : ProjectsController.create.admits
        (some (.obj (NewProjectDialog.payload repo data))) = complete repo :=
      accepts_payload repo hname
    have hread : ProjectsController.create.handle []
        (some (.obj (NewProjectDialog.payload repo data))) = some (submitted repo data hname) :=
      read_payload repo hname
    rw [hadmits, hread]

/-! ## The job -/

/-- The value that a container of the first build finds: the Python version goes before the rows,
and of the rows with one key the last one counts. -/
def variableOf (data : ProjectForm) (key : String) : Option String :=
  (if key = "RAILPACK_PYTHON_VERSION" then NewProjectDialog.pythonVersionOf data else none).or
    (EnvMap.get (NewProjectDialog.entered data).reverse key)

/-- The worker's job is the one the user entered. -/
structure AsEntered (repo : GitRepository) (data : ProjectForm) (job : Types.BuildJob) : Prop where
  projectName : job.projectName = data.projectName
  gitURL : job.gitURL = repo.cloneUrl
  branch : job.branch = repo.defaultBranch
  rootDirectory : job.rootDirectory = data.rootDirectory
  framework : job.buildConfig.framework = data.framework
  installCommand : job.buildConfig.installCommand = data.installCommand.getD ""
  buildCommand : job.buildConfig.buildCommand = data.buildCommand.getD ""
  runCommand : job.buildConfig.runCommand = data.runCommand.getD ""
  outputDir : job.buildConfig.outputDir = data.outputDirectory.getD ""
  envVars : ∀ key, job.envVars.get key = variableOf data key

theorem enqueue_of_insert {cfg : Config} {w : World} {r : Reply} {userId : UserId}
    {dto : CreateProjectDto} {installationId : String} {commit : CommitData} {d : Draft}
    {job : Api.BuildJob}
    (h : (ProjectsService.Create.step cfg w r (.insert userId dto installationId commit)).next =
      .next (.enqueue d job)) :
    d = ProjectsService.draft cfg.encryption cfg.deployDomain r.hash r.ivs w.now w.db userId dto
        commit ∧
      job = ProjectsService.job dto installationId d := by
  rw [ProjectsService.Create.step] at h
  split at h
  · cases h
    exact ⟨rfl, rfl⟩
  · cases h

theorem get_pythonVersionEnv (data : ProjectForm) {p : Project}
    (hp : p.pythonVersion = NewProjectDialog.pythonVersionOf data) (key : String) :
    EnvMap.get (pythonVersionEnv p).reverse key =
      if key = "RAILPACK_PYTHON_VERSION" then NewProjectDialog.pythonVersionOf data else none := by
  rw [pythonVersionEnv, hp]
  cases hversion : NewProjectDialog.pythonVersionOf data with
  | none => rw [ite_self]; rfl
  | some version =>
    have hnonempty : version.isEmpty = false := by
      have hkept := (Option.filter_eq_some_iff.mp hversion).2
      simpa using hkept
    simp only [hnonempty, Bool.false_eq_true, if_false, List.reverse_singleton, EnvMap.get_cons]
    simp only [eq_comm (a := key)]
    rfl

theorem asEntered_received (ids : IdText) (installationID : Int) {repo : GitRepository}
    {data : ProjectForm} (hname : acceptsProjectName data.projectName = true) {cfg : Config}
    {w : World} {r : Reply} {userId : UserId} {installationId : String} {commit : CommitData}
    {d : Draft} {job : Api.BuildJob}
    (h : (ProjectsService.Create.step cfg w r
      (.insert userId (submitted repo data hname) installationId commit)).next =
        .next (.enqueue d job)) :
    AsEntered repo data (received ids job installationID) := by
  obtain ⟨rfl, rfl⟩ := enqueue_of_insert h
  refine ⟨rfl, rfl, rfl, rfl, rfl, rfl, rfl, rfl, rfl, fun key => ?_⟩
  rw [received, ProjectsService.job, EnvMap.merge_singleton (EnvMap.nodup_merge _), EnvMap.merge,
    EnvMap.get_foldl_set]
  have hpython := get_pythonVersionEnv data (p := (ProjectsService.draft cfg.encryption
    cfg.deployDomain r.hash r.ivs w.now w.db userId (submitted repo data hname) commit).project)
    rfl key
  simp only [List.flatten_cons, List.flatten_nil, List.append_nil, List.reverse_append,
    EnvMap.get_append, hpython, variableOf]
  exact Option.or_none

theorem acceptsName {data : ProjectForm} (h : NewProjectDialog.projectSchema data = true) :
    acceptsProjectName data.projectName = true :=
  (Bool.and_eq_true_iff.mp h).1

/-- Every form that the dialog sends is accepted, unless it is too large, its user is not signed in,
or its repository lacks a name, an owner, a branch or an address, and the worker's first job is then
what the user entered. -/
theorem first_build_is_as_entered (ids : IdText) (nest : Nest) (guard : HttpRequest → Bool)
    (token : Option String) {repo : GitRepository} (hrepo : repo.id < 2 ^ 53) {data : ProjectForm}
    (h : NewProjectDialog.projectSchema data = true) :
    nest.serve [ProjectsController.create] guard (NewProjectDialog.request token repo data) =
        (if (NewProjectDialog.request token repo data).tooLarge then .error 413
        else if guard (NewProjectDialog.request token repo data) then
          if complete repo then .ok (some (submitted repo data (acceptsName h))) else .error 400
        else .error 401) ∧
      ∀ (cfg : Config) (w : World) (r : Reply) (userId : UserId) (installationId : String)
        (commit : CommitData) (d : Draft) (job : Api.BuildJob),
        (ProjectsService.Create.step cfg w r
            (.insert userId (submitted repo data (acceptsName h)) installationId commit)).next =
          .next (.enqueue d job) → (decoded (numberOf installationId)).isSome →
        ∃ received, Types.unmarshalBuildJob (payload ids job) = some received ∧
          AsEntered repo data received := by
  refine ⟨serve_request nest guard token hrepo (acceptsName h), ?_⟩
  intro cfg w r userId installationId commit d job hstep hid
  obtain ⟨installationID, hid⟩ := Option.isSome_iff_exists.mp hid
  have hjob : decoded job.installationId = some installationID := by
    rw [(enqueue_of_insert hstep).2]
    exact hid
  refine ⟨received ids job installationID, ?_,
    asEntered_received ids installationID (acceptsName h) hstep⟩
  rw [unmarshal_payload, hjob, Option.map_some]

/-- A repository with a dot in its name. -/
def shopRepository : GitRepository where
  id := 7
  name := "shop.js"
  fullName := "ada/shop.js"
  url := "https://github.com/ada/shop.js"
  cloneUrl := "https://github.com/ada/shop.js.git"
  language := none
  defaultBranch := "main"
  framework := "nextjs"
  installCommand := ""
  buildCommand := ""
  runCommand := ""
  outputDirectory := ".next"

theorem first_build_is_as_entered_shop :
    ∃ dto, Nest.plain.serve [ProjectsController.create] (fun _ => true)
        (NewProjectDialog.request none shopRepository
          (Web.NewProjectDialog.handleImport shopRepository)) = .ok (some dto) ∧
      dto.name.val = "shop-js" ∧ dto.gitRepoOwner = "ada" := by
  have hform : NewProjectDialog.projectSchema
      (Web.NewProjectDialog.handleImport shopRepository) = true :=
    Web.NewProjectDialog.projectSchema_handleImport (by decide)
  have hid : shopRepository.id < 2 ^ 53 := by decide
  have hcreated := (first_build_is_as_entered decimalIds .plain (fun _ => true) none hid hform).1
  have hfits : (NewProjectDialog.request none shopRepository
      (Web.NewProjectDialog.handleImport shopRepository)).tooLarge = false := by decide +kernel
  have hcomplete : complete shopRepository = true := by decide +kernel
  have hname : Web.NewProjectDialog.replaceOthers shopRepository.name = "shop-js" := by
    decide +kernel
  have howner : NewProjectDialog.owner shopRepository = "ada" := by decide +kernel
  rw [hfits, hcomplete] at hcreated
  exact ⟨_, hcreated, hname, howner⟩

end System
end Code2Cloud
