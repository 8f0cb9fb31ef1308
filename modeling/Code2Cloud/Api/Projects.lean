import Code2Cloud.Api.EnvVars
import Code2Cloud.Base.Case

/-!
# Projects

The rows that creating a project inserts, with the generated address, and the
listing of a user's projects, which decrypts every stored variable.
-/

namespace Code2Cloud
namespace Api

/-! ## Generated addresses -/

namespace UrlUtils

def collapseDashes : List Char → List Char
  | '-' :: '-' :: cs => collapseDashes ('-' :: cs)
  | c :: cs => c :: collapseDashes cs
  | [] => []

def trimDashes (cs : List Char) : List Char :=
  let cs := if cs.head? = some '-' then cs.tail else cs
  if cs.getLast? = some '-' then cs.dropLast else cs

/-- `toLowerCase`, but for a sigma at the end of a word, whose lower case is another character
outside `a-z`. -/
def toLowerCase (cs : List Char) : List Char :=
  cs.flatMap fun c => if c = '\u0130' then ['i', '\u0307'] else [Case.toLower c]

def isUrlChar (c : Char) : Bool := c.isLower || c.isDigit

/-- A dash for each code unit of the other characters. -/
def replaceOthers (cs : List Char) : List Char :=
  cs.flatMap fun c =>
    if isUrlChar c || c == '-' then [c] else if c.toNat ≤ 0xffff then ['-'] else ['-', '-']

def sanitize (input : String) : String :=
  String.ofList (trimDashes (collapseDashes (replaceOthers (toLowerCase input.toList))))

/-- `hash` is the random suffix; `deployDomain` is `urlConfig.deploy_domain`. -/
def generateDeploymentUrl (deployDomain hash projectName : String) : String :=
  "https://" ++ sanitize projectName ++ "-" ++ hash ++ "." ++ deployDomain

end UrlUtils

namespace ProjectsService

open EnvironmentVariables

variable (e : EncryptionService)

/-! ## Creation -/

/-- `systemConfig?.defaultRegion || 'us-ashburn-1'` -/
def regionOf (config : Option SystemConfig) : String :=
  match config with
  | some c => if c.defaultRegion.isEmpty then "us-ashburn-1" else c.defaultRegion
  | none => "us-ashburn-1"

def newVariables (projectId : ProjectId) (dto : CreateProjectDto) : List EnvironmentVariable :=
  dto.envVars.map fun kv => { key := kv.1, value := kv.2, projectId }

/-- The rows `create` inserts: the project, its variables encrypted, its first
deployment and its default domain. -/
def draft (deployDomain hash : String) (ivs : Nat → Iv) (now : Nat) (db : Database)
    (userId : UserId) (dto : CreateProjectDto) (commitData : CommitData) : Draft :=
  let projectId := db.nextId
  let deploymentUrl := UrlUtils.generateDeploymentUrl deployDomain hash dto.name.val
  { project :=
      { id := projectId
        name := dto.name
        framework := dto.framework.getD "other"
        rootDirectory := dto.rootDirectory.getD "./"
        installCommand := dto.installCommand
        buildCommand := dto.buildCommand
        runCommand := dto.runCommand
        outputDirectory := dto.outputDirectory
        pythonVersion := dto.pythonVersion
        gitRepoOwner := dto.gitRepoOwner
        gitRepoName := dto.gitRepoName
        gitBranch := dto.gitBranch
        gitCloneUrl := dto.gitCloneUrl
        updatedAt := now
        userId }
    environmentVariables := encryptAll e ivs (newVariables projectId dto)
    deployment :=
      { id := projectId + 1
        commitHash := commitData.sha
        commitMessage := commitData.message
        commitAuthor := commitData.author
        branch := dto.gitBranch
        deploymentUrl := some deploymentUrl
        deploymentRegion := regionOf (db.systemConfigOf userId)
        startedAt := now
        projectId
        initiatorId := some userId }
    domain := { id := projectId + 2, name := deploymentUrl, projectId, createdAt := now }
    queued := rfl }

/-! ## Listing -/

structure ProjectView where
  project : Project
  deployment : Option Deployment
  domains : List Domain
  envVars : List EnvironmentVariable
  deriving DecidableEq

def view (db : Database) (p : Project) : Except HttpException ProjectView :=
  (decryptAll e (db.environmentVariablesOf p.id)).map fun envVars =>
    { project := p
      deployment := Database.latest (db.deploymentsOf p.id)
      domains := db.domains.filter fun d => d.projectId == p.id
      envVars }

/-- One project that fails fails the listing. -/
def viewAll (db : Database) : List Project → Except HttpException (List ProjectView)
  | [] => .ok []
  | p :: ps =>
    match view e db p with
    | .error err => .error err
    | .ok v => (viewAll db ps).map (v :: ·)

/-- A user's projects, the most recently updated first. -/
def findAll (db : Database) (userId : UserId) : Except HttpException (List ProjectView) :=
  viewAll e db ((db.projects.filter fun p => p.userId == userId).insertionSort
    fun a b => b.updatedAt ≤ a.updatedAt)

variable {e}

theorem viewAll_cons_eq_ok {db : Database} {p : Project} {ps : List Project}
    {views : List ProjectView} (h : viewAll e db (p :: ps) = .ok views) :
    ∃ v vs, view e db p = .ok v ∧ viewAll e db ps = .ok vs ∧ views = v :: vs := by
  rw [viewAll] at h
  cases hview : view e db p with
  | error err => simp [hview] at h
  | ok v =>
    cases hrest : viewAll e db ps with
    | error err => simp [hview, hrest, Except.map] at h
    | ok vs =>
      simp only [hview, hrest, Except.map, Except.ok.injEq] at h
      exact ⟨v, vs, rfl, rfl, h.symm⟩

theorem exists_mem_of_viewAll {db : Database} {ps : List Project} {views : List ProjectView}
    (h : viewAll e db ps = .ok views) {p : Project} (hp : p ∈ ps) :
    ∃ v ∈ views, view e db p = .ok v := by
  induction ps generalizing views with
  | nil => simp at hp
  | cons q ps ih =>
    obtain ⟨w, ws, hq, hps, rfl⟩ := viewAll_cons_eq_ok h
    rcases List.mem_cons.mp hp with rfl | hp
    · exact ⟨w, List.mem_cons_self, hq⟩
    · obtain ⟨v, hv, hpv⟩ := ih hps hp
      exact ⟨v, List.mem_cons_of_mem w hv, hpv⟩

theorem exists_of_mem_viewAll {db : Database} {ps : List Project} {views : List ProjectView}
    (h : viewAll e db ps = .ok views) {v : ProjectView} (hv : v ∈ views) :
    ∃ p ∈ ps, view e db p = .ok v := by
  induction ps generalizing views with
  | nil =>
    cases h
    cases hv
  | cons q ps ih =>
    obtain ⟨w, ws, hq, hps, rfl⟩ := viewAll_cons_eq_ok h
    rcases List.mem_cons.mp hv with rfl | hv
    · exact ⟨q, List.mem_cons_self, hq⟩
    · obtain ⟨p, hp, hpv⟩ := ih hps hv
      exact ⟨p, List.mem_cons_of_mem q hp, hpv⟩

theorem exists_viewAll_iff {db : Database} {ps : List Project} :
    (∃ views, viewAll e db ps = .ok views) ↔ ∀ p ∈ ps, ∃ v, view e db p = .ok v := by
  constructor
  · rintro ⟨views, h⟩ p hp
    obtain ⟨v, _, hv⟩ := exists_mem_of_viewAll h hp
    exact ⟨v, hv⟩
  · intro h
    induction ps with
    | nil => exact ⟨[], rfl⟩
    | cons p ps ih =>
      obtain ⟨v, hv⟩ := h p List.mem_cons_self
      obtain ⟨vs, hvs⟩ := ih fun q hq => h q (List.mem_cons_of_mem p hq)
      exact ⟨v :: vs, by simp [viewAll, hv, hvs, Except.map]⟩

def Unused (db : Database) (id : ProjectId) : Prop :=
  (∀ p ∈ db.projects, p.id ≠ id) ∧ ∀ v ∈ db.environmentVariables, v.projectId ≠ id

theorem environmentVariablesOf_insertDraft_new {db : Database} {d : Draft}
    (hfresh : Unused db d.project.id)
    (hrows : ∀ v ∈ d.environmentVariables, v.projectId = d.project.id) :
    (db.insertDraft d).environmentVariablesOf d.project.id = d.environmentVariables := by
  have hold : (db.environmentVariables.filter fun v => v.projectId == d.project.id) = [] := by
    rw [List.filter_eq_nil_iff]
    intro v hv
    simpa using hfresh.2 v hv
  have hnew : (d.environmentVariables.filter fun v => v.projectId == d.project.id) =
      d.environmentVariables := by
    rw [List.filter_eq_self]
    intro v hv
    simpa using hrows v hv
  simp [Database.environmentVariablesOf, Database.insertDraft, hold, hnew]

theorem environmentVariablesOf_insertDraft_old {db : Database} {d : Draft} {id : ProjectId}
    (hid : id ≠ d.project.id) (hrows : ∀ v ∈ d.environmentVariables, v.projectId = d.project.id) :
    (db.insertDraft d).environmentVariablesOf id = db.environmentVariablesOf id := by
  have hnew : (d.environmentVariables.filter fun v => v.projectId == id) = [] := by
    rw [List.filter_eq_nil_iff]
    intro v hv
    simpa [hrows v hv] using hid.symm
  simp [Database.environmentVariablesOf, Database.insertDraft, hnew]

theorem exists_view_iff {db : Database} {p : Project} :
    (∃ v, view e db p = .ok v) ↔
      ∃ vs, decryptAll e (db.environmentVariablesOf p.id) = .ok vs := by
  unfold view
  cases decryptAll e (db.environmentVariablesOf p.id) <;> simp [Except.map]

variable (e) in
/-- After a project was created the listing returns it with the submitted variables
exactly when it succeeded before and none of the submitted values is empty. -/
theorem findAll_create_iff (deployDomain hash : String) (ivs : Nat → Iv) (now : Nat)
    (db : Database) (userId : UserId) (dto : CreateProjectDto) (commitData : CommitData)
    (hfresh : Unused db db.nextId) :
    let d := draft e deployDomain hash ivs now db userId dto commitData
    (∃ views, findAll e (db.insertDraft d) userId = .ok views ∧
        ∃ v ∈ views, v.project = d.project ∧ v.envVars = newVariables db.nextId dto) ↔
      (∃ views, findAll e db userId = .ok views) ∧ ∀ kv ∈ dto.envVars, kv.2 ≠ "" := by
  intro d
  have hrows : ∀ v ∈ d.environmentVariables, v.projectId = d.project.id := by
    intro v hv
    obtain ⟨w, hw, hid⟩ := projectId_of_mem_encryptAll e hv
    obtain ⟨kv, _, rfl⟩ := List.mem_map.mp hw
    exact hid
  have hstored : List.Forall₂ (Stores e) (newVariables db.nextId dto) d.environmentVariables :=
    stores_encryptAll e ivs _
  have hvalues : (∀ v ∈ newVariables db.nextId dto, v.value ≠ "") ↔
      ∀ kv ∈ dto.envVars, kv.2 ≠ "" := by
    simp only [newVariables, List.forall_mem_map]
  have hnewEnv := environmentVariablesOf_insertDraft_new (d := d) hfresh hrows
  have hdecrypt := decryptAll_stored hstored
  have hold : ∀ p ∈ db.projects,
      (∃ v, view e (db.insertDraft d) p = .ok v) ↔ ∃ v, view e db p = .ok v := by
    intro p hp
    rw [exists_view_iff, exists_view_iff,
      environmentVariablesOf_insertDraft_old (hfresh.1 p hp) hrows]
  have hmem : ∀ p, p ∈ (db.insertDraft d).projects.filter (fun p => p.userId == userId) ↔
      (p ∈ db.projects ∧ p.userId = userId) ∨ p = d.project := by
    intro p
    have huser : d.project.userId = userId := rfl
    simp only [Database.insertDraft, List.mem_filter, List.mem_append, List.mem_singleton,
      beq_iff_eq]
    constructor
    · rintro ⟨hp | rfl, hu⟩
      · exact Or.inl ⟨hp, hu⟩
      · exact Or.inr rfl
    · rintro (⟨hp, hu⟩ | rfl)
      · exact ⟨Or.inl hp, hu⟩
      · exact ⟨Or.inr rfl, huser⟩
  constructor
  · rintro ⟨views, hviews, v, hv, hproject, henv⟩
    have hall := exists_viewAll_iff.mp ⟨views, hviews⟩
    constructor
    · refine exists_viewAll_iff.mpr fun p hp => ?_
      simp only [List.mem_insertionSort, List.mem_filter, beq_iff_eq] at hp
      refine (hold p hp.1).mp (hall p ?_)
      rw [List.mem_insertionSort, hmem]
      exact Or.inl hp
    · have hd := hall d.project (by rw [List.mem_insertionSort, hmem]; exact Or.inr rfl)
      obtain ⟨vs, hvs⟩ := exists_view_iff.mp hd
      rw [hnewEnv, hdecrypt] at hvs
      rw [← hvalues]
      by_contra hempty
      rw [if_neg hempty] at hvs
      exact absurd hvs (by simp)
  · rintro ⟨⟨before, hbefore⟩, hnonempty⟩
    have hbeforeAll := exists_viewAll_iff.mp ⟨before, hbefore⟩
    have hnewView : ∃ v, view e (db.insertDraft d) d.project = .ok v ∧ v.project = d.project ∧
        v.envVars = newVariables db.nextId dto := by
      rw [view, hnewEnv, hdecrypt, if_pos (hvalues.mpr hnonempty)]
      exact ⟨_, rfl, rfl, rfl⟩
    obtain ⟨v, hv, hproject, henv⟩ := hnewView
    have hall : ∀ p ∈ ((db.insertDraft d).projects.filter fun p => p.userId == userId).insertionSort
        (fun a b => b.updatedAt ≤ a.updatedAt), ∃ v, view e (db.insertDraft d) p = .ok v := by
      intro p hp
      rw [List.mem_insertionSort, hmem] at hp
      rcases hp with ⟨hp, hu⟩ | rfl
      · refine (hold p hp).mpr (hbeforeAll p ?_)
        simp [hp, hu]
      · exact ⟨v, hv⟩
    obtain ⟨views, hviews⟩ := exists_viewAll_iff.mpr hall
    have hdmem : d.project ∈ ((db.insertDraft d).projects.filter
        fun p => p.userId == userId).insertionSort (fun a b => b.updatedAt ≤ a.updatedAt) := by
      rw [List.mem_insertionSort, hmem]
      exact Or.inr rfl
    obtain ⟨w, hw, hwv⟩ := exists_mem_of_viewAll hviews hdmem
    rw [hv, Except.ok.injEq] at hwv
    exact ⟨views, hviews, v, hwv ▸ hw, hproject, henv⟩

end ProjectsService

/-! ## What comes back -/

/-- Decryption undoes encryption, a listing of variables returns what was saved, and
a listing of projects returns what was created, exactly as far as no value is
empty. -/
theorem stored_values_return_iff (e : EncryptionService) (collation : String → String → Bool)
    (deployDomain hash : String) (ivs : Nat → Iv) (now : Nat) (db : Database) (userId : UserId)
    (projectId : ProjectId) (items : List EnvVarItem) (dto : CreateProjectDto)
    (commitData : CommitData) (hfresh : ProjectsService.Unused db db.nextId) :
    (∀ iv s, e.decrypt (e.encrypt iv s) = .ok s ↔ s ≠ "") ∧
    ((EnvVarsService.saveAll e ivs now db userId projectId items).bind
        (fun db' => EnvVarsService.findAll e collation db' userId projectId) =
      .ok (EnvironmentVariables.orderByKey collation
        (items.map (EnvironmentVariables.plain projectId))) ↔
      (∃ db', EnvVarsService.saveAll e ivs now db userId projectId items = .ok db') ∧
        ∀ v ∈ items, v.value ≠ "") ∧
    (let d := ProjectsService.draft e deployDomain hash ivs now db userId dto commitData;
      (∃ views, ProjectsService.findAll e (db.insertDraft d) userId = .ok views ∧
        ∃ v ∈ views, v.project = d.project ∧
          v.envVars = ProjectsService.newVariables db.nextId dto) ↔
      (∃ views, ProjectsService.findAll e db userId = .ok views) ∧
        ∀ kv ∈ dto.envVars, kv.2 ≠ "") :=
  ⟨e.decrypt_encrypt_eq_ok_iff,
    EnvVarsService.findAll_saveAll_iff e collation ivs now db userId projectId items,
    ProjectsService.findAll_create_iff e deployDomain hash ivs now db userId dto commitData hfresh⟩

def Gcm.clear : Gcm where
  encrypt := fun _ _ plain => plain
  tag := fun _ _ _ => List.replicate 16 0
  decrypt := fun _ _ authTag encrypted =>
    if authTag = List.replicate 16 0 then some encrypted else none
  decrypt_encrypt := by simp
  length_encrypt := by simp
  length_tag := by simp

def EncryptionService.clear : EncryptionService where
  gcm := Gcm.clear
  key := List.replicate 32 0
  key_length := by simp

theorem stored_values_return_clear :
    let iv : Iv := ⟨List.replicate 12 0, by decide⟩
    let db := { Database.empty with
      projects :=
        [{ id := 1, name := ⟨"shop", by decide⟩, gitRepoOwner := "ada", gitRepoName := "shop"
           gitBranch := "main", gitCloneUrl := "https://github.com/ada/shop.git"
           updatedAt := 0, userId := 1 }]
      nextId := 4 }
    (EnvVarsService.saveAll .clear (fun _ => iv) 5 db 1 1
        [{ key := "MODE", value := "fast", targets := [.production] }]).bind
        (fun db' => EnvVarsService.findAll .clear (fun _ _ => true) db' 1 1) =
      .ok [{ key := "MODE", value := "fast", targets := [.production], projectId := 1 }] := by
  intro iv db
  have hfresh : ProjectsService.Unused db db.nextId := by
    constructor <;> simp [db, Database.empty]
  have h := stored_values_return_iff .clear (fun _ _ => true) "example.dev" "a1b2c3" (fun _ => iv) 5
    db 1 1 [{ key := "MODE", value := "fast", targets := [.production] }]
    { name := ⟨"blog", by decide⟩, gitRepoName := "blog", gitRepoOwner := "ada"
      gitBranch := "main", gitCloneUrl := "https://github.com/ada/blog.git" }
    { sha := "", message := "", author := "" } hfresh
  exact h.2.1.mpr ⟨⟨_, rfl⟩, by simp⟩

/-- The empty text does not come back. -/
theorem not_decrypt_encrypt :
    ¬∀ (e : EncryptionService) (iv : Iv) (s : String), e.decrypt (e.encrypt iv s) = .ok s := by
  intro h
  have hempty := h .clear ⟨List.replicate 12 0, by decide⟩ ""
  rw [EncryptionService.decrypt_encrypt, if_pos rfl] at hempty
  exact absurd hempty (by simp)

end Api
end Code2Cloud
