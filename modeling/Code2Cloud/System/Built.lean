import Code2Cloud.System.BuildWorker
import Code2Cloud.System.Services
import Code2Cloud.Worker.Clone

/-!
# What is recorded and what is built

The commit that a job, its deployment's row, its clone and its image name, against the
commit whose sources the builder gets.
-/

namespace Code2Cloud
namespace System

open Api Worker

/-- The rows and the jobs that are inserted and enqueued together, by producer. -/
inductive Enqueued (e : EncryptionService) : Deployment → BuildJob → Prop
  | redeploy (w : World) (userId : UserId) (l : Loaded) (installationId : String)
      (commit : CommitData) :
      Enqueued e (DeploymentsService.row w userId l commit)
        (DeploymentsService.job e l installationId commit
          (DeploymentsService.row w userId l commit).id)
  | push (w : World) (opts : WebhooksService.TriggerOptions) (l : Loaded) (region : String)
      (envVars : EnvMap) (previous : Option DeploymentId) :
      Enqueued e (WebhooksService.row w opts l region)
        (WebhooksService.job opts l envVars previous (WebhooksService.row w opts l region).id)
  | create (dto : CreateProjectDto) (installationId : String) (draft : Draft) :
      Enqueued e draft.deployment (ProjectsService.job dto installationId draft)

theorem Enqueued.commitHash {e : EncryptionService} {row : Deployment} {job : BuildJob}
    (h : Enqueued e row job) : row.commitHash = job.commitHash := by
  cases h <;> rfl

namespace BuildWorker

/-- The options with which `processJob` clones. -/
def cloneOptions (job : BuildJob) (token : String) : CloneOptions :=
  { repoURL := job.gitUrl
    branch := job.branch
    commitHash := job.commitHash
    token
    shallow := true
    depth := 1 }

theorem next_clone (cfg : Config) (w : World) {r : Reply} (b : Build) {g : Git} {token : String}
    {res : CloneResult} (hres : Cloner.clone g (cloneOptions b.job token) = .ok res)
    (hok : r.outcome = .ok) (hhead : r.head = res.tree.head.val)
    (hlength : 8 ≤ (utf8 res.commitHash).length) :
    (processStep cfg w r b .clone).next =
      some (processing { b with commitHash := res.commitHash } .checkBuild) := by
  have hcommit : (if b.job.commitHash.isEmpty then r.head else b.job.commitHash) =
      res.commitHash := by
    rw [(Cloner.clone_shallow rfl hres).2, hhead]
    rfl
  simp only [processStep, query, hok, if_true, hcommit, Turn.pure]
  rw [if_neg (Nat.not_lt.mpr hlength)]

end BuildWorker

/-- The commit that the clone reports, the image's tag and the deployment's row are those of the
sources the builder gets if and only if the branch, when it is cloned, still ends with the commit
the job was enqueued for. -/
theorem recorded_is_built_iff {cfg : Config} {e : EncryptionService} {row : Deployment}
    {job : BuildJob} (h : Enqueued e row job) {g : Git} {token : String} {res : CloneResult}
    (hres : Cloner.clone g (BuildWorker.cloneOptions job token) = .ok res) :
    (res.commitHash = res.tree.head.val ∧
      BuildWorker.imageNameOf cfg job res.commitHash =
        BuildWorker.imageNameOf cfg job res.tree.head.val ∧
      row.commitHash = res.tree.head.val) ↔
    (Cloner.tip g (BuildWorker.cloneOptions job token)).map (·.val) = some job.commitHash := by
  obtain ⟨htip, hhash⟩ := Cloner.clone_shallow rfl hres
  have hjob : (BuildWorker.cloneOptions job token).commitHash = job.commitHash := rfl
  rw [hjob] at hhash
  rw [htip, Option.map_some, Option.some.injEq, h.commitHash]
  constructor
  · rintro ⟨_, _, hrow⟩
    exact hrow.symm
  · intro hhead
    have hcommit : res.commitHash = res.tree.head.val := by
      rw [hhash, hhead]
      split <;> rfl
    exact ⟨hcommit, by rw [hcommit], hhead.symm⟩

/-! ## A branch that moves -/

def firstCommit : ObjectName := ⟨"0123456789abcdef0123456789abcdef01234567", by decide⟩

def secondCommit : ObjectName := ⟨"89abcdef0123456789abcdef0123456789abcdef", by decide⟩

def shopLoaded : Loaded where
  project :=
    { id := 1, name := shopName, gitRepoOwner := "ada", gitRepoName := "shop"
      gitBranch := "main", gitCloneUrl := "https://github.com/ada/shop.git", updatedAt := 0
      userId := 1 }
  envVars := []
  domains := []

def shopRow : Deployment :=
  DeploymentsService.row World.empty 1 shopLoaded
    { sha := firstCommit.val, message := "first", author := "ada" }

def shopJob : BuildJob :=
  DeploymentsService.job .clear shopLoaded "7"
    { sha := firstCommit.val, message := "first", author := "ada" } shopRow.id

def shopGit (commits : List ObjectName) : Git where
  remote _ := { branches := fun branch => if branch = "main" then commits else []
                defaultBranch := "main" }

def shopClone (head : ObjectName) : CloneResult :=
  { tree := { head, commits := [head] }, commitHash := firstCommit.val }

theorem clone_shop (head : ObjectName) (older : List ObjectName) :
    Cloner.clone (shopGit (head :: older)) (BuildWorker.cloneOptions shopJob "token") =
      .ok (shopClone head) := by
  have hbranch : (BuildWorker.cloneOptions shopJob "token").branch = "main" := rfl
  have hhash : (BuildWorker.cloneOptions shopJob "token").commitHash = firstCommit.val := rfl
  have hgiven : firstCommit.val.isEmpty = false := by decide
  have hlength : ¬(utf8 firstCommit.val).length < 8 := by decide
  have htree : Cloner.gitClone (shopGit (head :: older))
      (BuildWorker.cloneOptions shopJob "token") = some { head, commits := [head] } := by
    simp only [Cloner.gitClone, hbranch]
    rfl
  simp only [Cloner.clone, htree, hhash, hgiven, Bool.false_eq_true, if_false]
  rw [if_neg hlength]
  rfl

theorem recorded_is_built_shop :
    (shopClone firstCommit).commitHash = (shopClone firstCommit).tree.head.val ∧
      BuildWorker.imageNameOf .clear shopJob (shopClone firstCommit).commitHash =
        BuildWorker.imageNameOf .clear shopJob (shopClone firstCommit).tree.head.val ∧
      shopRow.commitHash = (shopClone firstCommit).tree.head.val :=
  (recorded_is_built_iff (.redeploy World.empty 1 shopLoaded "7" _)
    (clone_shop firstCommit [])).mpr rfl

/-- A commit pushed after the job was enqueued is built, and the one of the job is recorded. -/
theorem not_recorded_is_built :
    ¬∀ (cfg : Config) (e : EncryptionService) (row : Deployment) (job : BuildJob),
      Enqueued e row job → ∀ (g : Git) (token : String) (res : CloneResult),
        Cloner.clone g (BuildWorker.cloneOptions job token) = .ok res →
          res.commitHash = res.tree.head.val ∧
            BuildWorker.imageNameOf cfg job res.commitHash =
              BuildWorker.imageNameOf cfg job res.tree.head.val ∧
            row.commitHash = res.tree.head.val := by
  intro h
  have hsame := h .clear .clear shopRow shopJob (.redeploy World.empty 1 shopLoaded "7" _)
    (shopGit [secondCommit, firstCommit]) "token" _ (clone_shop secondCommit [firstCommit])
  exact absurd hsame.1 (by decide)

end System
end Code2Cloud
