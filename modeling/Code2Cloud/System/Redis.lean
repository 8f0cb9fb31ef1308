import Code2Cloud.Api.Schema
import Code2Cloud.Base.Deque

/-!
# Redis

The two job lists and the cancel signals that the API and the worker share, and the
order in which the lists hand jobs to the worker.
-/

namespace Code2Cloud
namespace System

/-- The lists `build-queue` and `project-cleanup-queue`, for any payloads. -/
structure Queues (B C : Type*) where
  buildQueue : List B
  cleanupQueue : List C

namespace Queues

variable {B C : Type*}

/-- `RPUSH build-queue` -/
def addBuildJob (q : Queues B C) (job : B) : Queues B C :=
  { q with buildQueue := Deque.rpush q.buildQueue job }

/-- `LPUSH project-cleanup-queue` -/
def addProjectCleanupJob (q : Queues B C) (job : C) : Queues B C :=
  { q with cleanupQueue := Deque.lpush q.cleanupQueue job }

/-- `BRPOP build-queue`, when it does not block. -/
def waitForJob (q : Queues B C) : Option (B × Queues B C) :=
  (Deque.rpop q.buildQueue).map fun r => (r.1, { q with buildQueue := r.2 })

/-- `RPOP project-cleanup-queue` -/
def popProjectCleanup (q : Queues B C) : Option (C × Queues B C) :=
  (Deque.rpop q.cleanupQueue).map fun r => (r.1, { q with cleanupQueue := r.2 })

end Queues

structure Redis extends Queues Api.BuildJob Api.ProjectCleanupJob where
  /-- The expiry, in milliseconds, of the key `cancel:<id>` where it is set. -/
  cancelKeys : Api.DeploymentId → Option Nat

namespace Redis

/-- `SET cancel:<id> 1 EX 300` -/
def publishCancelSignal (r : Redis) (now : Nat) (id : Api.DeploymentId) : Redis :=
  { r with cancelKeys := fun d => if d = id then some (now + 300 * 1000) else r.cancelKeys d }

/-- `GET cancel:<id>`: the key is there until its expiry has passed. -/
def isCancelled (r : Redis) (now : Nat) (id : Api.DeploymentId) : Bool :=
  (r.cancelKeys id).any fun expiry => now ≤ expiry

/-- `DEL cancel:<id>` -/
def clearCancelSignal (r : Redis) (id : Api.DeploymentId) : Redis :=
  { r with cancelKeys := fun d => if d = id then none else r.cancelKeys d }

def empty : Redis where
  buildQueue := []
  cleanupQueue := []
  cancelKeys := fun _ => none

end Redis

/-! ## The order of the job lists -/

namespace Queues

inductive Op (B C : Type*)
  | addBuildJob (job : B)
  | waitForJob
  | addProjectCleanupJob (job : C)
  | popProjectCleanup

/-- The lists with what was added to and taken from each of them.  Jobs carry the
number of jobs added before them. -/
structure Trace (B C : Type*) where
  queues : Queues (Nat × B) (Nat × C)
  buildsEnqueued : List (Nat × B)
  buildsHanded : List (Nat × B)
  cleanupsEnqueued : List (Nat × C)
  cleanupsHanded : List (Nat × C)

namespace Trace

variable {B C : Type*}

def empty : Trace B C where
  queues := { buildQueue := [], cleanupQueue := [] }
  buildsEnqueued := []
  buildsHanded := []
  cleanupsEnqueued := []
  cleanupsHanded := []

def step (t : Trace B C) : Op B C → Trace B C
  | .addBuildJob job =>
    let e := (t.buildsEnqueued.length, job)
    { t with queues := t.queues.addBuildJob e, buildsEnqueued := t.buildsEnqueued ++ [e] }
  | .waitForJob =>
    match t.queues.waitForJob with
    | none => t
    | some (e, queues) => { t with queues, buildsHanded := t.buildsHanded ++ [e] }
  | .addProjectCleanupJob job =>
    let e := (t.cleanupsEnqueued.length, job)
    { t with
      queues := t.queues.addProjectCleanupJob e, cleanupsEnqueued := t.cleanupsEnqueued ++ [e] }
  | .popProjectCleanup =>
    match t.queues.popProjectCleanup with
    | none => t
    | some (e, queues) => { t with queues, cleanupsHanded := t.cleanupsHanded ++ [e] }

def run (ops : List (Op B C)) : Trace B C := ops.foldl step empty

def buildOp : Op B C → Option (Deque.Op B)
  | .addBuildJob job => some (.push job)
  | .waitForJob => some .pop
  | _ => none

def cleanupOp : Op B C → Option (Deque.Op C)
  | .addProjectCleanupJob job => some (.push job)
  | .popProjectCleanup => some .pop
  | _ => none

def builds (t : Trace B C) : Deque.History B :=
  { waiting := t.queues.buildQueue, enqueued := t.buildsEnqueued, handed := t.buildsHanded }

def cleanups (t : Trace B C) : Deque.History C :=
  { waiting := t.queues.cleanupQueue, enqueued := t.cleanupsEnqueued, handed := t.cleanupsHanded }

theorem run_concat (ops : List (Op B C)) (op : Op B C) : run (ops ++ [op]) = step (run ops) op := by
  rw [run, List.foldl_append, List.foldl_cons, List.foldl_nil, run]

theorem builds_step (t : Trace B C) (op : Op B C) :
    (step t op).builds =
      (buildOp op).elim t.builds (Deque.History.step Deque.rpush t.builds) := by
  cases op with
  | addBuildJob job => rfl
  | waitForJob =>
    simp only [step, waitForJob, buildOp, Option.elim_some, Deque.History.step]
    cases hpop : Deque.rpop t.queues.buildQueue <;> simp [hpop, builds]
  | addProjectCleanupJob job => rfl
  | popProjectCleanup =>
    simp only [step, popProjectCleanup, buildOp, Option.elim_none]
    cases Deque.rpop t.queues.cleanupQueue <;> rfl

theorem cleanups_step (t : Trace B C) (op : Op B C) :
    (step t op).cleanups =
      (cleanupOp op).elim t.cleanups (Deque.History.step Deque.lpush t.cleanups) := by
  cases op with
  | addBuildJob job => rfl
  | waitForJob =>
    simp only [step, waitForJob, cleanupOp, Option.elim_none]
    cases Deque.rpop t.queues.buildQueue <;> rfl
  | addProjectCleanupJob job => rfl
  | popProjectCleanup =>
    simp only [step, popProjectCleanup, cleanupOp, Option.elim_some, Deque.History.step]
    cases hpop : Deque.rpop t.queues.cleanupQueue <;> simp [hpop, cleanups]

theorem builds_run (ops : List (Op B C)) :
    (run ops).builds = Deque.History.run Deque.rpush (ops.filterMap buildOp) := by
  induction ops using List.reverseRecOn with
  | nil => rfl
  | append_singleton ops op ih =>
    rw [run_concat, builds_step, ih, List.filterMap_append]
    cases hop : buildOp op with
    | none => simp [hop]
    | some o => simp [hop, Deque.History.run_concat]

theorem cleanups_run (ops : List (Op B C)) :
    (run ops).cleanups = Deque.History.run Deque.lpush (ops.filterMap cleanupOp) := by
  induction ops using List.reverseRecOn with
  | nil => rfl
  | append_singleton ops op ih =>
    rw [run_concat, cleanups_step, ih, List.filterMap_append]
    cases hop : cleanupOp op with
    | none => simp [hop]
    | some o => simp [hop, Deque.History.run_concat]

theorem length_buildQueue (ops : List (Op B C)) :
    (run ops).queues.buildQueue.length = Deque.backlog (ops.filterMap buildOp) := by
  have h := Deque.length_waiting_rpush (ops.filterMap (buildOp (C := C)))
  rw [← builds_run] at h
  exact h

theorem prompt_builds_iff (ops : List (Op B C)) :
    Deque.Prompt (ops.filterMap buildOp) ↔
      ∀ earlier later, ops = earlier ++ .waitForJob :: later →
        (run earlier).queues.buildQueue.length ≤ 1 := by
  constructor
  · rintro h earlier later rfl
    rw [length_buildQueue]
    exact h (earlier.filterMap buildOp) (later.filterMap buildOp) (by simp [buildOp])
  · intro h earlier later hops
    obtain ⟨pre, post, rfl, hpre, hpost⟩ := List.filterMap_eq_append_iff.mp hops
    obtain ⟨skipped, op, rest, rfl, hskip, hop, _⟩ := List.filterMap_eq_cons_iff.mp hpost
    have hwait : op = .waitForJob := by
      cases op <;> simp [buildOp] at hop ⊢
    subst hwait
    have hlen := h (pre ++ skipped) rest (by simp)
    rw [length_buildQueue, List.filterMap_append, hpre,
      List.filterMap_eq_nil_iff.mpr hskip, List.append_nil] at hlen
    exact hlen

end Trace

/-- Both lists are first in, first out exactly on the histories in which no pop of
the build queue finds a second job waiting. -/
theorem handed_prefix_enqueued_iff {B C : Type*} (ops : List (Op B C)) :
    ((Trace.run ops).buildsHanded <+: (Trace.run ops).buildsEnqueued ∧
        (Trace.run ops).cleanupsHanded <+: (Trace.run ops).cleanupsEnqueued) ↔
      ∀ earlier later, ops = earlier ++ .waitForJob :: later →
        (Trace.run earlier).queues.buildQueue.length ≤ 1 := by
  have hcleanups := Deque.lpush_handed_prefix (ops.filterMap (Trace.cleanupOp (B := B)))
  rw [← Trace.cleanups_run] at hcleanups
  have hbuilds := Deque.rpush_handed_prefix_iff (ops.filterMap (Trace.buildOp (C := C)))
  rw [← Trace.builds_run, Trace.prompt_builds_iff] at hbuilds
  exact ⟨fun h => hbuilds.mp h.1, fun h => ⟨hbuilds.mpr h, hcleanups⟩⟩

/-- Two waiting builds are handed out youngest first. -/
theorem not_handed_prefix_enqueued :
    ¬∀ ops : List (Op Api.BuildJob Api.ProjectCleanupJob),
      (Trace.run ops).buildsHanded <+: (Trace.run ops).buildsEnqueued ∧
        (Trace.run ops).cleanupsHanded <+: (Trace.run ops).cleanupsEnqueued := by
  intro h
  let job (deploymentId : Api.DeploymentId) : Api.BuildJob :=
    { deploymentId, projectId := 1, projectName := Api.shopName
      gitUrl := "https://github.com/ada/shop.git", installationId := 7, branch := "main"
      commitHash := "0123456789abcdef0123456789abcdef01234567", rootDirectory := "./"
      buildConfig :=
        { installCommand := "", buildCommand := "", runCommand := "", outputDir := ""
          framework := "other" }
      domains := ["https://shop-a1b2c3.example.dev"], envVars := []
      previousDeploymentId := none }
  have hbuilds := (h [.addBuildJob (job 2), .addBuildJob (job 3), .waitForJob]).1
  revert hbuilds
  decide

end Queues
end System
end Code2Cloud
