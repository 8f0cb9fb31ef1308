import Code2Cloud.Base.Reach
import Code2Cloud.System.BuildWorker
import Code2Cloud.System.Services
import Code2Cloud.System.Sweeps

/-!
# The whole system

The API's requests in flight, the worker's loops, and the events that move them in
any order.
-/

namespace Code2Cloud
namespace System

open Api Worker

/-- A request in flight in the API. -/
inductive Call
  | createDeployment (c : DeploymentsService.Create)
  | cancel (c : DeploymentsService.Cancel)
  | updateStatus (c : DeploymentsService.UpdateStatus)
  | push (c : WebhooksService.Push)
  | createProject (c : ProjectsService.Create)
  | updateProject (c : ProjectsService.Update)
  | removeProject (c : ProjectsService.Remove)
  | createDomain (c : DomainsService.Create)
  | removeDomain (c : DomainsService.Remove)
  /-- A request of the worker that the worker no longer waits for. -/
  | late (c : InternalRequest)

inductive Request
  | createDeployment (userId : UserId) (projectId : ProjectId)
  | cancel (userId : UserId) (id : DeploymentId)
  | updateStatus (userId : UserId) (id : DeploymentId) (status : DeploymentStatus)
  | push (payload : PushEventPayload)
  | createProject (userId : UserId) (dto : CreateProjectDto)
  | updateProject (id : ProjectId) (userId : UserId) (dto : UpdateProjectDto)
  | removeProject (id : ProjectId) (userId : UserId)
  | createDomain (userId : UserId) (projectId : ProjectId) (domainName : DomainName)
  | removeDomain (userId : UserId) (id : DomainId)

def Request.start : Request → Call
  | createDeployment userId projectId => .createDeployment (.findProject userId projectId)
  | cancel userId id => .cancel (.find userId id)
  | updateStatus userId id status => .updateStatus (.find userId id status)
  | push payload => .push (.findProjects payload)
  | createProject userId dto => .createProject (.findExisting userId dto)
  | updateProject id userId dto => .updateProject (.findOne id userId dto)
  | removeProject id userId => .removeProject (.findProject id userId)
  | createDomain userId projectId domainName =>
    .createDomain (.findProject userId projectId domainName)
  | removeDomain userId id => .removeDomain (.find userId id)

def Flow.toCall {σ : Type} (wrap : σ → Call) : Flow σ → Option Call
  | .next s => some (wrap s)
  | .done | .throw _ => none

def Turn.map {σ τ : Type} (f : σ → τ) (t : Turn σ) : Turn τ := { t with next := f t.next }

def Call.step (cfg : Config) (w : World) (r : Reply) : Call → Turn (Option Call)
  | .createDeployment c => (c.step cfg w r).map (Flow.toCall .createDeployment)
  | .cancel c => (c.step w r).map (Flow.toCall .cancel)
  | .updateStatus c => (c.step w r).map (Flow.toCall .updateStatus)
  | .push c => (c.step cfg w r).map (Flow.toCall .push)
  | .createProject c => (c.step cfg w r).map (Flow.toCall .createProject)
  | .updateProject c => (c.step w r).map (Flow.toCall .updateProject)
  | .removeProject c => (c.step w r).map (Flow.toCall .removeProject)
  | .createDomain c => (c.step w r).map (Flow.toCall .createDomain)
  | .removeDomain c => (c.step w r).map (Flow.toCall .removeDomain)
  | .late c => issue w r.outcome c.command none none

/-- What users edit beside the modelled requests, and rows that started together
changing places in the table. -/
inductive Edit
  | environmentVariables (id : ProjectId) (rows : List EnvironmentVariable)
  | gitAccounts (accounts : List GitAccount)
  | systemConfigs (configs : List SystemConfig)
  | shuffleDeployments (rows : List Deployment)

def Edit.command : Edit → Command
  | environmentVariables id rows => .replaceEnvironmentVariables id rows
  | gitAccounts accounts => .setGitAccounts accounts
  | systemConfigs configs => .setSystemConfigs configs
  | shuffleDeployments rows => .shuffleDeployments rows

structure Processes where
  calls : List Call
  worker : BuildWorker
  sweep : CleanupWorker
  projectCleanup : ProjectCleanupWorker
  domainWorker : DomainWorker

structure State where
  world : World
  procs : Processes

inductive Event
  | tick (milliseconds : Nat)
  | request (r : Request)
  | edit (e : Edit)
  /-- The call at a position goes on. -/
  | call (i : Nat) (r : Reply)
  | worker (r : Reply)
  | sweep (r : Reply)
  | projectCleanup (r : Reply)
  | domainWorker (r : Reply)
  /-- The worker process ends and starts again. -/
  | restart

namespace Processes

def initial : Processes where
  calls := []
  worker := .idle
  sweep := .idle
  projectCleanup := .idle
  domainWorker := .idle

def restarted (p : Processes) : Processes := { initial with calls := p.calls }

/-- A call that goes on keeps its place; one that ended leaves. -/
def setCall (p : Processes) (i : Nat) : Option Call → Processes
  | some c => { p with calls := p.calls.set i c }
  | none => { p with calls := p.calls.eraseIdx i }

/-- The build worker's next state; a panic ends the process. -/
def setWorker (p : Processes) : Option BuildWorker → Processes
  | some worker => { p with worker }
  | none => p.restarted

end Processes

namespace State

def initial : State where
  world := World.empty
  procs := Processes.initial

/-- The turn an event is; there is none for a call that does not exist. -/
def turn (cfg : Config) (s : State) : Event → Option (Turn Processes)
  | .tick milliseconds => some { command := .tick milliseconds, next := s.procs }
  | .request r => some (.pure { s.procs with calls := s.procs.calls ++ [r.start] })
  | .edit e =>
    if s.world.admits e.command then some { command := e.command, next := s.procs } else none
  | .call i r =>
    (s.procs.calls[i]?).map fun c => (c.step cfg s.world r).map (s.procs.setCall i)
  | .worker r => some ((s.procs.worker.step cfg s.world r).map s.procs.setWorker)
  | .sweep r => some ((s.procs.sweep.step s.world r).map fun sweep => { s.procs with sweep })
  | .projectCleanup r =>
    some ((s.procs.projectCleanup.step s.world r).map
      fun projectCleanup => { s.procs with projectCleanup })
  | .domainWorker r =>
    some ((s.procs.domainWorker.step s.world r).map
      fun domainWorker => { s.procs with domainWorker })
  | .restart => some { command := .stopAll, next := s.procs.restarted }

def after (cfg : Config) (s : State) (t : Turn Processes) : State where
  world := (s.world.exec cfg t.command).record t.entries
  procs := { t.next with calls := t.next.calls ++ t.deferred.map .late }

def step (cfg : Config) (s : State) (e : Event) : Option State :=
  match s.turn cfg e with
  | none => none
  | some t => if s.world.blocks t.command then none else some (s.after cfg t)

/-- What a step does: some turn, not waiting for a lock, was taken. -/
theorem step_eq_some_iff {cfg : Config} {s s' : State} {e : Event} :
    s.step cfg e = some s' ↔
      ∃ t, s.turn cfg e = some t ∧ s.world.blocks t.command = false ∧ s' = s.after cfg t := by
  unfold step
  constructor
  · intro h
    cases ht : s.turn cfg e with
    | none => simp [ht] at h
    | some t =>
      rw [ht] at h
      by_cases hb : s.world.blocks t.command = true
      · simp [hb] at h
      · rw [Bool.not_eq_true] at hb
        simp only [hb, Bool.false_eq_true, if_false, Option.some.injEq] at h
        exact ⟨t, rfl, hb, h.symm⟩
  · rintro ⟨t, ht, hb, rfl⟩
    simp [ht, hb]

end State

/-! ## A first project -/

/-- Every request of the run is answered, and the worker process is not stopped. -/
def Event.succeeds : Event → Bool
  | .call _ r | .worker r | .sweep r | .projectCleanup r | .domainWorker r => r.outcome == .ok
  | .restart => false
  | _ => true

def shopReply : Reply where
  commitData :=
    { sha := "0123456789abcdef0123456789abcdef01234567", message := "first", author := "ada" }
  head := "0123456789abcdef0123456789abcdef01234567"
  hash := "a1b2c3"

/-- User 1 links an account and creates a project: it gets the identifier 1, and its first
deployment 2. -/
def shopCreated : List Event :=
  [.edit (.gitAccounts [{ username := "ada", installationId := some "7", userId := 1 }]),
    .request (.createProject 1
      { name := shopName, gitRepoName := "shop", gitRepoOwner := "ada"
        gitBranch := "main", gitCloneUrl := "https://github.com/ada/shop.git" })] ++
  List.replicate 6 (.call 0 shopReply)

def shopRequest (r : Request) (steps : Nat) : List Event :=
  .request r :: List.replicate steps (.call 0 shopReply)

def shopWorker (steps : Nat) : List Event := List.replicate steps (.worker shopReply)

/-- User 2 links an account and creates a project: it gets the identifier 4, and its first
deployment 5. -/
def spyCreated : List Event :=
  [.edit (.gitAccounts [{ username := "ada", installationId := some "7", userId := 1 },
      { username := "eve", installationId := some "8", userId := 2 }]),
    .request (.createProject 2
      { name := ⟨"spy", by decide⟩, gitRepoName := "spy", gitRepoOwner := "eve"
        gitBranch := "main", gitCloneUrl := "https://github.com/eve/spy.git" })] ++
  List.replicate 6 (.call 0 { shopReply with hash := "d4e5f6" })

end System
end Code2Cloud
