import Code2Cloud.System.Keys
import Code2Cloud.System.Live
import Code2Cloud.System.Sequence

/-!
# Online status

A project's `onlineStatus` sums up its deployments.  The build worker writes it when it takes up a
job, when the job succeeds and when it is cancelled, and the sweep when it has expired a
deployment; a job that fails leaves it as it is.
-/

namespace Code2Cloud
namespace System

open Api Worker

variable {cfg : Config} {w : World} {s s' : State} {e : Event} {p : ProjectId}

def World.serving (w : World) (p : ProjectId) : Bool :=
  w.db.deployments.any fun d => d.projectId == p && d.status == .ready

def World.servedBeside (w : World) (id : DeploymentId) (p : ProjectId) : Bool :=
  w.db.deployments.any fun d => d.projectId == p && d.status == .ready && d.id != id

def Command.takes : Command → Option DeploymentId
  | .writeStatus id x => if x.status = .ready then none else some id
  | _ => none

def Event.ofSweep : Event → Bool
  | .sweep _ => true
  | _ => false

/-! ## Who is to write the status -/

namespace BuildWorker

/-- The project whose status the worker is still to write. -/
def owes : BuildWorker → Option ProjectId
  | processing _ .stopPrevious | processing _ .supersede | processing _ .startStreaming => none
  | processing b _ => some b.job.projectId
  | cancelling _ .clearSignal | cancelling _ .stopStreams => none
  | cancelling job _ | failing job _ => some job.projectId
  | idle => none

/-- The worker asks neither the API nor the cluster: it waits for Redis, GitHub or the builder. -/
def elsewhere : BuildWorker → Bool
  | idle | processing _ .checkQueued | processing _ .checkSettings | processing _ .checkClone
  | processing _ .checkBuild | processing _ .checkDeploy | processing _ .getToken
  | processing _ .clone | processing _ .build | cancelling _ .clearSignal => true
  | _ => false

end BuildWorker

namespace CleanupWorker

/-- The project that the sweep is to mark as offline. -/
def owes : CleanupWorker → Option ProjectId
  | projectInactive d _ => some d.projectId
  | _ => none

def busy : CleanupWorker → Bool
  | idle | fetching _ _ => false
  | _ => true

end CleanupWorker

/-! ## The condition -/

/-- The worker's requests to the API and to the cluster are answered, and no user sets a status by
hand. -/
def Answered (s : State) : Event → Prop
  | .worker r => r.outcome = .ok ∨ s.procs.worker.elsewhere = true
  | .sweep r | .projectCleanup r | .domainWorker r => r.outcome = .ok
  | .request (.updateStatus _ _ _) => False
  | _ => True

instance (s : State) (e : Event) : Decidable (Answered s e) :=
  match e with
  | .worker r => inferInstanceAs (Decidable (r.outcome = .ok ∨ s.procs.worker.elsewhere = true))
  | .sweep r | .projectCleanup r | .domainWorker r => inferInstanceAs (Decidable (r.outcome = .ok))
  | .request (.updateStatus _ _ _) => instDecidableFalse
  | .request (.createDeployment _ _) | .request (.cancel _ _) | .request (.push _)
  | .request (.createProject _ _) | .request (.updateProject _ _ _) | .request (.removeProject _ _)
  | .request (.createDomain _ _ _) | .request (.removeDomain _ _) | .tick _ | .edit _ | .call _ _
  | .restart => instDecidableTrue

/-- ACTIVE is written to a project that has a READY deployment, or that the sweep is to mark as
offline; another status to one that has none, or whose status the worker is still to write. -/
def TellsStatus (s : State) (t : Turn Processes) (q : Project) : Prop :=
  ∀ status ∈ t.command.setsOnline q.id,
    if status = .active then s.world.serving q.id = true ∨ t.next.sweep.owes = some q.id
    else s.world.serving q.id = true → t.next.worker.owes = some q.id

/-- Of a project that is ACTIVE only the sweep takes the last READY deployment. -/
def SparesLast (s : State) (e : Event) (t : Turn Processes) (q : Project) : Prop :=
  e.ofSweep = false → q.onlineStatus = .active → ∀ x ∈ t.command.takes,
    s.world.serving q.id = true → s.world.servedBeside x q.id = true ∨
      t.next.sweep.owes = some q.id

/-- The worker lets go of a job without a status only if the project has no READY deployment or is
ACTIVE, and its process does not end before the sweep has marked a project as offline. -/
def EndsTold (cfg : Config) (s : State) (e : Event) (t : Turn Processes) (q : Project) : Prop :=
  (s.procs.worker.owes = some q.id → t.next.worker.owes = some q.id ∨
    t.command.setsOnline q.id ≠ none ∨ s.world.serving q.id = false ∨ q.onlineStatus = .active) ∧
  (s.ends cfg e = true → s.procs.sweep.owes = some q.id →
    s.world.serving q.id = true ∨ q.onlineStatus ≠ .active)

def Tells (cfg : Config) (s : State) (e : Event) : Prop :=
  ∀ t ∈ s.turn cfg e, ∀ q ∈ s.world.db.projects,
    TellsStatus s t q ∧ SparesLast s e t q ∧ EndsTold cfg s e t q

instance (s : State) (t : Turn Processes) (q : Project) : Decidable (TellsStatus s t q) :=
  Option.decidableForallMem _

instance (s : State) (e : Event) (t : Turn Processes) (q : Project) :
    Decidable (SparesLast s e t q) :=
  have : Decidable (∀ x ∈ t.command.takes, s.world.serving q.id = true →
      s.world.servedBeside x q.id = true ∨ t.next.sweep.owes = some q.id) :=
    Option.decidableForallMem _
  inferInstanceAs (Decidable (_ → _ → _))

instance (cfg : Config) (s : State) (e : Event) (t : Turn Processes) (q : Project) :
    Decidable (EndsTold cfg s e t q) :=
  inferInstanceAs (Decidable (_ ∧ _))

instance (cfg : Config) (s : State) (e : Event) : Decidable (Tells cfg s e) :=
  Option.decidableForallMem _

/-! ## READY deployments -/

theorem takes_eq_some_iff {c : Command} {id : DeploymentId} :
    c.takes = some id ↔ ∃ x, c = .writeStatus id x ∧ x.status ≠ .ready := by
  constructor
  · intro h
    cases c with
    | writeStatus id' x =>
      rw [Command.takes] at h
      split at h
      · cases h
      · rename_i hx
        cases h
        exact ⟨x, rfl, hx⟩
    | _ => cases h
  · rintro ⟨x, rfl, hx⟩
    exact if_neg hx

namespace World

theorem serving_iff : w.serving p = true ↔
    ∃ d ∈ w.db.deployments, d.projectId = p ∧ d.status = .ready := by
  simp [serving]

theorem servedBeside_iff {id : DeploymentId} : w.servedBeside id p = true ↔
    ∃ d ∈ w.db.deployments, d.projectId = p ∧ d.status = .ready ∧ d.id ≠ id := by
  simp [servedBeside, and_assoc]

theorem deployment_exec (cfg : Config) {c : Command}
    (hshuffle : ∀ rows, c = .shuffleDeployments rows → rows.Perm w.db.deployments)
    {d : Deployment} (hd : d ∈ w.db.deployments) :
    d ∈ (w.exec cfg c).db.deployments ∨ c = .deleteProject d.projectId ∨
      ∃ x, c = .writeStatus d.id x ∧ x.apply w.now d ∈ (w.exec cfg c).db.deployments := by
  rw [db_exec]
  cases c with
  | createDeployment | createRedeployment | commitDraft =>
    exact Or.inl (List.mem_append_left _ hd)
  | writeStatus id x =>
    by_cases hid : d.id = id
    · subst hid
      exact Or.inr (Or.inr ⟨x, rfl, List.mem_map.mpr ⟨d, hd, if_pos rfl⟩⟩)
    · exact Or.inl (List.mem_map.mpr ⟨d, hd, if_neg hid⟩)
  | deleteProject id =>
    by_cases hid : d.projectId = id
    · exact Or.inr (Or.inl (by rw [hid]))
    · exact Or.inl (List.mem_filter.mpr ⟨hd, bne_iff_ne.mpr hid⟩)
  | shuffleDeployments rows => exact Or.inl ((hshuffle rows rfl).mem_iff.mpr hd)
  | _ => exact Or.inl hd

/-- A project has a READY deployment until it is removed or its last one is taken. -/
theorem serving_exec {c : Command}
    (hshuffle : ∀ rows, c = .shuffleDeployments rows → rows.Perm w.db.deployments)
    (h : w.serving p = true) :
    (w.exec cfg c).serving p = true ∨ c = .deleteProject p ∨
      ∃ id, c.takes = some id ∧ w.servedBeside id p = false ∧
        ∃ d ∈ w.db.deployments, d.id = id ∧ d.projectId = p := by
  obtain ⟨d, hd, rfl, hready⟩ := serving_iff.mp h
  rcases deployment_exec cfg hshuffle hd with hd' | hdelete | ⟨x, hc, hd'⟩
  · exact Or.inl (serving_iff.mpr ⟨d, hd', rfl, hready⟩)
  · exact Or.inr (Or.inl hdelete)
  · by_cases hx : x.status = .ready
    · refine Or.inl (serving_iff.mpr ⟨_, hd', StatusWrite.apply_projectId _ _ _, ?_⟩)
      rw [StatusWrite.apply_status, hx]
    · have htakes : c.takes = some d.id := takes_eq_some_iff.mpr ⟨x, hc, hx⟩
      cases hbeside : w.servedBeside d.id d.projectId with
      | false => exact Or.inr (Or.inr ⟨d.id, htakes, hbeside, d, hd, rfl, rfl⟩)
      | true =>
        obtain ⟨d₂, hd₂, hproject, hready₂, hne⟩ := servedBeside_iff.mp hbeside
        refine Or.inl (serving_iff.mpr ⟨d₂, ?_, hproject, hready₂⟩)
        rcases deployment_exec cfg hshuffle hd₂ with hd₂' | hdelete | ⟨y, hc', _⟩
        · exact hd₂'
        · cases hc.symm.trans hdelete
        · exact absurd (Command.writeStatus.inj (hc'.symm.trans hc)).1 hne

end World

/-! ## Requests -/

def Call.plain : Call → Bool
  | .updateStatus _ | .late _ => false
  | _ => true

theorem plain_next {c c' : Call} {r : Reply} (hc : c.plain = true)
    (h : (c.step cfg w r).next = some c') : c'.plain = true := by
  cases c with
  | updateStatus | late => cases hc
  | _ =>
    obtain ⟨x, _, rfl⟩ := toCall_eq_some h
    rfl

theorem status_of_plain {c : Call} (hc : c.plain = true) {id : DeploymentId} {x : StatusWrite}
    (h : c.writes = some (id, x)) : x.status ≠ .ready := by
  unfold Call.writes at h
  split at h <;> cases h
  · exact (by decide : DeploymentStatus.canceled ≠ .ready)
  · cases hc
  · exact (by decide : DeploymentStatus.canceled ≠ .ready)
  · cases hc

/-! ## Requests that are left behind -/

theorem deferred_query {σ : Type} (o : Outcome) (ok err : σ) (entries errors : List Entry) :
    (query o (.pure ok entries) (.pure err errors)).deferred = [] := by
  unfold query
  split <;> rfl

theorem deferred_issue {σ : Type} (w : World) (o : Outcome) (c : Command) (ok err : σ)
    (entries errors : List Entry) : (issue w o c ok err entries errors).deferred = [] := by
  rcases issue_cases w o c ok err entries errors with ⟨_, ht⟩ | ⟨_, ht⟩ | ht <;> rw [ht]

theorem deferred_request {σ : Type} {o : Outcome} (ho : o = .ok) (w : World) (c : InternalRequest)
    (ok err : σ) (entries errors : List Entry) :
    (request w o c ok err entries errors).deferred = [] := by
  rw [ho]
  rfl

theorem BuildWorker.deferred_step {r : Reply} {b : BuildWorker}
    (h : r.outcome = .ok ∨ b.elsewhere = true) : (b.step cfg w r).deferred = [] := by
  cases b with
  | idle =>
    rw [step]
    split
    · rfl
    · exact deferred_issue _ _ _ _ _ _ _
  | processing b pc =>
    rw [step]
    cases pc with
    | checkQueued | checkSettings | checkClone | checkBuild | checkDeploy =>
      rw [processStep, check]
      split <;> rfl
    | projectPending | markBuilding | recordImage | markDeploying | markReady | projectActive =>
      exact deferred_request (h.resolve_right Bool.false_ne_true) _ _ _ _ _ _
    | getSettings | startStreaming => rfl
    | getToken | clone | build => exact deferred_query _ _ _ _ _
    | deploy stage =>
      rw [processStep]
      split
      · exact deferred_issue _ _ _ _ _ _ _
      · rfl
    | stopPrevious =>
      rw [processStep]
      split <;> rfl
    | supersede =>
      rw [processStep]
      split
      · exact deferred_request (h.resolve_right Bool.false_ne_true) _ _ _ _ _ _
      · rfl
  | cancelling job pc =>
    rw [step]
    cases pc with
    | markCanceled | deleteResources | projectInactive =>
      exact deferred_request (h.resolve_right Bool.false_ne_true) _ _ _ _ _ _
    | stopStreaming | stopStreams => rfl
    | clearSignal => exact deferred_issue _ _ _ _ _ _ _
    | cleanup left =>
      cases left with
      | nil => rfl
      | cons => exact deferred_issue _ _ _ _ _ _ _
  | failing job pc =>
    rw [step]
    cases pc with
    | markFailed => exact deferred_request (h.resolve_right Bool.false_ne_true) _ _ _ _ _ _
    | stopStreams => rfl

theorem CleanupWorker.deferred_step {r : Reply} (h : r.outcome = .ok) (c : CleanupWorker) :
    (c.step w r).deferred = [] := by
  cases c with
  | idle => exact deferred_query _ _ _ _ _
  | fetching configs found => cases configs <;> exact deferred_query _ _ _ _ _
  | stopStreaming => rfl
  | cleanup d left rest =>
    cases left with
    | nil => rfl
    | cons => exact deferred_issue _ _ _ _ _ _ _
  | markExpired | projectInactive => exact deferred_request h _ _ _ _ _ _

theorem ProjectCleanupWorker.deferred_step {r : Reply} (c : ProjectCleanupWorker) :
    (c.step w r).deferred = [] := by
  cases c with
  | idle =>
    rw [step]
    split
    · rfl
    · exact deferred_issue _ _ _ _ _ _ _
  | stopStreaming job ids => cases ids <;> rfl
  | cleanup job left =>
    cases left with
    | nil => rfl
    | cons => exact deferred_issue _ _ _ _ _ _ _

theorem DomainWorker.deferred_step {r : Reply} (h : r.outcome = .ok) (c : DomainWorker) :
    (c.step w r).deferred = [] := by
  cases c with
  | idle | getIngress => exact deferred_query _ _ _ _ _
  | verify => rfl
  | markPending | markError | markActive => exact deferred_request h _ _ _ _ _ _
  | updateHosts => exact deferred_issue _ _ _ _ _ _ _

namespace State

theorem deferred_of_answered (ha : Answered s e) {t : Turn Processes}
    (ht : s.turn cfg e = some t) : t.deferred = [] := by
  cases e with
  | tick | request | restart =>
    cases ht
    rfl
  | edit edit =>
    rw [turn] at ht
    split at ht <;> cases ht
    rfl
  | call i r =>
    rw [turn, Option.map_eq_some_iff] at ht
    obtain ⟨c, _, rfl⟩ := ht
    exact (foreground_call cfg s.world r c).deferred
  | worker r =>
    cases ht
    exact BuildWorker.deferred_step ha
  | sweep r =>
    cases ht
    exact CleanupWorker.deferred_step ha _
  | projectCleanup r =>
    cases ht
    exact ProjectCleanupWorker.deferred_step _
  | domainWorker r =>
    cases ht
    exact DomainWorker.deferred_step ha _

def Plain (s : State) : Prop := ∀ c ∈ s.procs.calls, c.plain = true

theorem plain_step (hs : s.Plain) (ha : Answered s e) (h : s.step cfg e = some s') :
    s'.Plain := by
  intro c hc
  cases origin_step h hc with
  | old hold => exact hs c hold
  | start r =>
    cases r with
    | updateStatus => exact ha.elim
    | _ => rfl
  | next hc₀ hnext => exact plain_next (hs _ (List.mem_of_getElem? hc₀)) hnext
  | late ht hx =>
    rw [deferred_of_answered ha ht] at hx
    cases hx

end State

/-! ## Who writes the status -/

theorem World.admits_setOnlineStatus (h : w.hasProject p = true) (status : DomainDnsStatus) :
    w.admits (.setOnlineStatus p status) = true := by
  rw [World.admits, Database.findProject, List.find?_isSome]
  exact List.any_eq_true.mp h

namespace CleanupWorker

/-- The sweep marks a project as offline when it has marked a deployment as expired. -/
theorem owes_of_takes {r : Reply} (hok : r.outcome = .ok) {c : CleanupWorker} {id : DeploymentId}
    (h : (c.step w r).command.takes = some id) :
    ∃ d ∈ c.found, d.id = id ∧ (c.step w r).next.owes = some d.projectId := by
  rcases command_sweep w r c with hc | hc
  · cases c with
    | markExpired d rest =>
      rw [hc] at h
      cases h
      refine ⟨d, List.mem_cons_self, rfl, ?_⟩
      have hnext : (step w r (markExpired d rest)).next = projectInactive d rest := by
        rw [step, request, hok] at hc ⊢
        exact next_issue_ok fun hskip => by cases hc.symm.trans hskip
      rw [hnext]
      rfl
    | cleanup d left rest =>
      rw [hc] at h
      cases left <;> cases h
    | _ =>
      rw [hc] at h
      cases h
  · rw [hc] at h
    cases h

theorem command_of_owes {r : Reply} (hok : r.outcome = .ok) {c : CleanupWorker}
    (hp : c.owes = some p) (hrow : w.hasProject p = true) :
    (c.step w r).command = .setOnlineStatus p .inactive := by
  cases c with
  | projectInactive d rest =>
    cases hp
    exact command_of_done (World.admits_setOnlineStatus hrow _) (Or.inl hok) _ _ _ _
  | _ => cases hp

end CleanupWorker

/-- The worker marks its project as online when it has marked a deployment READY. -/
theorem BuildWorker.owes_of_readied (cfg : Config) {r : Reply} {b : BuildWorker} {id : DeploymentId}
    (ha : r.outcome = .ok ∨ b.elsewhere = true) (h : (b.step cfg w r).command.readied = some id) :
    ∃ job, b.job = some job ∧ job.deploymentId = id ∧
      (b.step cfg w r).next.bind owes = some job.projectId := by
  obtain ⟨x, hc, hx⟩ := readied_eq_some_iff.mp h
  have hwrites := (b.writes_step cfg w r).command id x hc
  rw [hx] at hwrites
  obtain ⟨build, rfl, hid⟩ := markReady_of_writes hwrites
  have hok : r.outcome = .ok := ha.resolve_right Bool.false_ne_true
  refine ⟨build.job, rfl, hid, ?_⟩
  have hnext : (step cfg w r (processing build .markReady)).next =
      some (processing build .projectActive) := by
    rw [step, processStep, hok] at hc ⊢
    exact next_issue_ok fun hskip => by cases hc.symm.trans hskip
  rw [hnext]
  rfl

theorem setsOnline_eq_some {c : Command} {status : DomainDnsStatus}
    (h : c.setsOnline p = some status) : c = .setOnlineStatus p status := by
  cases c with
  | setOnlineStatus id st =>
    rw [Command.setsOnline] at h
    split at h
    · rename_i hid
      cases h
      rw [hid]
    · cases h
  | _ => cases h

theorem World.hasProject_of_mem {q : Project} (hq : q ∈ w.db.projects) :
    w.hasProject q.id = true :=
  List.any_eq_true.mpr ⟨q, hq, beq_self_eq_true _⟩

namespace State

/-- A project that is ACTIVE has a READY deployment or is to be marked as offline, and one that has
a READY deployment is ACTIVE or to be marked as online. -/
structure Told (s : State) : Prop where
  drafts : ∀ c ∈ s.procs.calls, ∀ draft, c.draft = some draft →
    draft.project.onlineStatus = .pending
  found : ∀ d ∈ s.procs.sweep.found, s.Belongs d.id d.projectId
  active : ∀ q ∈ s.world.db.projects, q.onlineStatus = .active →
    s.world.serving q.id = true ∨ s.procs.sweep.owes = some q.id
  serving : ∀ q ∈ s.world.db.projects, s.world.serving q.id = true →
    q.onlineStatus = .active ∨ s.procs.worker.owes = some q.id

theorem told_initial : initial.Told where
  drafts _ hc := absurd hc List.not_mem_nil
  found _ hd := absurd hd List.not_mem_nil
  active _ hq := absurd hq List.not_mem_nil
  serving _ hq := absurd hq List.not_mem_nil

/-- A project that is ACTIVE keeps a READY deployment, or the sweep is to mark it as offline. -/
theorem Told.serving_after (hs : s.Told) (ha : Answered s e) (hok : Tells cfg s e)
    {t : Turn Processes} (ht : s.turn cfg e = some t) {q : Project} (hq : q ∈ s.world.db.projects)
    (hactive : q.onlineStatus = .active) (hserving : s.world.serving q.id = true)
    (hdelete : t.command ≠ .deleteProject q.id) :
    (s.after cfg t).world.serving q.id = true ∨ (s.after cfg t).procs.sweep.owes = some q.id := by
  rcases World.serving_exec (shuffles_turn ht) hserving with
    hstays | hdeleted | ⟨id, htakes, hbeside, d, hd, rfl, hproject⟩
  · exact Or.inl hstays
  · exact absurd hdeleted hdelete
  · cases hsweep : e.ofSweep with
    | false =>
      rcases (hok t ht q hq).2.1 hsweep hactive d.id htakes hserving with hother | howes
      · rw [hbeside] at hother
        cases hother
      · exact Or.inr howes
    | true =>
      cases e with
      | sweep r =>
        cases ht
        obtain ⟨x, hx, hid, howes⟩ := CleanupWorker.owes_of_takes ha htakes
        refine Or.inr ?_
        show ((s.procs.sweep.step s.world r).next).owes = _
        rw [howes, ← (hs.found x hx).rows d hd hid.symm, hproject]
      | _ => cases hsweep

theorem Told.active_step (hs : s.Told) (ha : Answered s e) (hok : Tells cfg s e)
    (h : s.step cfg e = some s') {q' : Project} (hq' : q' ∈ s'.world.db.projects)
    (hactive : q'.onlineStatus = .active) :
    s'.world.serving q'.id = true ∨ s'.procs.sweep.owes = some q'.id := by
  have hloops := loops_step h
  obtain ⟨t, ht, _, rfl⟩ := step_eq_some_iff.mp h
  rcases World.mem_projects_exec hq' with hnew | ⟨q, hq, hafter⟩
  · obtain ⟨draft, hc, rfl⟩ := mem_projects.mp hnew
    obtain ⟨c, hmem, hdraft⟩ := holder_of_commit ht hc
    rw [hs.drafts c hmem draft hdraft] at hactive
    cases hactive
  · obtain ⟨htells, _, hends⟩ := hok t ht q hq
    have hdelete : t.command ≠ .deleteProject q.id := by
      intro hc
      rw [after, hc] at hq'
      exact absurd hafter.id (bne_iff_ne.mp (List.mem_filter.mp hq').2)
    rw [hafter.id]
    rw [hafter.onlineStatus] at hactive
    cases hset : t.command.setsOnline q.id with
    | some status =>
      rw [hset, Option.getD_some] at hactive
      have htold := htells status hset
      rw [if_pos hactive] at htold
      refine htold.imp_left fun hserving => ?_
      rw [after, setsOnline_eq_some hset]
      exact hserving
    | none =>
      rw [hset, Option.getD_none] at hactive
      rcases hs.active q hq hactive with hserving | howes
      · exact hs.serving_after ha hok ht hq hactive hserving hdelete
      · rcases hloops with hloops | ⟨hend, _⟩
        · by_cases hsweep : ∃ r, e = .sweep r
          · obtain ⟨r, rfl⟩ := hsweep
            cases ht
            have hc := CleanupWorker.command_of_owes ha howes (World.hasProject_of_mem hq)
            rw [Turn.command_map, hc, Command.setsOnline, if_pos rfl] at hset
            cases hset
          · rw [hloops.sweep fun r hr => hsweep ⟨r, hr⟩]
            exact Or.inr howes
        · rcases hends.2 hend howes with hserving | hoffline
          · exact hs.serving_after ha hok ht hq hactive hserving hdelete
          · exact absurd hactive hoffline

/-- The project of a deployment that becomes READY is to be marked as online. -/
theorem owes_of_readied (hm : s.Matched) (hp : s.Plain) (ha : Answered s e) {t : Turn Processes}
    (ht : s.turn cfg e = some t) {d : Deployment} (hd : d ∈ s.world.db.deployments)
    (hreadied : t.command.readied = some d.id) : t.next.worker.owes = some d.projectId := by
  obtain ⟨x, hc, hx⟩ := readied_eq_some_iff.mp hreadied
  cases (writes_turn ht).command d.id x hc with
  | call hmem hw => exact absurd hx (status_of_plain (hp _ hmem) hw)
  | @worker r hw =>
    cases ht
    obtain ⟨job, hjob, hid, howes⟩ := BuildWorker.owes_of_readied cfg ha hreadied
    obtain ⟨b, hnext, hb⟩ := Option.bind_eq_some_iff.mp howes
    have hproject := (hm.worker job hjob).rows d hd hid.symm
    rw [Turn.map, Processes.setWorker_worker, hnext, Option.getD_some, hb, hproject]
  | sweep hexpired =>
    rw [hx] at hexpired
    cases hexpired

theorem Told.serving_step (hs : s.Told) (hl : s.Listed) (hr : s.Referenced) (hm : s.Matched)
    (hp : s.Plain) (ha : Answered s e) (hok : Tells cfg s e) (h : s.step cfg e = some s')
    {q' : Project} (hq' : q' ∈ s'.world.db.projects) (hserving : s'.world.serving q'.id = true) :
    q'.onlineStatus = .active ∨ s'.procs.worker.owes = some q'.id := by
  obtain ⟨d', hd', hproject', hready'⟩ := World.serving_iff.mp hserving
  obtain ⟨d, hd, _, hproject, hbefore⟩ := ready_step h hd' hready'
  obtain ⟨t, ht, _, rfl⟩ := step_eq_some_iff.mp h
  rw [hproject'] at hproject
  rcases World.mem_projects_exec hq' with hnew | ⟨q, hq, hafter⟩
  · obtain ⟨draft, hc, rfl⟩ := mem_projects.mp hnew
    exact absurd hproject (hr.projectId_ne hl ht hc hd)
  · rcases hbefore with hready | ⟨_, t', ht', hreadied⟩
    · obtain ⟨htells, _, hends⟩ := hok t ht q hq
      rw [hafter.id] at hproject ⊢
      have hserved : s.world.serving q.id = true := World.serving_iff.mpr ⟨d, hd, hproject, hready⟩
      rw [hafter.onlineStatus]
      cases hset : t.command.setsOnline q.id with
      | some status =>
        have htold := htells status hset
        by_cases hactive : status = .active
        · exact Or.inl hactive
        · rw [if_neg hactive] at htold
          exact Or.inr (htold hserved)
      | none =>
        rcases hs.serving q hq hserved with hactive | howes
        · exact Or.inl hactive
        · rcases hends.1 howes with howes | hwritten | hnone | hactive
          · exact Or.inr howes
          · exact absurd hset hwritten
          · rw [hserved] at hnone
            cases hnone
          · exact Or.inl hactive
    · cases ht.symm.trans ht'
      exact Or.inr (hproject ▸ owes_of_readied hm hp ha ht hd hreadied)

theorem told_step (hs : s.Told) (ht : s.Tabled) (hl : s.Listed) (hr : s.Referenced)
    (hm : s.Matched) (hp : s.Plain) (ha : Answered s e) (hok : Tells cfg s e)
    (h : s.step cfg e = some s') : s'.Told where
  drafts c' hc' draft hdraft := by
    rcases draft_step_cases h hc' hdraft with ⟨c, hc, hheld⟩ | hnew
    · exact hs.drafts c hc draft hheld
    · obtain ⟨hash, ivs, userId, dto, commit, rfl⟩ := hnew
      rfl
  found d hd := by
    rcases found_step h hd with hold | ⟨row, hrow, hid, hproject, _⟩
    · exact belongs_step (hs.found d hold) h
    · rw [← hid, ← hproject]
      exact belongs_step (ht.belongs hrow) h
  active _ hq hactive := hs.active_step ha hok h hq hactive
  serving _ hq hserving := hs.serving_step hl hr hm hp ha hok h hq hserving

/-- No job of the project is queued or being processed, and no sweep is in the middle of a
deployment. -/
structure Quiet (s : State) (p : ProjectId) : Prop where
  queue : ∀ job ∈ s.world.redis.buildQueue, job.projectId ≠ p
  worker : ∀ job, s.procs.worker.job = some job → job.projectId ≠ p
  sweep : s.procs.sweep.busy = false

theorem Quiet.worker_owes (h : s.Quiet p) : s.procs.worker.owes ≠ some p := by
  intro howes
  have hworker := h.worker
  generalize s.procs.worker = b at howes hworker
  unfold BuildWorker.owes at howes
  split at howes <;> cases howes
  all_goals exact hworker _ rfl rfl

theorem Quiet.sweep_owes (h : s.Quiet p) : s.procs.sweep.owes ≠ some p := by
  intro howes
  have hsweep := h.sweep
  generalize s.procs.sweep = c at howes hsweep
  cases c with
  | projectInactive => cases hsweep
  | _ => cases howes

end State

/-- While nobody is at work on a project it is ACTIVE exactly if it has a READY deployment, in every
run in which every status is written as it is, only the sweep takes the last READY deployment of an
ACTIVE project, and neither the worker nor the sweep is stopped before it has written a status that
has changed. -/
theorem online_status_true
    (h : Reaches (State.step cfg) (fun s e => Answered s e ∧ Tells cfg s e) State.initial s)
    {q : Project} (hq : q ∈ s.world.db.projects) (hquiet : s.Quiet q.id) :
    q.onlineStatus = .active ↔ ∃ d ∈ s.world.db.deployments, d.projectId = q.id ∧
      d.status = .ready := by
  have hall := h.invariant
    (fun s => s.Told ∧ s.Tabled ∧ s.Listed ∧ s.Referenced ∧ s.Matched ∧ s.Plain)
    ⟨State.told_initial, fun id => ⟨Nat.zero_le 1, fun _ => rfl⟩,
      fun id => ⟨Nat.zero_le 1, fun _ => rfl⟩, State.referenced_initial, State.matched_initial,
      fun _ hc => absurd hc List.not_mem_nil⟩
    fun s e s' ⟨hs, ht, hl, hr, hm, hp⟩ ⟨ha, hok⟩ hstep =>
      ⟨State.told_step hs ht hl hr hm hp ha hok hstep, State.tabled_step ht hstep,
        State.listed_step hl hstep, State.referenced_step hr hstep, State.matched_step hm ht hstep,
        State.plain_step hp ha hstep⟩
  rw [← World.serving_iff]
  constructor
  · intro hactive
    exact (hall.1.active q hq hactive).resolve_right hquiet.sweep_owes
  · intro hserving
    exact (hall.1.serving q hq hserving).resolve_right hquiet.worker_owes

/-! ## A shop that is deployed again -/

instance (s : State) (p : ProjectId) : Decidable (s.Quiet p) :=
  have : Decidable (∀ job, s.procs.worker.job = some job → job.projectId ≠ p) :=
    Option.decidableForallMem _
  decidable_of_iff ((∀ job ∈ s.world.redis.buildQueue, job.projectId ≠ p) ∧
    (∀ job, s.procs.worker.job = some job → job.projectId ≠ p) ∧ s.procs.sweep.busy = false)
    ⟨fun h => ⟨h.1, h.2.1, h.2.2⟩, fun h => ⟨h.queue, h.worker, h.sweep⟩⟩

/-- The shop goes live, and so does a push to it that takes its place. -/
theorem online_status_true_shop :
    ∃ s q, Reaches (State.step Config.clear)
        (fun s e => Answered s e ∧ Tells Config.clear s e) State.initial s ∧
      q ∈ s.world.db.projects ∧ s.Quiet q.id ∧ q.onlineStatus = .active ∧
      s.world.db.deployments.length = 2 ∧
      (q.onlineStatus = .active ↔ ∃ d ∈ s.world.db.deployments, d.projectId = q.id ∧
        d.status = .ready) := by
  obtain ⟨s, h, hend⟩ := Reaches.exists_of_runEvents (State.step Config.clear)
    (fun s e => Answered s e ∧ Tells Config.clear s e) State.initial
    (shopCreated ++ shopWorker 23 ++ shopRequest (.push WebhooksService.shopPush) 4 ++
      shopWorker 25)
    (fun s => s.world.db.deployments.length == 2 && s.world.db.projects.any fun q =>
      decide (q.onlineStatus = .active) && decide (s.Quiet q.id))
    (by decide) (by decide)
  rw [Bool.and_eq_true, beq_iff_eq, List.any_eq_true] at hend
  obtain ⟨hlength, q, hq, hend⟩ := hend
  rw [Bool.and_eq_true, decide_eq_true_eq, decide_eq_true_eq] at hend
  exact ⟨s, q, h, hq, hend.2, hend.1, hlength, online_status_true h hq hend.2⟩

/-- The live shop is deployed again, and its repository cannot be cloned: it stays PENDING. -/
theorem not_online_status_true :
    ¬∀ (cfg : Config) (s : State), Reaches (State.step cfg) Answered State.initial s →
      ∀ q ∈ s.world.db.projects, s.Quiet q.id →
        (q.onlineStatus = .active ↔ ∃ d ∈ s.world.db.deployments, d.projectId = q.id ∧
          d.status = .ready) := by
  intro h
  obtain ⟨s, hs, hend⟩ := Reaches.exists_of_runEvents (State.step Config.clear) Answered
    State.initial
    (shopCreated ++ shopWorker 23 ++ shopRequest (.createDeployment 1 1) 6 ++ shopWorker 8 ++
      [.worker { shopReply with outcome := .fail }] ++ shopWorker 2)
    (fun s => s.world.db.projects.any fun q => decide (q.onlineStatus ≠ .active) &&
      decide (s.Quiet q.id) && s.world.serving q.id)
    (by decide) (by decide)
  obtain ⟨q, hq, hend⟩ := List.any_eq_true.mp hend
  simp only [Bool.and_eq_true, decide_eq_true_eq] at hend
  obtain ⟨⟨hoffline, hquiet⟩, hserving⟩ := hend
  exact hoffline ((h Config.clear s hs q hq hquiet).mpr (World.serving_iff.mp hserving))

end System
end Code2Cloud
