import Code2Cloud.System.Machine

/-!
# Turns

What a step of a process can do to the parts of the world that every process uses,
and what a step of the whole system is.
-/

namespace Code2Cloud
namespace System

open Api Worker

/-! ## The log -/

/-- Who writes an entry: a command, the API or the worker. -/
inductive Writer
  | command | api | worker
  deriving DecidableEq

def Entry.writer : Entry → Writer
  | .published _ _ | .popped _ | .applied _ _ => .command
  | .acknowledged _ => .api
  | .deployCalled _ | .deployed _ _ | .finished _ _ => .worker

def writtenBy (a : Writer) (entries : List Entry) : Bool := entries.all fun x => x.writer == a

theorem writer_of_mem {a : Writer} {entries : List Entry} (h : writtenBy a entries = true)
    {x : Entry} (hx : x ∈ entries) : x.writer = a :=
  eq_of_beq (List.all_eq_true.mp h x hx)

namespace World

def recorded (w : World) : Command → List Entry
  | .popBuildJob =>
    match w.redis.toQueues.waitForJob with
    | none => []
    | some (job, _) => [.popped job.deploymentId]
  | .publishCancelSignal id => [.published id w.now]
  | .apply (.deployment _ d) => [.applied d.projectId d.deploymentId]
  | _ => []

theorem writtenBy_recorded (w : World) (c : Command) :
    writtenBy .command (w.recorded c) = true := by
  cases c with
  | popBuildJob =>
    rw [recorded]
    cases w.redis.toQueues.waitForJob <;> rfl
  | apply o => cases o <;> rfl
  | _ => rfl

theorem log_exec (cfg : Config) (w : World) (c : Command) :
    (w.exec cfg c).log = w.log ++ w.recorded c := by
  cases c with
  | popBuildJob =>
    rw [exec, recorded]
    cases w.redis.toQueues.waitForJob <;> simp
  | popProjectCleanup =>
    rw [exec]
    cases w.redis.toQueues.popProjectCleanup <;> simp [recorded]
  | updateIngressHosts name hosts =>
    rw [exec]
    cases w.cluster.ingresses name <;> simp [recorded]
  | apply o => cases o <;> simp [exec, recorded]
  | publishCancelSignal id => rfl
  | _ => simp [exec, recorded]

theorem buildQueue_exec (cfg : Config) (w : World) (c : Command) :
    (w.exec cfg c).redis.buildQueue = w.redis.buildQueue ∨
      (∃ job, c = .addBuildJob job ∧
        (w.exec cfg c).redis.buildQueue = w.redis.buildQueue ++ [job]) ∨
      ∃ job, c = .popBuildJob ∧ w.redis.buildQueue = (w.exec cfg c).redis.buildQueue ++ [job] ∧
        w.recorded c = [.popped job.deploymentId] := by
  cases c with
  | addBuildJob job => exact Or.inr (Or.inl ⟨job, rfl, rfl⟩)
  | popBuildJob =>
    rw [exec, recorded, Queues.waitForJob]
    cases hpop : Deque.rpop w.redis.buildQueue with
    | none => exact Or.inl rfl
    | some r => exact Or.inr (Or.inr ⟨r.1, rfl, Deque.rpop_eq_some_iff.mp hpop, rfl⟩)
  | popProjectCleanup =>
    refine Or.inl ?_
    rw [exec, Queues.popProjectCleanup]
    cases Deque.rpop w.redis.cleanupQueue <;> rfl
  | updateIngressHosts name hosts =>
    refine Or.inl ?_
    rw [exec]
    cases w.cluster.ingresses name <;> rfl
  | _ => exact Or.inl rfl

def minted : Command → Nat
  | .openDraft _ => 3
  | .createDeployment _ | .createRedeployment _ | .createDomain _ => 1
  | _ => 0

theorem nextId_exec (cfg : Config) (w : World) (c : Command) :
    (w.exec cfg c).db.nextId = w.db.nextId + minted c := by
  rw [db_exec]
  cases c <;> rfl

end World

/-! ## Turns -/

namespace Turn

variable {σ τ : Type} (f : σ → τ)

@[simp] theorem command_map (t : Turn σ) : (t.map f).command = t.command := rfl

@[simp] theorem map_pure (next : σ) (entries : List Entry) :
    (Turn.pure next entries).map f = Turn.pure (f next) entries := rfl

@[simp] theorem map_issue (w : World) (o : Outcome) (c : Command) (ok err : σ)
    (entries errors : List Entry) :
    (issue w o c ok err entries errors).map f = issue w o c (f ok) (f err) entries errors := by
  unfold issue
  split
  · cases o <;> rfl
  · rfl

@[simp] theorem map_query (o : Outcome) (ok err : Turn σ) :
    (query o ok err).map f = query o (ok.map f) (err.map f) := by
  unfold query
  split <;> rfl

end Turn

/-- What the turn of an issued command is: done and reported, done but reported as
failed, or not done. -/
theorem issue_cases {σ : Type} (w : World) (o : Outcome) (c : Command) (ok err : σ)
    (entries errors : List Entry) :
    (w.admits c = true ∧ issue w o c ok err entries errors = { command := c, next := ok, entries })
      ∨ (w.admits c = true ∧
        issue w o c ok err entries errors = { command := c, next := err, entries := errors })
      ∨ issue w o c ok err entries errors =
        { command := .skip, next := err, entries := errors } := by
  unfold issue
  by_cases hadmits : w.admits c = true
  · rw [if_pos hadmits]
    cases o
    · exact Or.inl ⟨hadmits, rfl⟩
    · exact Or.inr (Or.inr rfl)
    · exact Or.inr (Or.inl ⟨hadmits, rfl⟩)
    · exact Or.inr (Or.inr rfl)
  · rw [if_neg hadmits]
    exact Or.inr (Or.inr rfl)

section Next

variable {σ : Type} {P : σ → Prop} {ok err : σ}

theorem next_issue_of (hok : P ok) (herr : P err) (w : World) (o : Outcome) (c : Command)
    (entries errors : List Entry) : P (issue w o c ok err entries errors).next := by
  rcases next_issue w o c ok err entries errors with h | h <;> rw [h]
  · exact hok
  · exact herr

theorem next_request_of (hok : P ok) (herr : P err) (w : World) (o : Outcome)
    (c : InternalRequest) (entries errors : List Entry) :
    P (request w o c ok err entries errors).next :=
  next_issue_of hok herr w o c.command entries errors

theorem next_query_of {ok err : Turn σ} (hok : P ok.next) (herr : P err.next) (o : Outcome) :
    P (query o ok err).next := by
  unfold query
  split
  · exact hok
  · exact herr

end Next

/-! ## The worker process -/

def Command.background : Command → Bool
  | .skip | .writeStatus _ _ | .setOnlineStatus _ _ | .updateDomainStatus _ _ _ | .popBuildJob
  | .popProjectCleanup | .clearCancelSignal _ | .apply _ | .delete _ _ | .updateIngressHosts _ _
  | .startStreaming _ _ | .stopStreaming _ | .stopAll => true
  | _ => false

/-- A turn of one of the worker's loops. -/
structure Turn.Background {σ : Type} (t : Turn σ) : Prop where
  command : t.command.background = true
  entries : writtenBy .worker t.entries = true

theorem Turn.Background.map {σ τ : Type} {t : Turn σ} (h : t.Background) (f : σ → τ) :
    (t.map f).Background :=
  ⟨h.command, h.entries⟩

theorem background_pure {σ : Type} (next : σ) {entries : List Entry}
    (h : writtenBy .worker entries = true) : (Turn.pure next entries).Background :=
  ⟨rfl, h⟩

theorem background_query {σ : Type} (o : Outcome) {ok err : Turn σ} (hok : ok.Background)
    (herr : err.Background) : (query o ok err).Background := by
  unfold query
  split
  · exact hok
  · exact herr

theorem background_issue {σ : Type} {c : Command} (w : World) (o : Outcome) (ok err : σ)
    {entries errors : List Entry} (hc : c.background = true)
    (hentries : writtenBy .worker entries = true)
    (herrors : writtenBy .worker errors = true) :
    (issue w o c ok err entries errors).Background := by
  rcases issue_cases w o c ok err entries errors with ⟨_, h⟩ | ⟨_, h⟩ | h <;> rw [h]
  · exact ⟨hc, hentries⟩
  · exact ⟨hc, herrors⟩
  · exact ⟨rfl, herrors⟩

theorem background_request {σ : Type} {c : InternalRequest} (w : World) (o : Outcome) (ok err : σ)
    {entries errors : List Entry} (hentries : writtenBy .worker entries = true)
    (herrors : writtenBy .worker errors = true) :
    (request w o c ok err entries errors).Background := by
  have hc : c.command.background = true := by cases c <;> rfl
  have h := background_issue w o ok err hc hentries herrors
  exact ⟨h.command, h.entries⟩

theorem background_check (w : World) (r : Reply) (b : Build) (next : Pc) :
    (BuildWorker.check w r b next).Background := by
  unfold BuildWorker.check
  split <;> exact background_pure _ rfl

theorem background_worker (cfg : Config) (w : World) (r : Reply) (b : BuildWorker) :
    (b.step cfg w r).Background := by
  cases b with
  | idle =>
    rw [BuildWorker.step]
    split
    · exact background_pure _ rfl
    · exact background_issue w _ _ _ rfl rfl rfl
  | processing b pc =>
    rw [BuildWorker.step]
    cases pc with
    | checkQueued | checkSettings | checkClone | checkBuild | checkDeploy =>
      exact background_check w r b _
    | projectPending | markBuilding | recordImage | markDeploying | markReady | projectActive =>
      exact background_request w _ _ _ rfl rfl
    | getSettings => exact background_pure _ rfl
    | getToken | clone | build =>
      exact background_query _ (background_pure _ rfl) (background_pure _ rfl)
    | deploy stage =>
      rw [BuildWorker.processStep]
      split
      · exact background_issue w _ _ _ rfl rfl rfl
      · exact background_pure _ rfl
    | stopPrevious =>
      rw [BuildWorker.processStep]
      split
      · exact ⟨rfl, rfl⟩
      · exact background_pure _ rfl
    | supersede =>
      rw [BuildWorker.processStep]
      split
      · exact background_request w _ _ _ rfl rfl
      · exact background_pure _ rfl
    | startStreaming => exact ⟨rfl, rfl⟩
  | cancelling job pc =>
    rw [BuildWorker.step]
    cases pc with
    | markCanceled | deleteResources | projectInactive => exact background_request w _ _ _ rfl rfl
    | clearSignal => exact background_issue w _ _ _ rfl rfl rfl
    | stopStreaming | stopStreams => exact ⟨rfl, rfl⟩
    | cleanup left =>
      cases left with
      | nil => exact background_pure _ rfl
      | cons kind left => exact background_issue w _ _ _ rfl rfl rfl
  | failing job pc =>
    rw [BuildWorker.step]
    cases pc with
    | markFailed => exact background_request w _ _ _ rfl rfl
    | stopStreams => exact ⟨rfl, rfl⟩

/-- The commands of the loops beside the build loop, which write no status but `EXPIRED`. -/
def Command.quiet : Command → Bool
  | .writeStatus _ w => w.status == .expired
  | .skip | .setOnlineStatus _ _ | .updateDomainStatus _ _ _
  | .popProjectCleanup | .delete _ _ | .updateIngressHosts _ _ | .stopStreaming _ => true
  | _ => false

/-- A turn of the expiry sweep, the project cleanup or the domain worker. -/
structure Turn.Quiet {σ : Type} (t : Turn σ) : Prop where
  command : t.command.quiet = true
  entries : t.entries = []
  deferred : ∀ x ∈ t.deferred, x.command.quiet = true

theorem Turn.Quiet.background {σ : Type} {t : Turn σ} (h : t.Quiet) : t.Background where
  command := by
    have hc := h.command
    cases hcommand : t.command <;> rw [hcommand] at hc <;> first | rfl | cases hc
  entries := by rw [h.entries]; rfl

theorem quiet_query {σ : Type} (o : Outcome) (ok err : σ) :
    (query o (.pure ok) (.pure err) : Turn σ).Quiet := by
  unfold query
  split <;> exact ⟨rfl, rfl, nofun⟩

theorem quiet_issue {σ : Type} {c : Command} (w : World) (o : Outcome) (ok err : σ)
    (hc : c.quiet = true) : (issue w o c ok err).Quiet := by
  rcases issue_cases w o c ok err [] [] with ⟨_, h⟩ | ⟨_, h⟩ | h <;> rw [h]
  · exact ⟨hc, rfl, nofun⟩
  · exact ⟨hc, rfl, nofun⟩
  · exact ⟨rfl, rfl, nofun⟩

theorem mem_deferred_request {σ : Type} {w : World} {o : Outcome} {c x : InternalRequest}
    {ok err : σ} {entries errors : List Entry}
    (h : x ∈ (request w o c ok err entries errors).deferred) : x = c ∧ o = .late := by
  simp only [request] at h
  split at h
  · rename_i ho
    exact ⟨List.mem_singleton.mp h, ho⟩
  · exact absurd h List.not_mem_nil

theorem quiet_request {σ : Type} {c : InternalRequest} (w : World) (o : Outcome) (ok err : σ)
    (hc : c.command.quiet = true) : (request w o c ok err).Quiet := by
  have h := quiet_issue w o ok err hc
  exact ⟨h.command, h.entries, fun x hx => (mem_deferred_request hx).1 ▸ hc⟩

theorem quiet_sweep (w : World) (r : Reply) (c : CleanupWorker) : (c.step w r).Quiet := by
  cases c with
  | idle => exact quiet_query _ _ _
  | fetching configs found => cases configs <;> exact quiet_query _ _ _
  | stopStreaming d rest => exact ⟨rfl, rfl, nofun⟩
  | cleanup d left rest =>
    cases left with
    | nil => exact ⟨rfl, rfl, nofun⟩
    | cons kind left => exact quiet_issue w _ _ _ rfl
  | markExpired d rest | projectInactive d rest => exact quiet_request w _ _ _ rfl

theorem quiet_projectCleanup (w : World) (r : Reply) (c : ProjectCleanupWorker) :
    (c.step w r).Quiet := by
  cases c with
  | idle =>
    rw [ProjectCleanupWorker.step]
    split
    · exact ⟨rfl, rfl, nofun⟩
    · exact quiet_issue w _ _ _ rfl
  | stopStreaming job ids => cases ids <;> exact ⟨rfl, rfl, nofun⟩
  | cleanup job left =>
    cases left with
    | nil => exact ⟨rfl, rfl, nofun⟩
    | cons kind left => exact quiet_issue w _ _ _ rfl

theorem quiet_domainWorker (w : World) (r : Reply) (c : DomainWorker) : (c.step w r).Quiet := by
  cases c with
  | idle | getIngress d rest => exact quiet_query _ _ _
  | verify d rest => exact ⟨rfl, rfl, nofun⟩
  | markPending d error rest | markError d rest | markActive d rest =>
    exact quiet_request w _ _ _ rfl
  | updateHosts d hosts rest => exact quiet_issue w _ _ _ rfl

/-! ## The API's process -/

/-- The commands of the API's requests, those of the worker's late requests included. -/
def Command.foreground : Command → Bool
  | .skip | .openDraft _ | .commitDraft _ | .rollbackDraft _ | .createDeployment _
  | .createRedeployment _ | .writeStatus _ _ | .updateProject _ _ | .setOnlineStatus _ _
  | .deleteProject _ | .createDomain _ | .deleteDomain _ | .updateDomainStatus _ _ _
  | .addBuildJob _ | .addProjectCleanupJob _ | .publishCancelSignal _ => true
  | _ => false

/-- A turn of the API: it waits for every answer. -/
structure Turn.Foreground {σ : Type} (t : Turn σ) : Prop where
  command : t.command.foreground = true
  entries : writtenBy .api t.entries = true
  deferred : t.deferred = []

theorem Turn.Foreground.map {σ τ : Type} {t : Turn σ} (h : t.Foreground) (f : σ → τ) :
    (t.map f).Foreground :=
  ⟨h.command, h.entries, h.deferred⟩

theorem foreground_query {σ : Type} (o : Outcome) (ok err : σ) :
    (query o (.pure ok) (.pure err) : Turn σ).Foreground := by
  unfold query
  split <;> exact ⟨rfl, rfl, rfl⟩

theorem foreground_issue {σ : Type} (w : World) (o : Outcome) (c : Command) (ok err : σ)
    {entries : List Entry} (hc : c.foreground = true) (hentries : writtenBy .api entries = true) :
    (issue w o c ok err entries).Foreground := by
  rcases issue_cases w o c ok err entries [] with ⟨_, h⟩ | ⟨_, h⟩ | h <;> rw [h]
  · exact ⟨hc, hentries, rfl⟩
  · exact ⟨hc, rfl, rfl⟩
  · exact ⟨rfl, rfl, rfl⟩

theorem foreground_push (cfg : Config) (w : World) (r : Reply) (c : WebhooksService.Push) :
    (c.step cfg w r).Foreground := by
  cases c with
  | findProjects payload =>
    rw [WebhooksService.Push.step]
    split
    · exact ⟨rfl, rfl, rfl⟩
    · split
      · exact ⟨rfl, rfl, rfl⟩
      · exact foreground_query _ _ _
  | findSystemConfig => exact foreground_query _ _ _
  | publish | markCanceled | insert | enqueue => exact foreground_issue w _ _ _ _ rfl rfl

theorem foreground_createProject (cfg : Config) (w : World) (r : Reply)
    (c : ProjectsService.Create) : (c.step cfg w r).Foreground := by
  cases c with
  | findExisting | findGitAccounts => exact foreground_query _ _ _
  | getLatestCommit | rollback => exact ⟨rfl, rfl, rfl⟩
  | insert =>
    rw [ProjectsService.Create.step]
    split <;> exact ⟨rfl, rfl, rfl⟩
  | enqueue => exact foreground_issue w _ _ _ _ rfl rfl
  | commit =>
    rw [ProjectsService.Create.step]
    cases r.outcome <;> exact ⟨rfl, rfl, rfl⟩

theorem foreground_call (cfg : Config) (w : World) (r : Reply) (c : Call) :
    (c.step cfg w r).Foreground := by
  cases c with
  | createDeployment c =>
    refine Turn.Foreground.map ?_ _
    cases c with
    | getLatestCommit => exact ⟨rfl, rfl, rfl⟩
    | insert | enqueue => exact foreground_issue w _ _ _ _ rfl rfl
    | _ => exact foreground_query _ _ _
  | cancel c =>
    refine Turn.Foreground.map ?_ _
    cases c with
    | find => exact foreground_query _ _ _
    | update | publish => exact foreground_issue w _ _ _ _ rfl rfl
  | updateStatus c =>
    refine Turn.Foreground.map ?_ _
    cases c with
    | find => exact foreground_query _ _ _
    | update => exact foreground_issue w _ _ _ _ rfl rfl
  | push c => exact (foreground_push cfg w r c).map _
  | createProject c => exact (foreground_createProject cfg w r c).map _
  | updateProject c =>
    refine Turn.Foreground.map ?_ _
    cases c with
    | findOne => exact foreground_query _ _ _
    | update => exact foreground_issue w _ _ _ _ rfl rfl
  | removeProject c =>
    refine Turn.Foreground.map ?_ _
    cases c with
    | findProject => exact foreground_query _ _ _
    | publish cleanup ids =>
      cases ids with
      | nil => exact ⟨rfl, rfl, rfl⟩
      | cons => exact foreground_issue w _ _ _ _ rfl rfl
    | enqueue | delete => exact foreground_issue w _ _ _ _ rfl rfl
  | createDomain c =>
    refine Turn.Foreground.map ?_ _
    cases c with
    | findProject | findExisting => exact foreground_query _ _ _
    | insert => exact foreground_issue w _ _ _ _ rfl rfl
  | removeDomain c =>
    refine Turn.Foreground.map ?_ _
    cases c with
    | find => exact foreground_query _ _ _
    | delete => exact foreground_issue w _ _ _ _ rfl rfl
  | late c => cases c <;> exact foreground_issue w _ _ _ _ rfl rfl

theorem next_late (cfg : Config) (w : World) (r : Reply) (x : InternalRequest) :
    ((Call.late x).step cfg w r).next = none := by
  rcases next_issue w r.outcome x.command (none : Option Call) none [] [] with h | h <;> exact h

/-! ## Steps of the whole system -/

namespace Processes

@[simp] theorem setCall_worker (p : Processes) (i : Nat) (c : Option Call) :
    (p.setCall i c).worker = p.worker := by
  cases c <;> rfl

@[simp] theorem setCall_sweep (p : Processes) (i : Nat) (c : Option Call) :
    (p.setCall i c).sweep = p.sweep := by
  cases c <;> rfl

@[simp] theorem setCall_projectCleanup (p : Processes) (i : Nat) (c : Option Call) :
    (p.setCall i c).projectCleanup = p.projectCleanup := by
  cases c <;> rfl

@[simp] theorem setCall_domainWorker (p : Processes) (i : Nat) (c : Option Call) :
    (p.setCall i c).domainWorker = p.domainWorker := by
  cases c <;> rfl

theorem setCall_eq (p : Processes) {before after : List Call} {c : Call} (next : Option Call)
    (h : p.calls = before ++ c :: after) :
    p.setCall before.length next = { p with calls := before ++ next.toList ++ after } := by
  cases next with
  | none => simp [setCall, h, List.eraseIdx_append_of_length_le]
  | some d => simp [setCall, h]

@[simp] theorem setWorker_calls (p : Processes) (b : Option BuildWorker) :
    (p.setWorker b).calls = p.calls := by
  cases b <;> rfl

@[simp] theorem setWorker_worker (p : Processes) (b : Option BuildWorker) :
    (p.setWorker b).worker = b.getD .idle := by
  cases b <;> rfl

end Processes

namespace State

variable {cfg : Config} {s s' : State}

theorem step_request {r : Request} (h : s.step cfg (.request r) = some s') :
    s' = { s with procs := { s.procs with calls := s.procs.calls ++ [r.start] } } := by
  obtain ⟨t, ht, _, rfl⟩ := step_eq_some_iff.mp h
  cases ht
  simp [after, Turn.pure, World.exec, World.record]

theorem step_tick {milliseconds : Nat} (h : s.step cfg (.tick milliseconds) = some s') :
    s' = { s with world := { s.world with now := s.world.now + milliseconds } } := by
  obtain ⟨t, ht, _, rfl⟩ := step_eq_some_iff.mp h
  cases ht
  simp [after, World.exec, World.record]

theorem step_edit {e : Edit} (h : s.step cfg (.edit e) = some s') :
    s.world.admits e.command = true ∧
      s' = { s with world := s.world.exec cfg e.command } := by
  obtain ⟨t, ht, _, rfl⟩ := step_eq_some_iff.mp h
  rw [turn] at ht
  split at ht
  · rename_i hadmits
    cases ht
    exact ⟨hadmits, by simp [after, World.record]⟩
  · cases ht

theorem step_call {i : Nat} {r : Reply} (h : s.step cfg (.call i r) = some s') :
    ∃ before c later, s.procs.calls = before ++ c :: later ∧ before.length = i ∧
      s.world.blocks (c.step cfg s.world r).command = false ∧
      s' = {
        world := (s.world.exec cfg (c.step cfg s.world r).command).record
          (c.step cfg s.world r).entries
        procs := { s.procs with
          calls := before ++ (c.step cfg s.world r).next.toList ++ later } } := by
  obtain ⟨t, ht, hb, rfl⟩ := step_eq_some_iff.mp h
  rw [turn, Option.map_eq_some_iff] at ht
  obtain ⟨c, hc, rfl⟩ := ht
  obtain ⟨hi, hci⟩ := List.getElem?_eq_some_iff.mp hc
  have hcalls : s.procs.calls = s.procs.calls.take i ++ c :: s.procs.calls.drop (i + 1) := by
    rw [← hci, List.getElem_cons_drop, List.take_append_drop]
  have hlen : (s.procs.calls.take i).length = i := by
    rw [List.length_take]
    omega
  refine ⟨_, c, _, hcalls, hlen, hb, ?_⟩
  have hset := s.procs.setCall_eq (c.step cfg s.world r).next hcalls
  rw [hlen] at hset
  simp only [after, Turn.map, (foreground_call cfg s.world r c).deferred, List.map_nil,
    List.append_nil, hset]

theorem step_worker {r : Reply} (h : s.step cfg (.worker r) = some s') :
    let t := s.procs.worker.step cfg s.world r
    s' = {
      world := (s.world.exec cfg t.command).record t.entries
      procs := { s.procs.setWorker t.next with
        calls := s.procs.calls ++ t.deferred.map .late } } := by
  obtain ⟨t, ht, _, rfl⟩ := step_eq_some_iff.mp h
  cases ht
  simp [after, Turn.map]

theorem step_sweep {r : Reply} (h : s.step cfg (.sweep r) = some s') :
    let t := s.procs.sweep.step s.world r
    s' = {
      world := (s.world.exec cfg t.command).record t.entries
      procs := { s.procs with
        sweep := t.next, calls := s.procs.calls ++ t.deferred.map .late } } := by
  obtain ⟨t, ht, _, rfl⟩ := step_eq_some_iff.mp h
  cases ht
  simp [after, Turn.map]

theorem step_projectCleanup {r : Reply} (h : s.step cfg (.projectCleanup r) = some s') :
    let t := s.procs.projectCleanup.step s.world r
    s' = {
      world := (s.world.exec cfg t.command).record t.entries
      procs := { s.procs with
        projectCleanup := t.next, calls := s.procs.calls ++ t.deferred.map .late } } := by
  obtain ⟨t, ht, _, rfl⟩ := step_eq_some_iff.mp h
  cases ht
  simp [after, Turn.map]

theorem step_domainWorker {r : Reply} (h : s.step cfg (.domainWorker r) = some s') :
    let t := s.procs.domainWorker.step s.world r
    s' = {
      world := (s.world.exec cfg t.command).record t.entries
      procs := { s.procs with
        domainWorker := t.next, calls := s.procs.calls ++ t.deferred.map .late } } := by
  obtain ⟨t, ht, _, rfl⟩ := step_eq_some_iff.mp h
  cases ht
  simp [after, Turn.map]

theorem step_restart (h : s.step cfg .restart = some s') :
    s' = {
      world := s.world.exec cfg .stopAll
      procs := s.procs.restarted } := by
  obtain ⟨t, ht, _, rfl⟩ := step_eq_some_iff.mp h
  cases ht
  simp [after, World.record, Processes.restarted]

end State

def Command.bystander : Command → Bool
  | .tick _ | .stopAll | .replaceEnvironmentVariables _ _ | .setGitAccounts _
  | .setSystemConfigs _ | .shuffleDeployments _ => true
  | c => c.quiet

theorem bystander_of_quiet {c : Command} (hc : c.quiet = true) : c.bystander = true := by
  cases c <;> first | exact hc | cases hc

namespace World

/-- Such a step leaves the log and the build queue, the signals and the identifiers as they
are. -/
theorem log_bystander (cfg : Config) (w : World) {c : Command} (hc : c.bystander = true) :
    (w.exec cfg c).log = w.log := by
  rw [log_exec]
  cases c <;> first | exact List.append_nil _ | cases hc

theorem redis_bystander (cfg : Config) (w : World) {c : Command} (hc : c.bystander = true) :
    (w.exec cfg c).redis.buildQueue = w.redis.buildQueue ∧
      (w.exec cfg c).redis.cancelKeys = w.redis.cancelKeys := by
  cases c with
  | popProjectCleanup =>
    rw [exec, Queues.popProjectCleanup]
    cases Deque.rpop w.redis.cleanupQueue <;> exact ⟨rfl, rfl⟩
  | updateIngressHosts name hosts =>
    rw [exec]
    cases w.cluster.ingresses name <;> exact ⟨rfl, rfl⟩
  | _ => first | exact ⟨rfl, rfl⟩ | cases hc

theorem nextId_bystander (cfg : Config) (w : World) {c : Command} (hc : c.bystander = true) :
    (w.exec cfg c).db.nextId = w.db.nextId := by
  rw [nextId_exec]
  cases c <;> first | rfl | cases hc

end World

/-- A step that is neither a call's nor the build worker's. -/
structure State.Bystands (cfg : Config) (s s' : State) (command : Command) (new : List Call) :
    Prop where
  bystander : command.bystander = true
  shuffles : ∀ rows, command = .shuffleDeployments rows → rows.Perm s.world.db.deployments
  world : s'.world = s.world.exec cfg command
  calls : s'.procs.calls = s.procs.calls ++ new
  starts : ∀ c ∈ new, (∃ r : Request, c = r.start) ∨ ∃ x, c = .late x ∧ x.command.quiet = true
  worker : s'.procs.worker = s.procs.worker ∨ s'.procs.worker = .idle

namespace State

variable {cfg : Config} {s s' : State}

theorem bystands_of_quiet {σ : Type} {t : Turn σ} (ht : t.Quiet)
    (hworld : s'.world = (s.world.exec cfg t.command).record t.entries)
    (hcalls : s'.procs.calls = s.procs.calls ++ t.deferred.map .late)
    (hworker : s'.procs.worker = s.procs.worker) :
    Bystands cfg s s' t.command (t.deferred.map .late) where
  bystander := bystander_of_quiet ht.command
  shuffles := by
    intro rows hrows
    have hc := ht.command
    rw [hrows] at hc
    cases hc
  world := by rw [hworld, ht.entries, World.record, List.append_nil]
  calls := hcalls
  starts c hc := by
    obtain ⟨x, hx, rfl⟩ := List.mem_map.mp hc
    exact Or.inr ⟨x, rfl, ht.deferred x hx⟩
  worker := Or.inl hworker

/-- A step is a call's, the build worker's, or leaves both alone. -/
theorem step_cases {e : Event} (h : s.step cfg e = some s') :
    (∃ i r before c later, e = .call i r ∧ s.procs.calls = before ++ c :: later ∧
      s' = {
        world := (s.world.exec cfg (c.step cfg s.world r).command).record
          (c.step cfg s.world r).entries
        procs := { s.procs with
          calls := before ++ (c.step cfg s.world r).next.toList ++ later } }) ∨
    (∃ r, e = .worker r ∧ s' = {
      world := (s.world.exec cfg (s.procs.worker.step cfg s.world r).command).record
        (s.procs.worker.step cfg s.world r).entries
      procs := { s.procs.setWorker (s.procs.worker.step cfg s.world r).next with
        calls := s.procs.calls ++ (s.procs.worker.step cfg s.world r).deferred.map .late } }) ∨
    ∃ command new, Bystands cfg s s' command new := by
  cases e with
  | tick milliseconds =>
    refine Or.inr (Or.inr ⟨.tick milliseconds, [], ?_⟩)
    rw [step_tick h]
    exact ⟨rfl, nofun, rfl, by simp, by simp, Or.inl rfl⟩
  | request r =>
    refine Or.inr (Or.inr ⟨.skip, [r.start], ?_⟩)
    rw [step_request h]
    exact ⟨rfl, nofun, rfl, rfl, fun c hc => Or.inl ⟨r, List.mem_singleton.mp hc⟩, Or.inl rfl⟩
  | edit e =>
    obtain ⟨hadmits, rfl⟩ := step_edit h
    refine Or.inr (Or.inr ⟨e.command, [], ?_, ?_, rfl, by simp, by simp, Or.inl rfl⟩)
    · cases e <;> rfl
    · intro rows hrows
      rw [hrows] at hadmits
      exact of_decide_eq_true hadmits
  | call i r =>
    obtain ⟨before, c, later, hcalls, _, _, hs'⟩ := step_call h
    exact Or.inl ⟨i, r, before, c, later, rfl, hcalls, hs'⟩
  | worker r => exact Or.inr (Or.inl ⟨r, rfl, step_worker h⟩)
  | sweep r =>
    have hs' := step_sweep h
    have hquiet := quiet_sweep s.world r s.procs.sweep
    exact Or.inr (Or.inr ⟨_, _, bystands_of_quiet hquiet (congrArg State.world hs')
      (congrArg (·.procs.calls) hs') (congrArg (·.procs.worker) hs')⟩)
  | projectCleanup r =>
    have hs' := step_projectCleanup h
    have hquiet := quiet_projectCleanup s.world r s.procs.projectCleanup
    exact Or.inr (Or.inr ⟨_, _, bystands_of_quiet hquiet (congrArg State.world hs')
      (congrArg (·.procs.calls) hs') (congrArg (·.procs.worker) hs')⟩)
  | domainWorker r =>
    have hs' := step_domainWorker h
    have hquiet := quiet_domainWorker s.world r s.procs.domainWorker
    exact Or.inr (Or.inr ⟨_, _, bystands_of_quiet hquiet (congrArg State.world hs')
      (congrArg (·.procs.calls) hs') (congrArg (·.procs.worker) hs')⟩)
  | restart =>
    refine Or.inr (Or.inr ⟨.stopAll, [], ?_⟩)
    rw [step_restart h]
    exact ⟨rfl, nofun, rfl, by simp [Processes.restarted], by simp, Or.inr rfl⟩

theorem turn_call (cfg : Config) {before later : List Call} {c : Call}
    (hcalls : s.procs.calls = before ++ c :: later) (r : Reply) :
    s.turn cfg (.call before.length r) =
      some ((c.step cfg s.world r).map (s.procs.setCall before.length)) := by
  rw [turn, hcalls, List.getElem?_append_right (Nat.le_refl _), Nat.sub_self]
  rfl

/-- The command of a turn is a call's, the build worker's, or leaves both alone. -/
theorem command_turn {e : Event} {t : Turn Processes} (h : s.turn cfg e = some t) :
    (∃ i r c, e = .call i r ∧ s.procs.calls[i]? = some c ∧
      t.command = (c.step cfg s.world r).command) ∨
    (∃ r, e = .worker r ∧ t.command = (s.procs.worker.step cfg s.world r).command) ∨
    t.command.bystander = true := by
  cases e with
  | tick | request | restart =>
    cases h
    exact Or.inr (Or.inr rfl)
  | edit edit =>
    rw [turn] at h
    split at h
    · cases h
      exact Or.inr (Or.inr (by cases edit <;> rfl))
    · cases h
  | call i r =>
    rw [turn, Option.map_eq_some_iff] at h
    obtain ⟨c, hc, rfl⟩ := h
    exact Or.inl ⟨i, r, c, rfl, hc, rfl⟩
  | worker r =>
    cases h
    exact Or.inr (Or.inl ⟨r, rfl, rfl⟩)
  | sweep r =>
    cases h
    exact Or.inr (Or.inr (bystander_of_quiet (quiet_sweep s.world r s.procs.sweep).command))
  | projectCleanup r =>
    cases h
    have hquiet := quiet_projectCleanup s.world r s.procs.projectCleanup
    exact Or.inr (Or.inr (bystander_of_quiet hquiet.command))
  | domainWorker r =>
    cases h
    have hquiet := quiet_domainWorker s.world r s.procs.domainWorker
    exact Or.inr (Or.inr (bystander_of_quiet hquiet.command))

end State
end System
end Code2Cloud
