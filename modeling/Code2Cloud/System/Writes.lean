import Code2Cloud.System.Rows

/-!
# Status writes

Which process writes which status to which deployment, and what a step of the whole
system does to the rows of the deployment table.
-/

namespace Code2Cloud
namespace System

open Api Worker

variable {cfg : Config} {w : World} {s s' : State} {e : Event} {id : DeploymentId}

/-! ## The writes of a turn -/

def Command.statusWrite : Command → Option (DeploymentId × StatusWrite)
  | .writeStatus id x => some (id, x)
  | _ => none

/-- Every status write of a turn, at once or deferred, meets `P`. -/
structure Turn.Writes {σ : Type} (t : Turn σ) (P : DeploymentId → StatusWrite → Prop) : Prop where
  command : ∀ id x, t.command = .writeStatus id x → P id x
  deferred : ∀ id x, .writeStatus id x ∈ t.deferred → P id x

section

variable {σ τ : Type} {P : DeploymentId → StatusWrite → Prop}

theorem Turn.Writes.map {t : Turn σ} (h : t.Writes P) (f : σ → τ) : (t.map f).Writes P :=
  ⟨h.command, h.deferred⟩

theorem Turn.Writes.mono {Q : DeploymentId → StatusWrite → Prop} {t : Turn σ} (h : t.Writes P)
    (hPQ : ∀ id x, P id x → Q id x) : t.Writes Q :=
  ⟨fun id x hc => hPQ id x (h.command id x hc), fun id x hx => hPQ id x (h.deferred id x hx)⟩

theorem writes_silent {t : Turn σ} (hc : t.command.statusWrite = none) (hd : t.deferred = []) :
    t.Writes P where
  command id x h := by
    rw [h] at hc
    cases hc
  deferred id x h := by
    rw [hd] at h
    exact absurd h List.not_mem_nil

theorem writes_query (o : Outcome) (ok err : σ) (entries errors : List Entry) :
    (query o (.pure ok entries) (.pure err errors)).Writes P := by
  unfold query
  split <;> exact writes_silent rfl rfl

theorem writes_issue {c : Command} (h : ∀ id x, c = .writeStatus id x → P id x) (w : World)
    (o : Outcome) (ok err : σ) (entries errors : List Entry) :
    (issue w o c ok err entries errors).Writes P := by
  rcases issue_cases w o c ok err entries errors with ⟨_, ht⟩ | ⟨_, ht⟩ | ht <;> rw [ht]
  · exact ⟨h, fun _ _ hx => absurd hx List.not_mem_nil⟩
  · exact ⟨h, fun _ _ hx => absurd hx List.not_mem_nil⟩
  · exact writes_silent rfl rfl

theorem writes_issue_silent {c : Command} (hc : c.statusWrite = none) (w : World) (o : Outcome)
    (ok err : σ) (entries errors : List Entry) : (issue w o c ok err entries errors).Writes P := by
  refine writes_issue ?_ w o ok err entries errors
  rintro id x rfl
  cases hc

theorem writes_request {c : InternalRequest} (h : ∀ id x, c = .writeStatus id x → P id x)
    (w : World) (o : Outcome) (ok err : σ) (entries errors : List Entry) :
    (request w o c ok err entries errors).Writes P where
  command id x hcommand := by
    rcases command_request w o c ok err entries errors with hc | hc <;> rw [hc] at hcommand
    · cases c with
      | writeStatus id' x' =>
        cases hcommand
        exact h id x rfl
      | _ => cases hcommand
    · cases hcommand
  deferred id x hx := h id x (mem_deferred_request hx).1.symm

theorem writes_request_silent {c : InternalRequest} (hc : c.command.statusWrite = none) (w : World)
    (o : Outcome) (ok err : σ) (entries errors : List Entry) :
    (request w o c ok err entries errors).Writes P := by
  refine writes_request ?_ w o ok err entries errors
  rintro id x rfl
  cases hc

end

/-! ## The worker's writes -/

def BuildWorker.writes : BuildWorker → Option (DeploymentId × DeploymentStatus)
  | processing b .markBuilding | processing b .recordImage => some (b.job.deploymentId, .building)
  | processing b .markDeploying => some (b.job.deploymentId, .deploying)
  | processing b .markReady => some (b.job.deploymentId, .ready)
  | processing b .supersede =>
    b.job.previousDeploymentId.map fun previous => (previous, .superseded)
  | cancelling job .markCanceled | cancelling job .deleteResources =>
    some (job.deploymentId, .canceled)
  | failing job .markFailed => some (job.deploymentId, .failed)
  | _ => none

namespace BuildWorker

theorem writes_process (cfg : Config) (w : World) (r : Reply) (b : Build) (pc : Pc) :
    (processStep cfg w r b pc).Writes
      fun id x => (processing b pc).writes = some (id, x.status) := by
  cases pc with
  | checkQueued | checkSettings | checkClone | checkBuild | checkDeploy =>
    rw [processStep, check]
    split <;> exact writes_silent rfl rfl
  | markBuilding | recordImage | markDeploying | markReady =>
    refine writes_request ?_ w _ _ _ _ _
    rintro id x ⟨⟩
    rfl
  | projectPending | projectActive => exact writes_request_silent rfl w _ _ _ _ _
  | getSettings | startStreaming => exact writes_silent rfl rfl
  | getToken | clone | build => exact writes_query _ _ _ _ _
  | deploy stage =>
    rw [processStep]
    split
    · exact writes_issue_silent rfl w _ _ _ _ _
    · exact writes_silent rfl rfl
  | stopPrevious =>
    rw [processStep]
    split <;> exact writes_silent rfl rfl
  | supersede =>
    rw [processStep]
    split
    · rename_i previous hprevious
      refine writes_request ?_ w _ _ _ _ _
      rintro id x ⟨⟩
      rw [writes, hprevious]
      rfl
    · exact writes_silent rfl rfl

theorem writes_step (cfg : Config) (w : World) (r : Reply) (b : BuildWorker) :
    (b.step cfg w r).Writes fun id x => b.writes = some (id, x.status) := by
  cases b with
  | idle =>
    rw [step]
    split
    · exact writes_silent rfl rfl
    · exact writes_issue_silent rfl w _ _ _ _ _
  | processing b pc => exact writes_process cfg w r b pc
  | cancelling job pc =>
    cases pc with
    | markCanceled | deleteResources =>
      refine writes_request ?_ w _ _ _ _ _
      rintro id x ⟨⟩
      rfl
    | projectInactive => exact writes_request_silent rfl w _ _ _ _ _
    | clearSignal =>
      rw [step, cancelStep]
      exact writes_issue_silent rfl w _ _ _ _ _
    | stopStreaming | stopStreams => exact writes_silent rfl rfl
    | cleanup left =>
      cases left with
      | nil => exact writes_silent rfl rfl
      | cons kind left =>
        rw [step, cancelStep]
        exact writes_issue_silent rfl w _ _ _ _ _
  | failing job pc =>
    cases pc with
    | markFailed =>
      refine writes_request ?_ w _ _ _ _ _
      rintro id x ⟨⟩
      rfl
    | stopStreams => exact writes_silent rfl rfl

end BuildWorker

/-! ## The writes of the API's requests -/

def Call.writes : Call → Option (DeploymentId × StatusWrite)
  | .cancel (.update id) => some (id, .cancel)
  | .updateStatus (.update id status) => some (id, .updateStatus status)
  | .push (.markCanceled _ _ id _) => some (id, .webhookCancel)
  | .late (.writeStatus id x) => some (id, x)
  | _ => none

theorem writes_push (cfg : Config) (w : World) (r : Reply) (c : WebhooksService.Push) :
    (c.step cfg w r).Writes fun id x => (Call.push c).writes = some (id, x) := by
  cases c with
  | findProjects payload =>
    rw [WebhooksService.Push.step]
    split
    · exact writes_silent rfl rfl
    · split
      · exact writes_silent rfl rfl
      · exact writes_query _ _ _ _ _
  | findSystemConfig => exact writes_query _ _ _ _ _
  | publish | insert | enqueue => exact writes_issue_silent rfl w _ _ _ _ _
  | markCanceled =>
    refine writes_issue ?_ w _ _ _ _ _
    rintro id x ⟨⟩
    rfl

theorem writes_createProject (cfg : Config) (w : World) (r : Reply) (c : ProjectsService.Create)
    {P : DeploymentId → StatusWrite → Prop} : (c.step cfg w r).Writes P := by
  cases c with
  | findExisting | findGitAccounts => exact writes_query _ _ _ _ _
  | getLatestCommit | rollback => exact writes_silent rfl rfl
  | insert =>
    rw [ProjectsService.Create.step]
    split <;> exact writes_silent rfl rfl
  | enqueue => exact writes_issue_silent rfl w _ _ _ _ _
  | commit =>
    rw [ProjectsService.Create.step]
    cases r.outcome <;> exact writes_silent rfl rfl

theorem writes_call (cfg : Config) (w : World) (r : Reply) (c : Call) :
    (c.step cfg w r).Writes fun id x => c.writes = some (id, x) := by
  cases c with
  | createDeployment c =>
    refine Turn.Writes.map ?_ _
    cases c with
    | getLatestCommit => exact writes_silent rfl rfl
    | insert | enqueue => exact writes_issue_silent rfl w _ _ _ _ _
    | _ => exact writes_query _ _ _ _ _
  | cancel c =>
    refine Turn.Writes.map ?_ _
    cases c with
    | find => exact writes_query _ _ _ _ _
    | update =>
      refine writes_issue ?_ w _ _ _ _ _
      rintro id x ⟨⟩
      rfl
    | publish => exact writes_issue_silent rfl w _ _ _ _ _
  | updateStatus c =>
    refine Turn.Writes.map ?_ _
    cases c with
    | find => exact writes_query _ _ _ _ _
    | update =>
      refine writes_issue ?_ w _ _ _ _ _
      rintro id x ⟨⟩
      rfl
  | push c => exact (writes_push cfg w r c).map _
  | createProject c => exact (writes_createProject cfg w r c).map _
  | updateProject c =>
    refine Turn.Writes.map ?_ _
    cases c with
    | findOne => exact writes_query _ _ _ _ _
    | update => exact writes_issue_silent rfl w _ _ _ _ _
  | removeProject c =>
    refine Turn.Writes.map ?_ _
    cases c with
    | findProject => exact writes_query _ _ _ _ _
    | publish cleanup ids =>
      cases ids with
      | nil => exact writes_silent rfl rfl
      | cons => exact writes_issue_silent rfl w _ _ _ _ _
    | enqueue | delete => exact writes_issue_silent rfl w _ _ _ _ _
  | createDomain c =>
    refine Turn.Writes.map ?_ _
    cases c with
    | findProject | findExisting => exact writes_query _ _ _ _ _
    | insert => exact writes_issue_silent rfl w _ _ _ _ _
  | removeDomain c =>
    refine Turn.Writes.map ?_ _
    cases c with
    | find => exact writes_query _ _ _ _ _
    | delete => exact writes_issue_silent rfl w _ _ _ _ _
  | late c =>
    refine writes_issue ?_ w _ _ _ _ _
    intro id x h
    cases c with
    | writeStatus id' x' =>
      cases h
      rfl
    | _ => cases h

/-! ## The writes of the other loops -/

theorem writes_sweep (w : World) (r : Reply) (c : CleanupWorker) :
    (c.step w r).Writes fun id x =>
      ∃ d rest, c = .markExpired d rest ∧ d.id = id ∧ x.status = .expired := by
  cases c with
  | idle => exact writes_query _ _ _ _ _
  | fetching configs found => cases configs <;> exact writes_query _ _ _ _ _
  | stopStreaming => exact writes_silent rfl rfl
  | cleanup d left rest =>
    cases left with
    | nil => exact writes_silent rfl rfl
    | cons kind left => exact writes_issue_silent rfl w _ _ _ _ _
  | markExpired d rest =>
    refine writes_request ?_ w _ _ _ _ _
    rintro id x ⟨⟩
    exact ⟨d, rest, rfl, rfl, rfl⟩
  | projectInactive => exact writes_request_silent rfl w _ _ _ _ _

theorem writes_projectCleanup (w : World) (r : Reply) (c : ProjectCleanupWorker) :
    (c.step w r).Writes fun _ _ => False := by
  cases c with
  | idle =>
    rw [ProjectCleanupWorker.step]
    split
    · exact writes_silent rfl rfl
    · exact writes_issue_silent rfl w _ _ _ _ _
  | stopStreaming job ids => cases ids <;> exact writes_silent rfl rfl
  | cleanup job left =>
    cases left with
    | nil => exact writes_silent rfl rfl
    | cons kind left => exact writes_issue_silent rfl w _ _ _ _ _

theorem writes_domainWorker (w : World) (r : Reply) (c : DomainWorker) :
    (c.step w r).Writes fun _ _ => False := by
  cases c with
  | idle | getIngress => exact writes_query _ _ _ _ _
  | verify => exact writes_silent rfl rfl
  | updateHosts => exact writes_issue_silent rfl w _ _ _ _ _
  | markPending | markError | markActive => exact writes_request_silent rfl w _ _ _ _ _

/-! ## The writes of a step -/

/-- Whose write a status write is: a call's, the worker's, or that of the expiry sweep. -/
inductive State.WrittenBy (s : State) (id : DeploymentId) (x : StatusWrite) : Event → Prop
  | call {i : Nat} {r : Reply} {c : Call} (hc : c ∈ s.procs.calls)
      (hw : c.writes = some (id, x)) : WrittenBy s id x (.call i r)
  | worker {r : Reply} (hw : s.procs.worker.writes = some (id, x.status)) :
      WrittenBy s id x (.worker r)
  | sweep {e : Event} (hx : x.status = .expired) : WrittenBy s id x e

namespace State

/-- The step may write the status of the deployment. -/
inductive MayWrite (s : State) (id : DeploymentId) (x : StatusWrite) : Event → Prop
  | call {i : Nat} {r : Reply} {c : Call} (hc : s.procs.calls[i]? = some c)
      (hw : c.writes = some (id, x)) : MayWrite s id x (.call i r)
  | worker {r : Reply} (hw : s.procs.worker.writes = some (id, x.status)) :
      MayWrite s id x (.worker r)
  | sweep {r : Reply} {d : ExpiredDeployment} {rest : List ExpiredDeployment}
      (hsweep : s.procs.sweep = .markExpired d rest) (hd : d.id = id)
      (hx : x.status = .expired) : MayWrite s id x (.sweep r)

theorem mayWrite_turn {t : Turn Processes} (h : s.turn cfg e = some t) :
    t.Writes fun id x => s.MayWrite id x e := by
  cases e with
  | tick | request | restart =>
    cases h
    exact writes_silent rfl rfl
  | edit edit =>
    rw [turn] at h
    split at h
    · cases h
      exact writes_silent (by cases edit <;> rfl) rfl
    · cases h
  | call i r =>
    rw [turn, Option.map_eq_some_iff] at h
    obtain ⟨c, hc, rfl⟩ := h
    exact ((writes_call cfg s.world r c).mono fun _ _ hw => .call hc hw).map _
  | worker r =>
    cases h
    exact ((s.procs.worker.writes_step cfg s.world r).mono fun _ _ hw => .worker hw).map _
  | sweep r =>
    cases h
    refine ((writes_sweep s.world r s.procs.sweep).mono fun id x hw => ?_).map _
    obtain ⟨d, rest, hsweep, hd, hx⟩ := hw
    exact .sweep hsweep hd hx
  | projectCleanup r =>
    cases h
    exact ((writes_projectCleanup s.world r s.procs.projectCleanup).mono
      fun _ _ hw => hw.elim).map _
  | domainWorker r =>
    cases h
    exact ((writes_domainWorker s.world r s.procs.domainWorker).mono fun _ _ hw => hw.elim).map _

theorem writes_turn {t : Turn Processes} (h : s.turn cfg e = some t) :
    t.Writes fun id x => s.WrittenBy id x e := by
  refine (mayWrite_turn h).mono fun id x hw => ?_
  cases hw with
  | call hc hw => exact .call (List.mem_of_getElem? hc) hw
  | worker hw => exact .worker hw
  | sweep _ _ hx => exact .sweep hx

/-- A step writes, at once or deferred, what a call or the worker is about to write, or marks the
deployment that the sweep has come to. -/
theorem written_turn {t : Turn Processes} (h : s.turn cfg e = some t) :
    t.Writes fun id x => (∃ c ∈ s.procs.calls, c.writes = some (id, x)) ∨
      s.procs.worker.writes = some (id, x.status) ∨
      ∃ d rest, s.procs.sweep = .markExpired d rest ∧ d.id = id := by
  refine (mayWrite_turn h).mono fun id x hw => ?_
  cases hw with
  | @call _ _ c hc hw => exact Or.inl ⟨c, List.mem_of_getElem? hc, hw⟩
  | worker hw => exact Or.inr (Or.inl hw)
  | @sweep _ d rest hsweep hd => exact Or.inr (Or.inr ⟨d, rest, hsweep, hd⟩)

/-- A status write that a step defers is the worker's or the expiry sweep's. -/
theorem deferred_turn {t : Turn Processes} (h : s.turn cfg e = some t) {x : StatusWrite}
    (hx : .writeStatus id x ∈ t.deferred) :
    s.procs.worker.writes = some (id, x.status) ∨ x.status = .expired := by
  cases (writes_turn h).deferred id x hx with
  | @call i r =>
    rw [turn, Option.map_eq_some_iff] at h
    obtain ⟨c, _, rfl⟩ := h
    have hnone : ((c.step cfg s.world r).map (s.procs.setCall i)).deferred = [] :=
      (foreground_call cfg s.world r c).deferred
    rw [hnone] at hx
    exact absurd hx List.not_mem_nil
  | worker hw => exact Or.inl hw
  | sweep hexpired => exact Or.inr hexpired

/-! ## The rows after a step -/

/-- A row that a step inserts is that of a queued deployment, with an identifier that is new or
that an open transaction holds. -/
theorem inserted_turn {t : Turn Processes} (h : s.turn cfg e = some t) {d : Deployment}
    (hd : d ∈ t.command.inserted) :
    d.status = .queued ∧
      (s.world.db.nextId ≤ d.id ∨ ∃ c ∈ s.procs.calls, c.drafts d.id = true) := by
  have hnone {c : Command} (hc : c.inserted = []) (hd : d ∈ c.inserted) : False := by
    rw [hc] at hd
    exact absurd hd List.not_mem_nil
  cases e with
  | tick | request | restart =>
    cases h
    exact (hnone rfl hd).elim
  | edit edit =>
    rw [turn] at h
    split at h
    · cases h
      exact (hnone (by cases edit <;> rfl) hd).elim
    · cases h
  | call i r =>
    rw [turn, Option.map_eq_some_iff] at h
    obtain ⟨c, hc, rfl⟩ := h
    have hinserts := inserts_step cfg s.world c r
    rw [Turn.command_map] at hd
    revert hinserts
    generalize hheld : c.draft = held
    generalize (c.step cfg s.world r).next.bind Call.draft = next
    generalize hcommand : (c.step cfg s.world r).command = command at hd
    intro hinserts
    cases hinserts with
    | none hempty => exact (hnone hempty hd).elim
    | keep hempty => exact (hnone hempty hd).elim
    | openDraft => exact (hnone rfl hd).elim
    | row hrow hid _ hqueued =>
      rw [hrow, List.mem_singleton] at hd
      subst hd
      exact ⟨hqueued, Or.inl hid.ge⟩
    | @commit draft =>
      rw [Command.inserted, List.mem_singleton] at hd
      subst hd
      exact ⟨draft.queued, Or.inr ⟨c, List.mem_of_getElem? hc, by simp [Call.drafts, hheld]⟩⟩
  | worker r =>
    cases h
    exact (hnone (inserted_of_background (background_worker cfg s.world r _).command) hd).elim
  | sweep r =>
    cases h
    exact (hnone (inserted_of_background (quiet_sweep s.world r _).background.command) hd).elim
  | projectCleanup r =>
    cases h
    exact (hnone (inserted_of_background
      (quiet_projectCleanup s.world r _).background.command) hd).elim
  | domainWorker r =>
    cases h
    exact (hnone (inserted_of_background
      (quiet_domainWorker s.world r _).background.command) hd).elim

theorem shuffles_turn {t : Turn Processes} (h : s.turn cfg e = some t) (rows : List Deployment)
    (hrows : t.command = .shuffleDeployments rows) : rows.Perm s.world.db.deployments := by
  cases e with
  | tick | request | restart =>
    cases h
    cases hrows
  | edit edit =>
    rw [turn] at h
    split at h
    · rename_i hadmits
      cases h
      have hcommand : edit.command = .shuffleDeployments rows := hrows
      rw [hcommand] at hadmits
      exact of_decide_eq_true hadmits
    · cases h
  | call i r =>
    rw [turn, Option.map_eq_some_iff] at h
    obtain ⟨c, _, rfl⟩ := h
    exact absurd hrows (shuffles_of_foreground (foreground_call cfg s.world r c).command rows)
  | worker r =>
    cases h
    exact absurd hrows (shuffles_of_background (background_worker cfg s.world r _).command rows)
  | sweep r =>
    cases h
    exact absurd hrows (shuffles_of_background (quiet_sweep s.world r _).background.command rows)
  | projectCleanup r =>
    cases h
    exact absurd hrows
      (shuffles_of_background (quiet_projectCleanup s.world r _).background.command rows)
  | domainWorker r =>
    cases h
    exact absurd hrows
      (shuffles_of_background (quiet_domainWorker s.world r _).background.command rows)

theorem rows_step (h : s.step cfg e = some s') {d' : Deployment}
    (hd' : d' ∈ s'.world.db.deployments) :
    (d'.status = .queued ∧
      (s.world.db.nextId ≤ d'.id ∨ ∃ c ∈ s.procs.calls, c.drafts d'.id = true)) ∨
    ∃ d ∈ s.world.db.deployments, d' = d ∨
      ∃ t x, s.turn cfg e = some t ∧ t.command = .writeStatus d.id x ∧
        d' = x.apply s.world.now d := by
  obtain ⟨t, ht, _, rfl⟩ := step_eq_some_iff.mp h
  rcases World.mem_deployments_exec (shuffles_turn ht) hd' with hinserted | ⟨d, hd, _, hwritten⟩
  · exact Or.inl (inserted_turn ht hinserted)
  · refine Or.inr ⟨d, hd, ?_⟩
    rcases hwritten with rfl | ⟨x, hcommand, hx⟩
    · exact Or.inl rfl
    · exact Or.inr ⟨t, x, ht, hcommand, hx⟩

/-! ## The calls after a step -/

/-- Where a call comes from: it is an old one, a new request, what follows a call, or a request
the worker has just given up on. -/
inductive Origin (cfg : Config) (s : State) : Event → Call → Prop
  | old {e : Event} {c : Call} (hc : c ∈ s.procs.calls) : Origin cfg s e c
  | start (r : Request) : Origin cfg s (.request r) r.start
  | next {i : Nat} {r : Reply} {c c' : Call} (hc : s.procs.calls[i]? = some c)
      (hnext : (c.step cfg s.world r).next = some c') : Origin cfg s (.call i r) c'
  | late {e : Event} {t : Turn Processes} {x : InternalRequest} (ht : s.turn cfg e = some t)
      (hx : x ∈ t.deferred) : Origin cfg s e (.late x)

theorem origin_step (h : s.step cfg e = some s') {c : Call} (hc : c ∈ s'.procs.calls) :
    s.Origin cfg e c := by
  obtain ⟨t, ht, _, rfl⟩ := step_eq_some_iff.mp h
  rcases List.mem_append.mp hc with hc | hc
  · cases e with
    | tick | sweep | projectCleanup | domainWorker | restart =>
      cases ht
      exact .old hc
    | request r =>
      cases ht
      rcases List.mem_append.mp hc with hc | hc
      · exact .old hc
      · rw [List.mem_singleton.mp hc]
        exact .start r
    | edit edit =>
      rw [turn] at ht
      split at ht
      · cases ht
        exact .old hc
      · cases ht
    | worker r =>
      cases ht
      simp only [Turn.map, Processes.setWorker_calls] at hc
      exact .old hc
    | call i r =>
      rw [turn, Option.map_eq_some_iff] at ht
      obtain ⟨c₀, hc₀, rfl⟩ := ht
      simp only [Turn.map] at hc
      cases hnext : (c₀.step cfg s.world r).next with
      | none =>
        rw [hnext] at hc
        exact .old (List.mem_of_mem_eraseIdx hc)
      | some c' =>
        rw [hnext] at hc
        rcases List.mem_or_eq_of_mem_set hc with hc | rfl
        · exact .old hc
        · exact .next hc₀ hnext
  · obtain ⟨x, hx, rfl⟩ := List.mem_map.mp hc
    exact .late ht hx

theorem late_step (h : s.step cfg e = some s') {x : InternalRequest}
    (hx : .late x ∈ s'.procs.calls) :
    .late x ∈ s.procs.calls ∨ ∃ t, s.turn cfg e = some t ∧ x ∈ t.deferred := by
  generalize hc : Call.late x = c at hx
  cases origin_step h hx with
  | old hold => exact Or.inl (hc ▸ hold)
  | start r => cases r <;> cases hc
  | @next i r c₀ _ _ hnext =>
    subst hc
    cases c₀ with
    | late y =>
      rw [next_late] at hnext
      cases hnext
    | _ =>
      obtain ⟨y, _, hy⟩ := toCall_eq_some hnext
      cases hy
  | late ht hdeferred =>
    cases hc
    exact Or.inr ⟨_, ht, hdeferred⟩

/-- An open transaction after a step was open before or has a new identifier. -/
theorem drafts_step (h : s.step cfg e = some s') {c : Call} (hc : c ∈ s'.procs.calls)
    (hid : c.drafts id = true) :
    (∃ c₀ ∈ s.procs.calls, c₀.drafts id = true) ∨ s.world.db.nextId ≤ id := by
  cases origin_step h hc with
  | old hold => exact Or.inl ⟨c, hold, hid⟩
  | start r => cases r <;> simp [Request.start, Call.drafts, Call.draft] at hid
  | @next i r c₀ _ hc₀ hnext =>
    have hinserts := inserts_step cfg s.world c₀ r
    rw [hnext, Option.bind_some] at hinserts
    revert hinserts
    generalize hheld : c₀.draft = held
    generalize (c₀.step cfg s.world r).command = command
    generalize hdraft : c.draft = draft
    rw [Call.drafts, hdraft] at hid
    intro hinserts
    cases hinserts with
    | none | row | commit => simp at hid
    | keep =>
      refine Or.inl ⟨c₀, List.mem_of_getElem? hc₀, ?_⟩
      rw [Call.drafts, hheld]
      exact hid
    | openDraft hnew =>
      rw [Option.any_some, beq_iff_eq] at hid
      exact Or.inr (Nat.le_of_succ_le (hnew.symm.trans hid).le)
  | late => simp [Call.drafts, Call.draft] at hid

end State
end System
end Code2Cloud
