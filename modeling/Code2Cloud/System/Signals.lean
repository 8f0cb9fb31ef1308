import Code2Cloud.Base.Log
import Code2Cloud.System.Tickets

/-!
# Cancel signals

The decision to cancel a deployment travels as a Redis key with a lifetime of its own,
which the worker looks up between the phases of a build.
-/

namespace Code2Cloud
namespace System

open Api Worker

/-! ## The last signal -/

/-- The time at which the cancel signal of a deployment was last set. -/
def lastPublished (id : DeploymentId) (log : List Entry) : Option Nat :=
  log.foldl (fun time x =>
    match x with
    | .published d t => if d = id then some t else time
    | _ => time) none

variable {cfg : Config} {w : World} {s s' : State} {id : DeploymentId}

theorem lastPublished_append (log : List Entry) {new : List Entry}
    (h : ∀ t, .published id t ∉ new) : lastPublished id (log ++ new) = lastPublished id log := by
  induction new generalizing log with
  | nil => rw [List.append_nil]
  | cons x new ih =>
    have hx : lastPublished id (log ++ [x]) = lastPublished id log := by
      rw [lastPublished, List.foldl_append, lastPublished]
      cases x with
      | published d t =>
        have hd : d ≠ id := fun hd => h t (hd ▸ List.mem_cons_self)
        simp [hd]
      | _ => rfl
    rw [List.append_cons, ih _ fun t ht => h t (List.mem_cons_of_mem x ht), hx]

theorem lastPublished_concat (log : List Entry) (t : Nat) :
    lastPublished id (log ++ [.published id t]) = some t := by
  simp [lastPublished]

theorem lastPublished_record (log : List Entry) {a : Writer} {entries : List Entry}
    (h : writtenBy a entries = true) (ha : a ≠ .command) :
    lastPublished id (log ++ entries) = lastPublished id log :=
  lastPublished_append log fun _ ht => ha (writer_of_mem h ht).symm

namespace World

theorem mem_recorded_published {c : Command} {t : Nat} (h : .published id t ∈ w.recorded c) :
    c = .publishCancelSignal id ∧ t = w.now := by
  cases c with
  | popBuildJob =>
    rw [recorded] at h
    cases hpop : w.redis.toQueues.waitForJob <;> simp [hpop] at h
  | publishCancelSignal d =>
    simp only [recorded, List.mem_singleton, Entry.published.injEq] at h
    exact ⟨by rw [h.1], h.2⟩
  | apply o => cases o <;> simp [recorded] at h
  | _ => simp [recorded] at h

theorem mem_recorded_popped {c : Command} (h : .popped id ∈ w.recorded c) : c = .popBuildJob := by
  by_contra hc
  exact List.count_eq_zero.mp (count_recorded hc w id) h

theorem cancelKeys_exec (cfg : Config) (w : World) (c : Command) (id : DeploymentId) :
    (c ≠ .publishCancelSignal id → c ≠ .clearCancelSignal id →
        (w.exec cfg c).redis.cancelKeys id = w.redis.cancelKeys id) ∧
      (c = .publishCancelSignal id →
        (w.exec cfg c).redis.cancelKeys id = some (w.now + 300 * 1000)) := by
  cases c with
  | publishCancelSignal d =>
    simp only [exec, Redis.publishCancelSignal]
    by_cases hd : id = d
    · simp [hd]
    · simp only [hd, if_false]
      exact ⟨fun _ _ => trivial, fun h => absurd (Command.publishCancelSignal.inj h).symm hd⟩
  | clearCancelSignal d =>
    simp only [exec, Redis.clearCancelSignal]
    by_cases hd : id = d
    · simp [hd]
    · simp [hd]
  | popBuildJob =>
    refine ⟨fun _ _ => ?_, fun h => by cases h⟩
    rw [exec]
    cases w.redis.toQueues.waitForJob <;> rfl
  | popProjectCleanup =>
    refine ⟨fun _ _ => ?_, fun h => by cases h⟩
    rw [exec]
    cases w.redis.toQueues.popProjectCleanup <;> rfl
  | updateIngressHosts name hosts =>
    refine ⟨fun _ _ => ?_, fun h => by cases h⟩
    rw [exec]
    cases w.cluster.ingresses name <;> rfl
  | _ => exact ⟨fun _ _ => rfl, fun h => by cases h⟩

end World

/-! ## The worker's job -/

namespace BuildWorker

def processes (id : DeploymentId) : BuildWorker → Prop
  | processing b _ => b.job.deploymentId = id
  | _ => False

/-- The worker rests or goes on with its job, and does not take up a job again. -/
def Continues (b : BuildWorker) (next : Option BuildWorker) : Prop :=
  ∀ b', next = some b' → b' = idle ∨ (b'.job = b.job ∧ ∀ id, b'.processes id → b.processes id)

theorem continues_none (b : BuildWorker) : b.Continues none := nofun

theorem continues_idle (b : BuildWorker) : b.Continues (some idle) := by
  intro b' h
  exact Or.inl (Option.some.inj h).symm

theorem continues_processing {b b' : Build} (h : b'.job = b.job) (pc pc' : Pc) :
    (processing b pc).Continues (some (processing b' pc')) := by
  rintro _ ⟨⟩
  refine Or.inr ⟨congrArg some h, fun id hid => ?_⟩
  rw [processes, h] at hid
  exact hid

theorem continues_cancelling {b : BuildWorker} {job : BuildJob} (h : b.job = some job)
    (pc : CancelPc) : b.Continues (some (cancelling job pc)) := by
  rintro _ ⟨⟩
  exact Or.inr ⟨h.symm, nofun⟩

theorem continues_failing {b : BuildWorker} {job : BuildJob} (h : b.job = some job)
    (pc : FailPc) : b.Continues (some (failing job pc)) := by
  rintro _ ⟨⟩
  exact Or.inr ⟨h.symm, nofun⟩

theorem continues_check (w : World) (r : Reply) (b : Build) (pc next : Pc) :
    (processing b pc).Continues (check w r b next).next := by
  unfold check
  split
  · exact continues_cancelling rfl _
  · exact continues_processing rfl _ _

theorem continues_process (cfg : Config) (w : World) (r : Reply) (b : Build) (pc : Pc) :
    (processing b pc).Continues (processStep cfg w r b pc).next := by
  cases pc with
  | checkQueued | checkSettings | checkClone | checkBuild | checkDeploy =>
    exact continues_check w r b _ _
  | projectPending | recordImage | projectActive =>
    exact next_request_of (continues_processing rfl _ _) (continues_processing rfl _ _) _ _ _ _ _
  | markBuilding =>
    refine next_request_of ?_ (continues_failing rfl _) _ _ _ _ _
    split
    · exact continues_none _
    · exact continues_processing rfl _ _
  | getSettings => exact continues_processing rfl .getSettings .getToken
  | getToken =>
    exact next_query_of (continues_processing rfl .getToken .checkClone)
      (continues_failing rfl .markFailed) _
  | build =>
    exact next_query_of (continues_processing rfl .build .recordImage)
      (continues_failing rfl .markFailed) _
  | clone =>
    refine next_query_of ?_ (continues_failing rfl .markFailed) _
    simp only [Turn.pure]
    generalize (if b.job.commitHash.isEmpty = true then r.head else b.job.commitHash) = hash
    split
    · exact continues_none _
    · exact continues_processing rfl .clone .checkBuild
  | markDeploying | markReady =>
    exact next_request_of (continues_processing rfl _ _) (continues_failing rfl _) _ _ _ _ _
  | deploy stage =>
    rw [processStep]
    split
    · exact next_issue_of (continues_processing rfl _ _) (continues_failing rfl _) _ _ _ _ _
    · unfold Turn.pure afterDeploy
      split
      · exact continues_processing rfl _ _
      · exact continues_none _
  | stopPrevious =>
    rw [processStep]
    split <;> exact continues_processing rfl _ _
  | supersede =>
    rw [processStep]
    split
    · exact next_request_of (continues_processing rfl _ _) (continues_processing rfl _ _) _ _ _ _ _
    · exact continues_processing rfl _ _
  | startStreaming => exact continues_idle _

theorem continues_cancel (w : World) (r : Reply) (job : BuildJob) (pc : CancelPc) :
    (cancelling job pc).Continues (cancelStep w r job pc).next := by
  cases pc with
  | markCanceled | deleteResources | projectInactive =>
    exact next_request_of (continues_cancelling rfl _) (continues_cancelling rfl _) _ _ _ _ _
  | clearSignal =>
    exact next_issue_of (continues_cancelling rfl _) (continues_cancelling rfl _) _ _ _ _ _
  | stopStreaming => exact continues_cancelling rfl _
  | stopStreams => exact continues_idle _
  | cleanup left =>
    cases left with
    | nil => exact continues_cancelling rfl _
    | cons kind left =>
      exact next_issue_of (continues_cancelling rfl _) (continues_cancelling rfl _) _ _ _ _ _

theorem continues_fail (w : World) (r : Reply) (job : BuildJob) (pc : FailPc) :
    (failing job pc).Continues (failStep w r job pc).next := by
  cases pc with
  | markFailed =>
    exact next_request_of (continues_failing rfl _) (continues_failing rfl _) _ _ _ _ _
  | stopStreams => exact continues_idle _

theorem next_step (cfg : Config) (w : World) (r : Reply) (b : BuildWorker) :
    b.Continues (b.step cfg w r).next ∨
      ∃ job, b = idle ∧ (b.step cfg w r).next = some (processing { job } .checkQueued) ∧
        (b.step cfg w r).command = .popBuildJob ∧
        w.redis.buildQueue = (w.exec cfg .popBuildJob).redis.buildQueue ++ [job] ∧
        w.recorded .popBuildJob = [.popped job.deploymentId] := by
  cases b with
  | processing b pc => exact Or.inl (continues_process cfg w r b pc)
  | cancelling job pc => exact Or.inl (continues_cancel w r job pc)
  | failing job pc => exact Or.inl (continues_fail w r job pc)
  | idle =>
    rw [step]
    cases hwait : w.redis.toQueues.waitForJob with
    | none => exact Or.inl (continues_idle _)
    | some popped =>
      obtain ⟨job, queues⟩ := popped
      have hpop : w.redis.buildQueue = (w.exec cfg .popBuildJob).redis.buildQueue ++ [job] := by
        rw [World.exec, hwait]
        rw [Queues.waitForJob, Option.map_eq_some_iff] at hwait
        obtain ⟨⟨job', rest⟩, hrpop, heq⟩ := hwait
        cases heq
        exact Deque.rpop_eq_some_iff.mp hrpop
      have hrecorded : w.recorded .popBuildJob = [.popped job.deploymentId] := by
        rw [World.recorded, hwait]
      dsimp only
      rcases issue_cases w r.outcome .popBuildJob (some (processing { job } .checkQueued))
        (some idle) [] [] with ⟨_, h⟩ | ⟨_, h⟩ | h <;> rw [h]
      · exact Or.inr ⟨job, rfl, rfl, rfl, hpop, hrecorded⟩
      · exact Or.inl (continues_idle _)
      · exact Or.inl (continues_idle _)

end BuildWorker

/-! ## Acknowledged cancellations -/

def Call.marks (id : DeploymentId) : Call → Prop
  | .push (.markCanceled _ _ id' _) => id' = id
  | _ => False

@[simp] theorem entries_pure {σ : Type} (next : σ) (entries : List Entry) :
    (Turn.pure next entries).entries = entries := rfl

@[simp] theorem entries_query {σ : Type} (o : Outcome) (ok err : σ) :
    (query o (.pure ok) (.pure err) : Turn σ).entries = [] := by
  unfold query
  split <;> rfl

@[simp] theorem entries_issue {σ : Type} (w : World) (o : Outcome) (c : Command) (ok err : σ) :
    (issue w o c ok err).entries = [] := by
  rcases issue_cases w o c ok err [] [] with ⟨_, h⟩ | ⟨_, h⟩ | h <;> rw [h]

@[simp] theorem entries_map {σ τ : Type} (t : Turn σ) (f : σ → τ) :
    (t.map f).entries = t.entries := rfl

/-- A call that acknowledges a cancellation sets the signal or has set it. -/
theorem acknowledges {c : Call} {r : Reply}
    (h : .acknowledged id ∈ (c.step cfg w r).entries) :
    (c.step cfg w r).command = .publishCancelSignal id ∨ c.marks id := by
  cases c with
  | createDeployment c =>
    cases c <;> simp [Call.step, DeploymentsService.Create.step] at h
  | cancel c =>
    cases c with
    | find => simp [Call.step, DeploymentsService.Cancel.step] at h
    | update => simp [Call.step, DeploymentsService.Cancel.step] at h
    | publish d =>
      simp only [Call.step, DeploymentsService.Cancel.step, Turn.map_issue] at h ⊢
      rcases issue_cases w r.outcome (.publishCancelSignal d)
        (Flow.toCall .cancel (.done : Flow DeploymentsService.Cancel))
        (Flow.toCall .cancel (.throw .internal)) [.acknowledged d] [] with
        ⟨_, ht⟩ | ⟨_, ht⟩ | ht <;> rw [ht] at h ⊢
      · rw [List.mem_singleton, Entry.acknowledged.injEq] at h
        exact Or.inl (by rw [h])
      · simp at h
      · simp at h
  | updateStatus c =>
    cases c <;> simp [Call.step, DeploymentsService.UpdateStatus.step] at h
  | push c =>
    cases c with
    | findProjects payload =>
      simp only [Call.step, WebhooksService.Push.step] at h
      split at h
      · simp at h
      · split at h <;> simp at h
    | markCanceled opts l d rest =>
      simp only [Call.step, WebhooksService.Push.step, entries_map] at h
      rcases issue_cases w r.outcome (.writeStatus d .webhookCancel)
        (WebhooksService.Push.afterCancel cfg.encryption opts l rest)
        (WebhooksService.Push.loop cfg.encryption opts rest) [.acknowledged d] [] with
        ⟨_, ht⟩ | ⟨_, ht⟩ | ht <;> rw [ht] at h
      · rw [List.mem_singleton, Entry.acknowledged.injEq] at h
        exact Or.inr h.symm
      · simp at h
      · simp at h
    | publish | findSystemConfig | insert | enqueue =>
      simp [Call.step, WebhooksService.Push.step] at h
  | createProject c =>
    cases c with
    | commit draft =>
      simp only [Call.step, ProjectsService.Create.step] at h
      cases ho : r.outcome <;> simp [ho] at h
    | insert =>
      simp only [Call.step, ProjectsService.Create.step] at h
      split at h <;> simp at h
    | _ => simp [Call.step, ProjectsService.Create.step] at h
  | updateProject c =>
    cases c <;> simp [Call.step, ProjectsService.Update.step] at h
  | removeProject c =>
    cases c with
    | publish cleanup ids =>
      cases ids <;> simp [Call.step, ProjectsService.Remove.step] at h
    | _ => simp [Call.step, ProjectsService.Remove.step] at h
  | createDomain c =>
    cases c <;> simp [Call.step, DomainsService.Create.step] at h
  | removeDomain c =>
    cases c <;> simp [Call.step, DomainsService.Remove.step] at h
  | late c => simp [Call.step] at h

theorem toCall_eq_some {σ : Type} {wrap : σ → Call} {f : Flow σ} {c : Call}
    (h : f.toCall wrap = some c) : ∃ x, f = .next x ∧ c = wrap x := by
  cases f with
  | next x => exact ⟨x, rfl, (Option.some.inj h).symm⟩
  | done => cases h
  | throw e => cases h

namespace WebhooksService

open Push

variable {e : EncryptionService} {opts : TriggerOptions} {x : Push}

theorem marks_loop {cs : List Candidate} (h : loop e opts cs = .next x) :
    ¬(Call.push x).marks id := by
  induction cs with
  | nil => cases h
  | cons c rest ih =>
    rw [loop] at h
    split at h
    · split at h
      · split at h
        · cases h
          exact not_false
        · split at h
          · exact ih h
          · cases h
            exact not_false
      · split at h
        · exact ih h
        · cases h
          exact not_false
    · exact ih h

theorem marks_afterCancel {l : Loaded} {rest : List Candidate}
    (h : afterCancel e opts l rest = .next x) : ¬(Call.push x).marks id := by
  rw [afterCancel] at h
  split at h
  · exact marks_loop h
  · cases h
    exact not_false

theorem marks_push {c : Push} {r : Reply} (h : (c.step cfg w r).next = .next x)
    (hx : (Call.push x).marks id) : (c.step cfg w r).command = .publishCancelSignal id := by
  cases c with
  | findProjects payload =>
    rw [Push.step] at h
    split at h
    · cases h
    · split at h
      · cases h
      · rw [query] at h
        split at h
        · exact absurd hx (marks_loop h)
        · cases h
  | publish opts l d rest =>
    rw [Push.step] at h ⊢
    rcases issue_cases w r.outcome (.publishCancelSignal d) (Flow.next (markCanceled opts l d rest))
      (loop cfg.encryption opts rest) [] [] with ⟨_, ht⟩ | ⟨_, ht⟩ | ht <;> rw [ht] at h ⊢
    · cases h
      exact congrArg _ hx
    · exact absurd hx (marks_loop h)
    · exact absurd hx (marks_loop h)
  | markCanceled opts l d rest =>
    rw [Push.step] at h
    rcases next_issue w r.outcome (.writeStatus d .webhookCancel)
      (afterCancel cfg.encryption opts l rest) (loop cfg.encryption opts rest) [.acknowledged d] []
      with hn | hn <;> rw [hn] at h
    · exact absurd hx (marks_afterCancel h)
    · exact absurd hx (marks_loop h)
  | findSystemConfig opts l envVars previous rest =>
    rw [Push.step, query] at h
    split at h
    · cases h
      exact hx.elim
    · exact absurd hx (marks_loop h)
  | insert opts l envVars previous region rest =>
    rw [Push.step] at h
    rcases next_issue w r.outcome (.createDeployment (row w opts l region))
      (.next (enqueue opts (job opts l envVars previous (row w opts l region).id) rest))
      (loop cfg.encryption opts rest) [] [] with hn | hn <;> rw [hn] at h
    · cases h
      exact hx.elim
    · exact absurd hx (marks_loop h)
  | enqueue opts job rest =>
    rw [Push.step] at h
    rcases next_issue w r.outcome (.addBuildJob job) (loop cfg.encryption opts rest)
      (loop cfg.encryption opts rest) [] [] with hn | hn <;> rw [hn] at h
    · exact absurd hx (marks_loop h)
    · exact absurd hx (marks_loop h)

end WebhooksService

theorem marks_next {c c' : Call} {r : Reply} (h : (c.step cfg w r).next = some c')
    (hm : c'.marks id) : (c.step cfg w r).command = .publishCancelSignal id := by
  cases c with
  | push c =>
    obtain ⟨x, hx, rfl⟩ := toCall_eq_some h
    exact WebhooksService.marks_push hx hm
  | late c =>
    rw [next_late] at h
    cases h
  | _ =>
    obtain ⟨x, _, rfl⟩ := toCall_eq_some h
    exact hm.elim

/-! ## The signals of a run -/

namespace World

/-- The key of a deployment expires 300 seconds after it was last set. -/
def Keyed (w : World) (id : DeploymentId) : Prop :=
  w.redis.cancelKeys id = (lastPublished id w.log).map (· + 300 * 1000)

theorem log_turn (cfg : Config) (w : World) (c : Command) (entries : List Entry) :
    ((w.exec cfg c).record entries).log = w.log ++ (w.recorded c ++ entries) := by
  rw [record_log, log_exec, List.append_assoc]

theorem lastPublished_turn (cfg : Config) {c : Command} (hc : c ≠ .publishCancelSignal id)
    {a : Writer} {entries : List Entry} (h : writtenBy a entries = true) (ha : a ≠ .command) :
    lastPublished id ((w.exec cfg c).record entries).log = lastPublished id w.log := by
  rw [record_log, lastPublished_record _ h ha, log_exec]
  exact lastPublished_append _ fun t ht => hc (mem_recorded_published ht).1

theorem lastPublished_publish (cfg : Config) {a : Writer} {entries : List Entry}
    (h : writtenBy a entries = true) (ha : a ≠ .command) :
    lastPublished id ((w.exec cfg (.publishCancelSignal id)).record entries).log = some w.now := by
  rw [record_log, lastPublished_record _ h ha]
  exact lastPublished_concat w.log w.now

theorem isSome_lastPublished_turn (cfg : Config) (c : Command) {a : Writer}
    {entries : List Entry} (h : writtenBy a entries = true) (ha : a ≠ .command)
    (hw : (lastPublished id w.log).isSome) :
    (lastPublished id ((w.exec cfg c).record entries).log).isSome := by
  by_cases hc : c = .publishCancelSignal id
  · rw [hc, lastPublished_publish cfg h ha]
    rfl
  · rw [lastPublished_turn cfg hc h ha]
    exact hw

theorem Keyed.turn (hw : w.Keyed id) (cfg : Config) {c : Command}
    (hc : c ≠ .clearCancelSignal id) {a : Writer} {entries : List Entry}
    (h : writtenBy a entries = true) (ha : a ≠ .command) :
    ((w.exec cfg c).record entries).Keyed id := by
  by_cases hpub : c = .publishCancelSignal id
  · rw [Keyed, hpub, lastPublished_publish cfg h ha, record_redis,
      (w.cancelKeys_exec cfg _ id).2 rfl]
    rfl
  · rw [Keyed, lastPublished_turn cfg hpub h ha, record_redis,
      (w.cancelKeys_exec cfg c id).1 hpub hc]
    exact hw

theorem popped_turn (w : World) (id : DeploymentId) {c : Command} (hc : c ≠ .popBuildJob)
    {a : Writer} {entries : List Entry} (h : writtenBy a entries = true) (ha : a ≠ .command) :
    .popped id ∉ w.recorded c ++ entries := by
  intro hmem
  rcases List.mem_append.mp hmem with hmem | hmem
  · exact hc (mem_recorded_popped hmem)
  · exact ha (writer_of_mem h hmem).symm

end World

namespace BuildWorker

theorem command_process (cfg : Config) (w : World) (r : Reply) (b : Build) (pc : Pc)
    (id : DeploymentId) :
    (processStep cfg w r b pc).command ≠ .popBuildJob ∧
      (processStep cfg w r b pc).command ≠ .clearCancelSignal id := by
  have hrequest {σ : Type} (c : InternalRequest) (ok err : σ) (entries errors : List Entry) :
      (request w r.outcome c ok err entries errors).command ≠ .popBuildJob ∧
        (request w r.outcome c ok err entries errors).command ≠ .clearCancelSignal id := by
    rcases command_request w r.outcome c ok err entries errors with h | h <;> rw [h]
    · cases c <;> constructor <;> rintro ⟨⟩
    · constructor <;> rintro ⟨⟩
  have hquery {σ : Type} (ok err : σ) (entries errors : List Entry) :
      (query r.outcome (.pure ok entries) (.pure err errors)).command ≠ .popBuildJob ∧
        (query r.outcome (.pure ok entries) (.pure err errors)).command ≠
          .clearCancelSignal id := by
    unfold query
    split <;> constructor <;> rintro ⟨⟩
  cases pc with
  | checkQueued | checkSettings | checkClone | checkBuild | checkDeploy =>
    rw [processStep, check]
    split <;> constructor <;> rintro ⟨⟩
  | projectPending | markBuilding | recordImage | markDeploying | markReady | projectActive =>
    exact hrequest _ _ _ _ _
  | getSettings | startStreaming => constructor <;> rintro ⟨⟩
  | getToken | clone | build => exact hquery _ _ _ _
  | deploy stage =>
    rw [processStep]
    split
    · rename_i o next _ _
      rcases command_issue w r.outcome (.apply o) (some (processing b (.deploy next)))
        (some (failing b.job .markFailed)) [] [.finished b.job.deploymentId .failed] with h | h <;>
        rw [h] <;> constructor <;> rintro ⟨⟩
    · constructor <;> rintro ⟨⟩
  | stopPrevious =>
    rw [processStep]
    split <;> constructor <;> rintro ⟨⟩
  | supersede =>
    rw [processStep]
    split
    · exact hrequest _ _ _ _ _
    · constructor <;> rintro ⟨⟩

/-- The error branch of a cancelled job pops nothing and clears its own signal only. -/
theorem command_cancel (w : World) (r : Reply) (job : BuildJob) (pc : CancelPc)
    (id : DeploymentId) :
    (cancelStep w r job pc).command ≠ .popBuildJob ∧
      ((cancelStep w r job pc).command = .clearCancelSignal id →
        pc = .clearSignal ∧ job.deploymentId = id) := by
  have hrequest {σ : Type} (c : InternalRequest) (ok err : σ) :
      (request w r.outcome c ok err).command ≠ .popBuildJob ∧
        (request w r.outcome c ok err).command ≠ .clearCancelSignal id := by
    rcases command_request w r.outcome c ok err [] [] with h | h <;> rw [h]
    · cases c <;> exact ⟨nofun, nofun⟩
    · exact ⟨nofun, nofun⟩
  cases pc with
  | markCanceled | deleteResources | projectInactive =>
    exact ⟨(hrequest _ _ _).1, fun h => absurd h (hrequest _ _ _).2⟩
  | stopStreaming | stopStreams => exact ⟨nofun, nofun⟩
  | cleanup left =>
    cases left with
    | nil => exact ⟨nofun, nofun⟩
    | cons kind left =>
      rw [cancelStep]
      rcases command_issue w r.outcome
        (.delete kind (Client.deleteName kind (BuildWorker.cleanupOptions job)))
        (some (cancelling job (.cleanup left))) (some (cancelling job (.cleanup left))) [] [] with
        h | h <;> rw [h] <;> exact ⟨nofun, nofun⟩
  | clearSignal =>
    rw [cancelStep]
    rcases command_issue w r.outcome (.clearCancelSignal job.deploymentId)
      (some (cancelling job .stopStreams)) (some (cancelling job .stopStreams)) [] [] with
      h | h <;> rw [h]
    · exact ⟨nofun, fun h => ⟨rfl, Command.clearCancelSignal.inj h⟩⟩
    · exact ⟨nofun, nofun⟩

theorem command_fail (w : World) (r : Reply) (job : BuildJob) (pc : FailPc) (id : DeploymentId) :
    (failStep w r job pc).command ≠ .popBuildJob ∧
      (failStep w r job pc).command ≠ .clearCancelSignal id := by
  cases pc with
  | markFailed =>
    rw [failStep]
    rcases command_request w r.outcome (.writeStatus job.deploymentId (statusUpdate .failed))
      (some (failing job .stopStreams)) (some (failing job .stopStreams)) [] [] with h | h <;>
      rw [h] <;> exact ⟨nofun, nofun⟩
  | stopStreams => exact ⟨nofun, nofun⟩

theorem command_idle (cfg : Config) (w : World) (r : Reply) :
    (idle.step cfg w r).command = .popBuildJob ∨ (idle.step cfg w r).command = .skip := by
  rw [step]
  split
  · exact Or.inr rfl
  · exact command_issue w _ _ _ _ _ _

theorem pops {b : BuildWorker} {r : Reply} (h : (b.step cfg w r).command = .popBuildJob) :
    b = idle := by
  cases b with
  | idle => rfl
  | processing b pc => exact absurd h (command_process cfg w r b pc 0).1
  | cancelling job pc => exact absurd h (command_cancel w r job pc 0).1
  | failing job pc => exact absurd h (command_fail w r job pc 0).1

/-- Only the cancelling worker clears a signal, that of its own job. -/
theorem clears {b : BuildWorker} {r : Reply}
    (h : (b.step cfg w r).command = .clearCancelSignal id) :
    ∃ job, b = .cancelling job .clearSignal ∧ job.deploymentId = id := by
  cases b with
  | idle => rcases command_idle cfg w r with hc | hc <;> rw [hc] at h <;> cases h
  | processing b pc => exact absurd h (command_process cfg w r b pc _).2
  | cancelling job pc =>
    obtain ⟨rfl, hid⟩ := (command_cancel w r job pc _).2 h
    exact ⟨job, rfl, hid⟩
  | failing job pc => exact absurd h (command_fail w r job pc _).2

end BuildWorker

namespace State

structure Signalled (s : State) : Prop where
  /-- The worker's job was popped. -/
  popped : ∀ job, s.procs.worker.job = some job → .popped job.deploymentId ∈ s.world.log
  /-- Until the worker is done with a job its signal is as it was last set. -/
  key : ∀ id, (.popped id ∈ s.world.log → s.procs.worker.processes id) → s.world.Keyed id
  marking : ∀ c ∈ s.procs.calls, ∀ id, c.marks id → (lastPublished id s.world.log).isSome
  acknowledged : ∀ id, .acknowledged id ∈ s.world.log → (lastPublished id s.world.log).isSome

theorem signalled_call {before later : List Call} {c : Call} {r : Reply}
    (hs : s.Signalled) (hcalls : s.procs.calls = before ++ c :: later) (hs' : s' = {
      world := (s.world.exec cfg (c.step cfg s.world r).command).record
        (c.step cfg s.world r).entries
      procs := { s.procs with
        calls := before ++ (c.step cfg s.world r).next.toList ++ later } }) : s'.Signalled := by
  have hf := foreground_call cfg s.world r c
  have hclear : ∀ id, (c.step cfg s.world r).command ≠ .clearCancelSignal id := by
    intro id hc
    have hcommand := hf.command
    rw [hc] at hcommand
    cases hcommand
  have hpop : (c.step cfg s.world r).command ≠ .popBuildJob := by
    intro hc
    have hcommand := hf.command
    rw [hc] at hcommand
    cases hcommand
  have hsome (id) (h : (lastPublished id s.world.log).isSome) :
      (lastPublished id s'.world.log).isSome := by
    rw [hs']
    exact World.isSome_lastPublished_turn cfg _ hf.entries nofun h
  have hlog : s'.world.log = s.world.log ++ (s.world.recorded (c.step cfg s.world r).command ++
      (c.step cfg s.world r).entries) := by
    rw [hs', World.log_turn]
  constructor
  · intro job hjob
    rw [hs'] at hjob
    rw [hlog]
    exact List.mem_append_left _ (hs.popped job hjob)
  · intro id hid
    rw [hs']
    refine (hs.key id fun h => ?_).turn cfg (hclear id) hf.entries nofun
    have hprocesses := hid (by rw [hlog]; exact List.mem_append_left _ h)
    rw [hs'] at hprocesses
    exact hprocesses
  · intro d hd id hmarks
    rw [hs', List.append_assoc] at hd
    rcases List.mem_append.mp hd with hd | hd
    · exact hsome id (hs.marking d (by rw [hcalls]; exact List.mem_append_left _ hd) id hmarks)
    · rcases List.mem_append.mp hd with hd | hd
      · have hcommand := marks_next (Option.mem_toList.mp hd) hmarks
        rw [hs', hcommand, World.lastPublished_publish cfg hf.entries nofun]
        rfl
      · exact hsome id
          (hs.marking d (by rw [hcalls]; simp [hd]) id hmarks)
  · intro id hack
    rw [hlog] at hack
    rcases List.mem_append.mp hack with hack | hack
    · exact hsome id (hs.acknowledged id hack)
    · rcases List.mem_append.mp hack with hack | hack
      · exact absurd (writer_of_mem (World.writtenBy_recorded _ _) hack) nofun
      · rcases acknowledges hack with hcommand | hmarks
        · rw [hs', hcommand, World.lastPublished_publish cfg hf.entries nofun]
          rfl
        · exact hsome id (hs.marking c (by rw [hcalls]; simp) id hmarks)

/-- A job that is popped was not popped before. -/
theorem not_popped_of_ticketed (hs : s.Ticketed) {job : BuildJob}
    (h : job ∈ s.world.redis.buildQueue) : .popped job.deploymentId ∉ s.world.log := by
  intro hpopped
  have hqueue : 0 < s.world.redis.buildQueue.countP (fun j => j.deploymentId == job.deploymentId) :=
    List.countP_pos_iff.mpr ⟨job, h, by simp⟩
  have hlog : 0 < s.world.log.count (.popped job.deploymentId) := List.count_pos_iff.mpr hpopped
  have hone := (hs job.deploymentId).1
  rw [tickets, World.taken] at hone
  omega

theorem signalled_worker {r : Reply} (hs : s.Signalled) (ht : s.Ticketed) (hs' : s' = {
      world := (s.world.exec cfg (s.procs.worker.step cfg s.world r).command).record
        (s.procs.worker.step cfg s.world r).entries
      procs := { s.procs.setWorker (s.procs.worker.step cfg s.world r).next with
        calls := s.procs.calls ++ (s.procs.worker.step cfg s.world r).deferred.map .late } }) :
    s'.Signalled := by
  have hb := background_worker cfg s.world r s.procs.worker
  have hlog : s'.world.log = s.world.log ++
      (s.world.recorded (s.procs.worker.step cfg s.world r).command ++
        (s.procs.worker.step cfg s.world r).entries) := by
    rw [hs', World.log_turn]
  have hsome (id) (h : (lastPublished id s.world.log).isSome) :
      (lastPublished id s'.world.log).isSome := by
    rw [hs']
    exact World.isSome_lastPublished_turn cfg _ hb.entries nofun h
  have hmarking : ∀ c ∈ s'.procs.calls, ∀ id, c.marks id →
      (lastPublished id s'.world.log).isSome := by
    intro c hc id hmarks
    rw [hs'] at hc
    rcases List.mem_append.mp hc with hc | hc
    · exact hsome id (hs.marking c hc id hmarks)
    · obtain ⟨x, _, rfl⟩ := List.mem_map.mp hc
      exact hmarks.elim
  have hacknowledged : ∀ id, .acknowledged id ∈ s'.world.log →
      (lastPublished id s'.world.log).isSome := by
    intro id hack
    rw [hlog] at hack
    rcases List.mem_append.mp hack with hack | hack
    · exact hsome id (hs.acknowledged id hack)
    · rcases List.mem_append.mp hack with hack | hack
      · exact absurd (writer_of_mem (World.writtenBy_recorded _ _) hack) nofun
      · exact absurd (writer_of_mem hb.entries hack) nofun
  have hworker : s'.procs.worker = ((s.procs.worker.step cfg s.world r).next).getD .idle := by
    rw [hs']
    exact s.procs.setWorker_worker _
  have hkey (hold : ∀ id, (.popped id ∈ s'.world.log → s'.procs.worker.processes id) →
      .popped id ∈ s.world.log → s.procs.worker.processes id) :
      ∀ id, (.popped id ∈ s'.world.log → s'.procs.worker.processes id) → s'.world.Keyed id := by
    intro id hid
    rw [hs']
    refine (hs.key id (hold id hid)).turn cfg ?_ hb.entries nofun
    -- a signal is cleared in the error branch, when its job is not processed any more
    intro hclear
    obtain ⟨job, hcancelling, rfl⟩ := BuildWorker.clears hclear
    have hprocesses := hold _ hid (hs.popped job (by rw [hcancelling]; rfl))
    rw [hcancelling] at hprocesses
    exact hprocesses
  rcases s.procs.worker.next_step cfg s.world r with
    hcontinues | ⟨job, hidle, hnext, hcommand, hqueue, hrecorded⟩
  · refine ⟨?_, hkey ?_, hmarking, hacknowledged⟩
    · intro job hjob
      rw [hlog]
      refine List.mem_append_left _ (hs.popped job ?_)
      rw [hworker] at hjob
      cases hnext : (s.procs.worker.step cfg s.world r).next with
      | none =>
        rw [hnext] at hjob
        cases hjob
      | some b' =>
        rw [hnext, Option.getD_some] at hjob
        rcases hcontinues b' hnext with rfl | ⟨hsame, _⟩
        · cases hjob
        · rw [← hsame, hjob]
    · intro id hid hpopped
      have hprocesses := hid (by rw [hlog]; exact List.mem_append_left _ hpopped)
      rw [hworker] at hprocesses
      cases hnext : (s.procs.worker.step cfg s.world r).next with
      | none =>
        rw [hnext] at hprocesses
        exact hprocesses.elim
      | some b' =>
        rw [hnext, Option.getD_some] at hprocesses
        rcases hcontinues b' hnext with rfl | ⟨_, hsame⟩
        · exact hprocesses.elim
        · exact hsame id hprocesses
  · rw [hnext, Option.getD_some] at hworker
    refine ⟨?_, hkey ?_, hmarking, hacknowledged⟩
    · intro job' hjob'
      rw [hworker] at hjob'
      cases hjob'
      rw [hlog, hcommand, hrecorded]
      simp
    · intro id hid hpopped
      have hprocesses := hid (by rw [hlog]; exact List.mem_append_left _ hpopped)
      rw [hworker] at hprocesses
      exact absurd (hprocesses ▸ hpopped) (not_popped_of_ticketed ht (by rw [hqueue]; simp))

theorem signalled_bystands {command : Command} {new : List Call} (hs : s.Signalled)
    (h : Bystands cfg s s' command new) : s'.Signalled := by
  have hlog : s'.world.log = s.world.log := by
    rw [h.world, World.log_bystander cfg _ h.bystander]
  have hkeys : s'.world.redis.cancelKeys = s.world.redis.cancelKeys := by
    rw [h.world, (World.redis_bystander cfg _ h.bystander).2]
  refine ⟨?_, ?_, ?_, ?_⟩
  · intro job hjob
    rw [hlog]
    rcases h.worker with hw | hw <;> rw [hw] at hjob
    · exact hs.popped job hjob
    · cases hjob
  · intro id hid
    rw [World.Keyed, hkeys, hlog]
    refine hs.key id fun hpopped => ?_
    have hprocesses := hid (by rw [hlog]; exact hpopped)
    rcases h.worker with hw | hw <;> rw [hw] at hprocesses
    · exact hprocesses
    · exact hprocesses.elim
  · intro c hc id hmarks
    rw [hlog]
    rw [h.calls] at hc
    rcases List.mem_append.mp hc with hc | hc
    · exact hs.marking c hc id hmarks
    · rcases h.starts c hc with ⟨r, rfl⟩ | ⟨x, rfl, _⟩
      · cases r <;> exact hmarks.elim
      · exact hmarks.elim
  · rw [hlog]
    exact hs.acknowledged

theorem signalled_step {e : Event} (hs : s.Signalled) (ht : s.Ticketed)
    (h : s.step cfg e = some s') : s'.Signalled := by
  rcases step_cases h with ⟨i, r, before, c, later, rfl, hcalls, hs'⟩ | ⟨r, rfl, hs'⟩ |
    ⟨command, new, hb⟩
  · exact signalled_call hs hcalls hs'
  · exact signalled_worker hs ht hs'
  · exact signalled_bystands hs hb

theorem signalled_initial : initial.Signalled where
  popped := nofun
  key _ _ := rfl
  marking := by simp [initial, Processes.initial]
  acknowledged := by simp [initial, World.empty]

end State
end System
end Code2Cloud
