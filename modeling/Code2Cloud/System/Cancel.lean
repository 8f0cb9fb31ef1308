import Code2Cloud.System.Signals

/-!
# Acknowledged cancellations

A deployment that was cancelled while its job waited in the queue is not deployed, as
long as the worker asks for the signal while it lives.
-/

namespace Code2Cloud
namespace System

open Api Worker

variable {cfg : Config} {w : World} {s s' : State} {id : DeploymentId}

/-! ## Where a build stands -/

def Pc.position : Pc → Nat
  | checkQueued => 0
  | projectPending => 1
  | markBuilding => 2
  | checkSettings => 3
  | getSettings => 4
  | getToken => 5
  | checkClone => 6
  | clone => 7
  | checkBuild => 8
  | build => 9
  | recordImage => 10
  | checkDeploy => 11
  | markDeploying => 12
  | deploy _ => 13
  | markReady => 14
  | projectActive => 15
  | stopPrevious => 16
  | supersede => 17
  | startStreaming => 18

/-- The last cancel check is still to come. -/
def Pc.BeforeDeploy (pc : Pc) : Prop := pc.position ≤ Pc.checkDeploy.position

instance (pc : Pc) : Decidable pc.BeforeDeploy := inferInstanceAs (Decidable (_ ≤ _))

namespace BuildWorker

/-- A step of a build before the last cancel check does not fail, and the last check finds
the signal: it is made no later than 300 seconds after the signal was last set, and it is
answered. -/
def Proceeds (w : World) (r : Reply) (b : Build) : Pc → Prop
  | .markBuilding =>
    r.outcome = .ok ∧ (w.db.findDeployment b.job.deploymentId).isSome = true ∧
      8 ≤ (utf8 b.job.commitHash).length
  | .getToken | .build => r.outcome = .ok
  | .clone =>
    r.outcome = .ok ∧
      8 ≤ (utf8 (if b.job.commitHash.isEmpty then r.head else b.job.commitHash)).length
  | .checkDeploy =>
    r.outcome = .ok ∧
      ∃ time, lastPublished b.job.deploymentId w.log = some time ∧ w.now ≤ time + 300 * 1000
  | _ => True

/-- A turn of a build that comes closer to the last check, or ends at a check. -/
def Approaches (b : Build) (pc : Pc) (t : Turn (Option BuildWorker)) : Prop :=
  (∃ b' pc', t.next = some (processing b' pc') ∧ b'.job = b.job ∧ pc.position < pc'.position ∧
      pc'.BeforeDeploy ∧ t.entries = []) ∨
    (t.next = some (cancelling b.job .markCanceled) ∧ t.command = .skip ∧
      t.entries = [.finished b.job.deploymentId .cancelled])

theorem approaches_check (w : World) (r : Reply) (b : Build) {pc next : Pc}
    (hpc : pc.position < next.position) (hnext : next.BeforeDeploy) :
    Approaches b pc (check w r b next) := by
  unfold check
  split
  · exact Or.inr ⟨rfl, rfl, rfl⟩
  · exact Or.inl ⟨b, next, rfl, rfl, hpc, hnext, rfl⟩

theorem approaches_request (w : World) (o : Outcome) (c : InternalRequest) (b : Build)
    {pc next : Pc} (hpc : pc.position < next.position) (hnext : next.BeforeDeploy) :
    Approaches b pc
      (request w o c (some (processing b next)) (some (processing b next))) := by
  have hturn : (request w o c (some (processing b next)) (some (processing b next))).next =
      some (processing b next) := by
    rcases next_issue w o c.command (some (processing b next)) (some (processing b next)) [] []
      with h | h <;> exact h
  exact Or.inl ⟨b, next, hturn, rfl, hpc, hnext, entries_issue w o c.command _ _⟩

/-- Before the last check a build that does not fail comes closer to it, and the last
check finds a signal that is alive. -/
theorem approaches_process (cfg : Config) {r : Reply} {b : Build} {pc : Pc}
    (hkey : w.Keyed b.job.deploymentId) (hpc : pc.BeforeDeploy) (h : Proceeds w r b pc) :
    Approaches b pc (processStep cfg w r b pc) := by
  cases pc with
  | checkQueued | checkSettings | checkClone | checkBuild =>
    exact approaches_check w r b (by decide) (by decide)
  | projectPending | recordImage =>
    exact approaches_request w r.outcome _ b (by decide) (by decide)
  | markBuilding =>
    obtain ⟨hok, hrow, hcommit⟩ := h
    have hadmits : w.admits (InternalRequest.writeStatus b.job.deploymentId
        (statusUpdate .building)).command = true := hrow
    refine Or.inl ⟨b, .checkSettings, ?_, rfl, by decide, by decide, ?_⟩
    · simp only [processStep, request, issue, hadmits, hok, if_true]
      rw [if_neg (Nat.not_lt.mpr hcommit)]
    · simp only [processStep, request, issue, hadmits, hok, if_true]
  | getSettings =>
    exact Or.inl ⟨_, .getToken, rfl, rfl, by decide, by decide, rfl⟩
  | getToken =>
    have hok : r.outcome = .ok := h
    rw [processStep, query, if_pos hok]
    exact Or.inl ⟨b, .checkClone, rfl, rfl, by decide, by decide, rfl⟩
  | clone =>
    obtain ⟨hok, hcommit⟩ := h
    simp only [processStep, query, if_pos hok]
    rw [if_neg (Nat.not_lt.mpr hcommit)]
    exact Or.inl ⟨_, .checkBuild, rfl, rfl, by decide, by decide, rfl⟩
  | build =>
    have hok : r.outcome = .ok := h
    simp only [processStep, query, if_pos hok]
    exact Or.inl ⟨_, .recordImage, rfl, rfl, by decide, by decide, rfl⟩
  | checkDeploy =>
    obtain ⟨hok, time, htime, hnow⟩ := h
    have hcancelled : w.redis.isCancelled w.now b.job.deploymentId = true := by
      rw [Redis.isCancelled, hkey, htime]
      exact decide_eq_true hnow
    refine Or.inr ?_
    rw [processStep, check, if_pos ⟨hok, hcancelled⟩]
    exact ⟨rfl, rfl, rfl⟩
  | deploy stage => exact absurd hpc (by simp [Pc.BeforeDeploy, Pc.position])
  | _ => exact absurd hpc (by decide)

/-- What the worker reports is about the deployment it processes, and it reports the call of
`k8s.Deploy` after the last check. -/
def Reports (build : Build) (pc : Pc) (x : Entry) : Prop :=
  (x = .deployCalled build.job.deploymentId ∧ pc = .markDeploying) ∨
    (x = .deployed build.job.deploymentId build.job.projectName ∧ ∃ stage, pc = .deploy stage) ∨
    ∃ result, x = .finished build.job.deploymentId result

theorem reports_issue {σ : Type} {build : Build} {pc : Pc} {x : Entry} {o : Outcome}
    {c : Command} {ok err : σ} {entries errors : List Entry}
    (h : x ∈ (issue w o c ok err entries errors).entries)
    (hentries : x ∈ entries → Reports build pc x) (herrors : x ∈ errors → Reports build pc x) :
    Reports build pc x := by
  rcases issue_cases w o c ok err entries errors with ⟨_, ht⟩ | ⟨_, ht⟩ | ht <;> rw [ht] at h
  · exact hentries h
  · exact herrors h
  · exact herrors h

theorem reports_finished {build : Build} {pc : Pc} {x : Entry} {result : JobResult}
    (h : x ∈ [.finished build.job.deploymentId result]) : Reports build pc x :=
  Or.inr (Or.inr ⟨result, List.mem_singleton.mp h⟩)

theorem reports_query {build : Build} {pc : Pc} {x : Entry} {o : Outcome}
    {ok err : Option BuildWorker} {result : JobResult}
    (h : x ∈ (query o (.pure ok) (.pure err [.finished build.job.deploymentId result])).entries) :
    Reports build pc x := by
  unfold query at h
  split at h
  · exact absurd h List.not_mem_nil
  · exact reports_finished h

theorem reports_process {r : Reply} {build : Build} {pc : Pc} {x : Entry}
    (h : x ∈ (processStep cfg w r build pc).entries) : Reports build pc x := by
  cases pc with
  | checkQueued | checkSettings | checkClone | checkBuild | checkDeploy =>
    rw [processStep, check] at h
    split at h
    · exact reports_finished h
    · exact absurd h List.not_mem_nil
  | projectPending | recordImage | projectActive =>
    exact reports_issue h (fun h => absurd h List.not_mem_nil) (fun h => absurd h List.not_mem_nil)
  | markBuilding | markReady =>
    exact reports_issue h (fun h => absurd h List.not_mem_nil) reports_finished
  | markDeploying =>
    exact reports_issue h (fun h => Or.inl ⟨List.mem_singleton.mp h, rfl⟩) reports_finished
  | getSettings => exact absurd h List.not_mem_nil
  | getToken | clone | build => exact reports_query h
  | deploy stage =>
    rw [processStep] at h
    split at h
    · exact reports_issue h (fun h => absurd h List.not_mem_nil) reports_finished
    · exact Or.inr (Or.inl ⟨List.mem_singleton.mp h, stage, rfl⟩)
  | stopPrevious =>
    rw [processStep] at h
    split at h <;> exact absurd h List.not_mem_nil
  | supersede =>
    rw [processStep] at h
    split at h
    · exact reports_issue h (fun h => absurd h List.not_mem_nil)
        (fun h => absurd h List.not_mem_nil)
    · exact absurd h List.not_mem_nil
  | startStreaming => exact reports_finished h

theorem reports_step {b : BuildWorker} {r : Reply} {x : Entry}
    (h : x ∈ (b.step cfg w r).entries) :
    ∃ build pc, b = processing build pc ∧ Reports build pc x := by
  cases b with
  | processing build pc => exact ⟨build, pc, rfl, reports_process h⟩
  | idle =>
    rw [step] at h
    split at h
    · exact absurd h List.not_mem_nil
    · simp at h
  | cancelling job pc =>
    cases pc with
    | cleanup left => cases left <;> simp [step, cancelStep] at h
    | _ => simp [step, cancelStep, request] at h
  | failing job pc => cases pc <;> simp [step, failStep, request] at h

theorem exists_of_continues {b : BuildWorker} {next : Option BuildWorker} {b' : Build} {pc' : Pc}
    (h : b.Continues next) (hnext : next = some (processing b' pc')) :
    ∃ b0 pc, b = processing b0 pc ∧ b'.job.deploymentId = b0.job.deploymentId := by
  rcases h _ hnext with hidle | ⟨_, hprocesses⟩
  · cases hidle
  · have hb := hprocesses b'.job.deploymentId rfl
    cases b with
    | processing b0 pc => exact ⟨b0, pc, rfl, hb.symm⟩
    | _ => exact hb.elim

end BuildWorker

/-! ## Cancelled in the queue -/

/-- The condition on a step: a build of a deployment that was cancelled before its job was
popped proceeds to a check that finds the signal. -/
def Heeds (s : State) (e : Event) : Prop :=
  ∀ r b pc, e = .worker r → s.procs.worker = .processing b pc →
    Log.Before s.world.log (.acknowledged b.job.deploymentId) (.popped b.job.deploymentId) →
      BuildWorker.Proceeds s.world r b pc

/-- What may follow in the log once a cancelled job was popped. -/
def Entry.Spares (id : DeploymentId) (x : Entry) : Prop :=
  x ≠ .deployCalled id ∧ ∀ result, x = .finished id result → result = .cancelled

namespace State

structure Heeded (s : State) : Prop where
  spared : ∀ id, Log.Follows s.world.log (.acknowledged id) (.popped id) (Entry.Spares id)
  before : ∀ b pc, s.procs.worker = .processing b pc →
    Log.Before s.world.log (.acknowledged b.job.deploymentId) (.popped b.job.deploymentId) →
      pc.BeforeDeploy

theorem spares_of_writer {x : Entry} (h : x.writer ≠ .worker) (id : DeploymentId) :
    x.Spares id := by
  constructor
  · rintro rfl
    exact h rfl
  · rintro result rfl
    exact absurd rfl h

/-- A build whose deployment was cancelled before its job was popped comes closer to the last
check, or ends at a check. -/
theorem approaches (cfg : Config) (hs : s.Heeded) (hsig : s.Signalled) {r : Reply}
    (he : Heeds s (.worker r))
    {b : Build} {pc : Pc} (hw : s.procs.worker = .processing b pc)
    (hack : Log.Before s.world.log (.acknowledged b.job.deploymentId)
      (.popped b.job.deploymentId)) :
    BuildWorker.Approaches b pc (s.procs.worker.step cfg s.world r) := by
  have hkey : s.world.Keyed b.job.deploymentId := by
    refine hsig.key _ fun _ => ?_
    rw [hw]
    exact rfl
  rw [hw, BuildWorker.step]
  exact BuildWorker.approaches_process cfg hkey (hs.before b pc hw hack) (he r b pc rfl hw hack)

theorem heeded_call {c : Call} {r : Reply} (hs : s.Heeded)
    (hworld : s'.world = (s.world.exec cfg (c.step cfg s.world r).command).record
      (c.step cfg s.world r).entries)
    (hworker : s'.procs.worker = s.procs.worker) : s'.Heeded := by
  have hf := foreground_call cfg s.world r c
  have hpop : (c.step cfg s.world r).command ≠ .popBuildJob := by
    intro hc
    have hcommand := hf.command
    rw [hc] at hcommand
    cases hcommand
  have hnew (id : DeploymentId) := World.popped_turn s.world id hpop hf.entries nofun
  constructor
  · intro id
    rw [hworld, World.log_turn]
    refine (hs.spared id).append (hnew id) fun _ x hx => spares_of_writer ?_ id
    rcases List.mem_append.mp hx with hx | hx
    · rw [writer_of_mem (World.writtenBy_recorded _ _) hx]
      exact nofun
    · rw [writer_of_mem hf.entries hx]
      exact nofun
  · intro b pc hw hack
    rw [hworld, World.log_turn, Log.before_append_iff (hnew _)] at hack
    exact hs.before b pc (hworker ▸ hw) hack

theorem heeded_pop {r : Reply} (hs : s.Heeded)
    (hcommand : (s.procs.worker.step cfg s.world r).command = .popBuildJob)
    (hworld : s'.world = (s.world.exec cfg (s.procs.worker.step cfg s.world r).command).record
      (s.procs.worker.step cfg s.world r).entries)
    (hworker : s'.procs.worker = ((s.procs.worker.step cfg s.world r).next).getD .idle) :
    s'.Heeded := by
  have hidle := BuildWorker.pops hcommand
  have hentries : (s.procs.worker.step cfg s.world r).entries = [] := by
    rw [List.eq_nil_iff_forall_not_mem]
    intro x hx
    obtain ⟨b, pc, hb, _⟩ := BuildWorker.reports_step hx
    rw [hidle] at hb
    cases hb
  have hlog : s'.world.log = s.world.log ∨ ∃ id, s'.world.log = s.world.log ++ [.popped id] := by
    rw [hworld, World.log_turn, hentries, hcommand, World.recorded]
    split
    · exact Or.inl (by simp)
    · exact Or.inr ⟨_, rfl⟩
  constructor
  · intro id
    rcases hlog with hlog | ⟨popped, hlog⟩ <;> rw [hlog]
    · exact hs.spared id
    · exact (hs.spared id).concat fun _ => spares_of_writer (x := .popped popped) (by rintro ⟨⟩) id
  · intro b pc hw _
    rw [hworker] at hw
    rcases s.procs.worker.next_step cfg s.world r with hcontinues | ⟨job, _, hnext, _⟩
    · cases hnext : (s.procs.worker.step cfg s.world r).next with
      | none =>
        rw [hnext] at hw
        cases hw
      | some b' =>
        rw [hnext, Option.getD_some] at hw
        subst hw
        rcases hcontinues _ hnext with hb | ⟨hb, _⟩
        · cases hb
        · rw [hidle] at hb
          cases hb
    · rw [hnext, Option.getD_some] at hw
      cases hw
      decide

theorem heeded_worker {r : Reply} (hs : s.Heeded) (hsig : s.Signalled)
    (he : Heeds s (.worker r))
    (hcommand : (s.procs.worker.step cfg s.world r).command ≠ .popBuildJob)
    (hworld : s'.world = (s.world.exec cfg (s.procs.worker.step cfg s.world r).command).record
      (s.procs.worker.step cfg s.world r).entries)
    (hworker : s'.procs.worker = ((s.procs.worker.step cfg s.world r).next).getD .idle) :
    s'.Heeded := by
  have hb := background_worker cfg s.world r s.procs.worker
  have hnew (id : DeploymentId) :=
    World.popped_turn s.world id hcommand hb.entries nofun
  constructor
  · intro id
    rw [hworld, World.log_turn]
    refine (hs.spared id).append (hnew id) fun hack x hx => ?_
    rcases List.mem_append.mp hx with hx | hx
    · refine spares_of_writer ?_ id
      rw [writer_of_mem (World.writtenBy_recorded _ _) hx]
      exact nofun
    · obtain ⟨b, pc, hw, hreports⟩ := BuildWorker.reports_step hx
      constructor
      · rintro rfl
        rcases hreports with ⟨heq, rfl⟩ | ⟨heq, _⟩ | ⟨result, heq⟩
        · cases heq
          exact absurd (hs.before b _ hw hack) (by decide)
        · cases heq
        · cases heq
      · rintro result rfl
        rcases hreports with ⟨heq, _⟩ | ⟨heq, _⟩ | ⟨_, heq⟩
        · cases heq
        · cases heq
        · cases heq
          rcases approaches cfg hs hsig he hw hack with
            ⟨_, _, _, _, _, _, hentries⟩ | ⟨_, _, hentries⟩ <;> rw [hentries] at hx
          · exact absurd hx List.not_mem_nil
          · rw [List.mem_singleton] at hx
            cases hx
            rfl
  · intro b' pc' hw' hack
    rw [hworld, World.log_turn, Log.before_append_iff (hnew _)] at hack
    rw [hworker] at hw'
    cases hnext : (s.procs.worker.step cfg s.world r).next with
    | none =>
      rw [hnext] at hw'
      cases hw'
    | some b'' =>
      rw [hnext, Option.getD_some] at hw'
      subst hw'
      rcases s.procs.worker.next_step cfg s.world r with hcontinues | ⟨_, _, _, hpop, _⟩
      · obtain ⟨b, pc, hw, hid⟩ := BuildWorker.exists_of_continues hcontinues hnext
        rw [hid] at hack
        rcases approaches cfg hs hsig he hw hack with
          ⟨_, _, heq, _, _, hbefore, _⟩ | ⟨heq, _⟩ <;> rw [hnext] at heq
        · cases heq
          exact hbefore
        · cases heq
      · exact absurd hpop hcommand

theorem heeded_step {e : Event} (hs : s.Heeded) (hsig : s.Signalled) (he : Heeds s e)
    (h : s.step cfg e = some s') : s'.Heeded := by
  rcases step_cases h with ⟨i, r, before, c, later, rfl, hcalls, hs'⟩ | ⟨r, rfl, hs'⟩ |
    ⟨command, new, hb⟩
  · exact heeded_call hs (congrArg State.world hs') (congrArg (·.procs.worker) hs')
  · have hworker : s'.procs.worker = ((s.procs.worker.step cfg s.world r).next).getD .idle := by
      rw [hs']
      exact s.procs.setWorker_worker _
    by_cases hcommand : (s.procs.worker.step cfg s.world r).command = .popBuildJob
    · exact heeded_pop hs hcommand (congrArg State.world hs') hworker
    · exact heeded_worker hs hsig he hcommand (congrArg State.world hs') hworker
  · have hlog : s'.world.log = s.world.log := by
      rw [hb.world, World.log_bystander cfg _ hb.bystander]
    constructor
    · rw [hlog]
      exact hs.spared
    · intro b pc hw hack
      rw [hlog] at hack
      rcases hb.worker with hworker | hworker <;> rw [hworker] at hw
      · exact hs.before b pc hw hack
      · cases hw

/-- What every run keeps, and a run that heeds its cancellations. -/
theorem heeded_of_reaches (h : Reaches (State.step cfg) Heeds initial s) :
    s.Ticketed ∧ s.Signalled ∧ s.Heeded := by
  refine h.invariant (fun s => s.Ticketed ∧ s.Signalled ∧ s.Heeded) ?_ ?_
  · refine ⟨fun _ => ⟨Nat.zero_le _, fun _ => rfl⟩, signalled_initial, ?_⟩
    constructor
    · intro id earlier later hlog
      exact absurd hlog.symm (by simp [initial, World.empty])
    · rintro b pc ⟨⟩
  · rintro s e s' ⟨ht, hsig, hs⟩ he hstep
    exact ⟨ticketed_step ht hstep, signalled_step hsig ht hstep, heeded_step hs hsig he hstep⟩

end State

/-- In a run whose steps all heed the cancellations: once a deployment's cancellation was
acknowledged and its job was popped afterwards, `k8s.Deploy` is not called for it and
`processJob` returns for it only as cancelled; and as long as it has not returned, each
step of the worker brings it closer to the last cancel check, at which it returns. -/
theorem acknowledged_cancel_wins (h : Reaches (State.step cfg) Heeds State.initial s) :
    (∀ id earlier later, s.world.log = earlier ++ .popped id :: later →
      .acknowledged id ∈ earlier →
        .deployCalled id ∉ later ∧ ∀ result, .finished id result ∈ later → result = .cancelled) ∧
    ∀ b pc r s', s.procs.worker = .processing b pc →
      Log.Before s.world.log (.acknowledged b.job.deploymentId) (.popped b.job.deploymentId) →
      Heeds s (.worker r) → s.step cfg (.worker r) = some s' →
        (∃ b' pc', s'.procs.worker = .processing b' pc' ∧ b'.job = b.job ∧
          pc.position < pc'.position ∧ pc'.position ≤ Pc.checkDeploy.position) ∨
        (s'.procs.worker = .cancelling b.job .markCanceled ∧
          s'.world.log = s.world.log ++ [.finished b.job.deploymentId .cancelled]) := by
  obtain ⟨_, hsig, hs⟩ := State.heeded_of_reaches h
  constructor
  · intro id earlier later hlog hack
    have hspares := hs.spared id earlier later hlog hack
    exact ⟨fun hmem => (hspares _ hmem).1 rfl, fun result hmem => (hspares _ hmem).2 result rfl⟩
  · intro b pc r s' hw hack he hstep
    have hs' := State.step_worker hstep
    have hworker : s'.procs.worker = ((s.procs.worker.step cfg s.world r).next).getD .idle := by
      rw [hs']
      exact s.procs.setWorker_worker _
    rcases State.approaches cfg hs hsig he hw hack with
      ⟨b', pc', hnext, hjob, hpos, hbefore, _⟩ | ⟨hnext, hcommand, hentries⟩ <;>
      rw [hnext, Option.getD_some] at hworker
    · exact Or.inl ⟨b', pc', hworker, hjob, hpos, hbefore⟩
    · refine Or.inr ⟨hworker, ?_⟩
      rw [hs', World.log_turn, hcommand, hentries]
      rfl

/-- A cancelled job that is popped in time is at its first check, where it returns. -/
theorem acknowledged_cancel_wins_shop :
    ∃ s b, Reaches (State.step Config.clear) Heeds State.initial s ∧
      s.procs.worker = .processing b .checkQueued ∧ b.job.deploymentId = 2 ∧
      s.world.log = [.published 2 0, .acknowledged 2, .popped 2] ∧
      ∀ r s', Heeds s (.worker r) → s.step Config.clear (.worker r) = some s' →
        (∃ b' pc', s'.procs.worker = .processing b' pc' ∧ b'.job = b.job ∧
          0 < pc'.position ∧ pc'.position ≤ Pc.checkDeploy.position) ∨
        (s'.procs.worker = .cancelling b.job .markCanceled ∧
          s'.world.log = s.world.log ++ [.finished b.job.deploymentId .cancelled]) := by
  obtain ⟨s, hs, hend⟩ := Reaches.exists_of_runEvents (State.step Config.clear)
    (fun s _ => s.procs.worker = .idle) State.initial
    (shopCreated ++ shopRequest (.cancel 1 2) 3 ++ shopWorker 1)
    (fun s => (s.procs.worker.processingAt .checkQueued).any (·.deploymentId == 2) &&
      s.world.log == [.published 2 0, .acknowledged 2, .popped 2])
    (by decide) (by decide)
  have hheeds : Reaches (State.step Config.clear) Heeds State.initial s := by
    refine hs.mono fun s e hidle r b pc _ hw => ?_
    rw [hidle] at hw
    cases hw
  rw [Bool.and_eq_true] at hend
  obtain ⟨b, hw, hid⟩ := BuildWorker.exists_of_processingAt hend.1
  have hlog := eq_of_beq hend.2
  have hack : Log.Before s.world.log (.acknowledged b.job.deploymentId)
      (.popped b.job.deploymentId) := by
    rw [hid, hlog]
    exact ⟨[.published 2 0, .acknowledged 2], [], rfl, by simp⟩
  refine ⟨s, b, hheeds, hw, hid, hlog, fun r s' he hstep => ?_⟩
  exact (acknowledged_cancel_wins hheeds).2 b .checkQueued r s' hw hack he hstep

/-- The signal expires while the job waits: a cancelled deployment is deployed. -/
theorem not_acknowledged_cancel_wins :
    ¬∀ (cfg : Config) (s : State),
      Reaches (State.step cfg) (fun _ _ => True) State.initial s →
        ∀ id earlier later, s.world.log = earlier ++ .popped id :: later →
          .acknowledged id ∈ earlier →
            .deployCalled id ∉ later ∧ ∀ result, .finished id result ∈ later →
              result = .cancelled := by
  intro h
  obtain ⟨s, hs, hlog⟩ := Reaches.exists_of_runEvents (State.step Config.clear) _ State.initial
    (shopCreated ++ shopRequest (.cancel 1 2) 3 ++ .tick 300001 :: shopWorker 14)
    (fun s => s.world.log == [.published 2 0, .acknowledged 2, .popped 2, .deployCalled 2])
    (by decide) (runsUnder_true _ _ _)
  have hno := h Config.clear s hs 2 [.published 2 0, .acknowledged 2] [.deployCalled 2]
    (eq_of_beq hlog) (by decide)
  exact absurd hno.1 (by decide)

end System
end Code2Cloud
