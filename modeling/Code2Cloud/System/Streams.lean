import Code2Cloud.System.Carried
import Code2Cloud.System.Commands
import Code2Cloud.System.Expiry
import Code2Cloud.System.Rollouts
import Code2Cloud.System.Sequence

/-!
# Runtime log streams

Which deployments have a live stream, and who stops it before the deployment is retired.
-/

namespace Code2Cloud
namespace System

open Api Worker

variable {cfg : Config} {w : World} {s s' : State} {e : Event} {id : DeploymentId}

def DeploymentStatus.retired : DeploymentStatus → Bool
  | .expired | .superseded | .canceled => true
  | _ => false

namespace World

def streaming (w : World) (id : DeploymentId) : Bool := w.streams id == some true

def isRetired (w : World) (id : DeploymentId) : Bool :=
  w.db.deployments.any fun d => d.id == id && DeploymentStatus.retired d.status

theorem streaming_iff : w.streaming id = true ↔ w.streams id = some true := beq_iff_eq

theorem isRetired_iff : w.isRetired id = true ↔
    ∃ d ∈ w.db.deployments, d.id = id ∧ DeploymentStatus.retired d.status = true := by
  simp [isRetired]

theorem streaming_exec {cfg : Config} {c : Command} (h : (w.exec cfg c).streaming id = true) :
    w.streaming id = true ∧ c ≠ .stopStreaming id ∨ c = .startStreaming id true := by
  rw [streaming_iff] at h ⊢
  cases c with
  | startStreaming id' live =>
    by_cases hid : id = id'
    · subst hid
      have hlive : (if id = id then some live else w.streams id) = some true := h
      rw [if_pos rfl] at hlive
      cases hlive
      exact Or.inr rfl
    · have hold : (if id = id' then some live else w.streams id) = some true := h
      rw [if_neg hid] at hold
      exact Or.inl ⟨hold, by rintro ⟨⟩⟩
  | stopStreaming id' =>
    have hold : (if id = id' then none else w.streams id) = some true := h
    split at hold
    · cases hold
    · rename_i hne
      refine Or.inl ⟨hold, ?_⟩
      rintro ⟨⟩
      exact hne rfl
  | stopAll => cases h
  | popBuildJob =>
    refine Or.inl ⟨?_, by rintro ⟨⟩⟩
    rw [exec] at h
    split at h <;> exact h
  | popProjectCleanup =>
    refine Or.inl ⟨?_, by rintro ⟨⟩⟩
    rw [exec] at h
    split at h <;> exact h
  | updateIngressHosts name hosts =>
    refine Or.inl ⟨?_, by rintro ⟨⟩⟩
    rw [exec] at h
    split at h <;> exact h
  | _ => exact Or.inl ⟨h, by rintro ⟨⟩⟩

end World

/-! ## Writes that retire a deployment -/

/-- A worker retires the deployment of its job, and the previous one. -/
theorem BuildWorker.retires {b : BuildWorker} {st : DeploymentStatus}
    (h : b.writes = some (id, st)) (hst : DeploymentStatus.retired st = true) :
    (∃ job, b.job = some job ∧ job.deploymentId = id) ∨
      ∃ build, b = processing build .supersede ∧ build.job.previousDeploymentId = some id := by
  cases b with
  | idle => cases h
  | processing b pc =>
    cases pc with
    | supersede =>
      obtain ⟨previous, hprevious, hx⟩ := Option.map_eq_some_iff.mp h
      cases hx
      exact Or.inr ⟨b, rfl, hprevious⟩
    | markBuilding | recordImage | markDeploying | markReady =>
      cases h
      cases hst
    | _ => cases h
  | cancelling job pc =>
    refine Or.inl ⟨job, rfl, ?_⟩
    cases pc <;> cases h
    all_goals rfl
  | failing job pc =>
    cases pc <;> cases h
    cases hst

/-- A worker starts the stream of the deployment it has built. -/
theorem BuildWorker.starts_step {b : BuildWorker} {r : Reply}
    (h : (b.step cfg w r).command = .startStreaming id true) :
    ∃ build, b = processing build .startStreaming ∧ r.outcome = .ok ∧
      build.job.deploymentId = id := by
  have hcommand : b.command cfg r = .startStreaming id true := by
    rcases command_worker cfg w r b with heq | hskip
    · exact heq.symm.trans h
    · cases hskip.symm.trans h
  cases b with
  | idle => cases hcommand
  | processing b pc =>
    cases pc with
    | startStreaming =>
      rw [command, Command.startStreaming.injEq] at hcommand
      exact ⟨b, rfl, beq_iff_eq.mp hcommand.2, hcommand.1⟩
    | deploy stage =>
      rw [command] at hcommand
      split at hcommand <;> cases hcommand
    | stopPrevious | supersede =>
      rw [command] at hcommand
      split at hcommand <;> cases hcommand
    | _ => cases hcommand
  | cancelling job pc =>
    cases pc with
    | cleanup left => cases left <;> cases hcommand
    | _ => cases hcommand
  | failing job pc => cases pc <;> cases hcommand

theorem Pc.eq_stopPrevious {pc : Pc} (h : supersede ∈ pc.following) : pc = stopPrevious := by
  cases pc with
  | stopPrevious => rfl
  | deploy stage => cases stage <;> exact absurd h (by decide)
  | _ => exact absurd h (by decide)

namespace State

/-! ## Streams that a step starts -/

/-- `StartStreaming` at the end of the deployment's build. -/
def Starts (s : State) (e : Event) (id : DeploymentId) : Prop :=
  ∃ b r, e = .worker r ∧ s.procs.worker = .processing b .startStreaming ∧ r.outcome = .ok ∧
    b.job.deploymentId = id

theorem worker_of_starts (hstarts : s.Starts e id) (h : s.step cfg e = some s') :
    s'.procs.worker = .idle ∧ s'.world.db = s.world.db ∧ s'.procs.sweep = s.procs.sweep ∧
      s'.procs.calls = s.procs.calls := by
  obtain ⟨b, r, rfl, hworker, ho, rfl⟩ := hstarts
  rw [step_worker h, hworker]
  exact ⟨rfl, rfl, rfl, List.append_nil _⟩

theorem streaming_step (h : s.step cfg e = some s') (hid : s'.world.streaming id = true) :
    s.world.streaming id = true ∧ (∀ t, s.turn cfg e = some t → t.command ≠ .stopStreaming id) ∨
      s.Starts e id := by
  obtain ⟨t, ht, _, rfl⟩ := step_eq_some_iff.mp h
  have hexec : (s.world.exec cfg t.command).streaming id = true := hid
  rcases World.streaming_exec hexec with ⟨hold, hne⟩ | hstart
  · refine Or.inl ⟨hold, fun t' ht' => ?_⟩
    cases ht.symm.trans ht'
    exact hne
  · rcases command_turn ht with ⟨i, r, c, rfl, _, hcommand⟩ | ⟨r, rfl, hcommand⟩ | hbystander
    · have hforeground := (foreground_call cfg s.world r c).command
      rw [← hcommand, hstart] at hforeground
      cases hforeground
    · obtain ⟨b, hworker, ho, hb⟩ := BuildWorker.starts_step (hcommand.symm.trans hstart)
      exact Or.inr ⟨b, r, rfl, hworker, ho, hb⟩
    · rw [hstart] at hbystander
      cases hbystander

/-! ## Streams of deployments that are not retired -/

/-- A request that the worker gave up on will retire the deployment. -/
def retiring (s : State) (id : DeploymentId) : Bool :=
  s.procs.calls.any fun c => c.isLate && c.writes.any fun x =>
    x.1 == id && DeploymentStatus.retired x.2.status

/-- A stream starts only for a deployment that is not retired and that neither the sweep, once it
has stopped its stream, nor a request which the worker gave up on is about to retire; and no
request of the API retires a deployment with a live stream. -/
def Tends (s : State) : Event → Prop
  | .worker r => r.outcome = .ok → ∀ job ∈ s.procs.worker.processingAt .startStreaming,
    s.world.isRetired job.deploymentId = false ∧
      (∀ c ∈ s.procs.sweep.cleaning, c.1.id ≠ job.deploymentId) ∧
      s.retiring job.deploymentId = false
  | .call i _ => ∀ c ∈ s.procs.calls[i]?, c.isLate = false → ∀ x ∈ c.writes,
    DeploymentStatus.retired x.2.status = true → s.world.streaming x.1 = false
  | _ => True

instance (s : State) (e : Event) : Decidable (Tends s e) :=
  match e with
  | .worker _ => inferInstanceAs (Decidable (_ → ∀ job ∈ _, _ ∧ (∀ c ∈ _, _) ∧ _))
  | .call _ _ => inferInstanceAs (Decidable (∀ c ∈ _, _ → ∀ x ∈ _, _ → _))
  | .tick _ | .edit _ | .request _ | .sweep _ | .projectCleanup _ | .domainWorker _
  | .restart => isTrue trivial

/-- No stream is live that its deployment's retirement should have stopped. -/
structure Streamed (s : State) : Prop where
  retired : ∀ id, s.world.streaming id = true → s.world.isRetired id = false
  popped : ∀ id, s.world.streaming id = true → .popped id ∈ s.world.log
  job : ∀ job, s.procs.worker.job = some job →
    .popped job.deploymentId ∈ s.world.log ∧ s.world.streaming job.deploymentId = false
  supersede : ∀ b, s.procs.worker = .processing b .supersede →
    ∀ previous, b.job.previousDeploymentId = some previous → s.world.streaming previous = false
  sweep : ∀ d left, s.procs.sweep.cleaning = some (d, left) → s.world.streaming d.id = false
  late : ∀ id x, .late (.writeStatus id x) ∈ s.procs.calls →
    DeploymentStatus.retired x.status = true → s.world.streaming id = false

/-- A status write that retires a deployment finds its stream stopped. -/
theorem Streamed.not_streaming (hs : s.Streamed) (he : s.Tends e) {x : StatusWrite}
    (hw : s.MayWrite id x e) (hx : DeploymentStatus.retired x.status = true) :
    s.world.streaming id = false := by
  cases hw with
  | @call i r c hc hw =>
    by_cases hlate : c.isLate = true
    · cases c with
      | late y =>
        cases y with
        | writeStatus id' x' =>
          cases hw
          exact hs.late _ _ (List.mem_of_getElem? hc) hx
        | _ => cases hw
      | _ => cases hlate
    · exact he c hc (Bool.eq_false_of_not_eq_true hlate) _ hw hx
  | worker hw =>
    obtain ⟨job, hjob, rfl⟩ | ⟨b, hworker, hprevious⟩ := BuildWorker.retires hw hx
    · exact (hs.job job hjob).2
    · exact hs.supersede b hworker id hprevious
  | @sweep r d rest hsweep hd =>
    rw [← hd]
    exact hs.sweep d [] (by rw [hsweep]; rfl)

theorem not_starts_of_mayWrite {x : StatusWrite} (hw : s.MayWrite id x e) {id' : DeploymentId} :
    ¬s.Starts e id' := by
  rintro ⟨b, r, rfl, hworker, _⟩
  cases hw with
  | worker hw =>
    rw [hworker] at hw
    cases hw

theorem retiring_of_late {x : StatusWrite} (hx : .late (.writeStatus id x) ∈ s.procs.calls)
    (hretired : DeploymentStatus.retired x.status = true) : s.retiring id = true := by
  refine List.any_eq_true.mpr ⟨_, hx, ?_⟩
  simp [Call.isLate, Call.writes, hretired]

/-- What the condition says of a stream that starts. -/
theorem tends_of_starts (he : s.Tends e) (hstarts : s.Starts e id) :
    s.world.isRetired id = false ∧ (∀ c ∈ s.procs.sweep.cleaning, c.1.id ≠ id) ∧
      s.retiring id = false := by
  obtain ⟨b, r, rfl, hworker, ho, rfl⟩ := hstarts
  exact he ho b.job (by rw [hworker]; rfl)

theorem isRetired_step (hs : s.Streamed) (he : s.Tends e) (h : s.step cfg e = some s')
    (hid : s.world.streaming id = true) : s'.world.isRetired id = false := by
  rw [← Bool.not_eq_true]
  intro hretired
  obtain ⟨d', hd', hrow, hst⟩ := World.isRetired_iff.mp hretired
  have hold := hs.retired id hid
  rcases rows_step h hd' with ⟨hqueued, _⟩ | ⟨d, hd, rfl | ⟨t, x, ht, hc, rfl⟩⟩
  · rw [hqueued] at hst
    cases hst
  · rw [World.isRetired_iff.mpr ⟨_, hd, hrow, hst⟩] at hold
    cases hold
  · rw [StatusWrite.apply_id] at hrow
    rw [StatusWrite.apply_status] at hst
    have hstopped := hs.not_streaming he ((mayWrite_turn ht).command d.id x hc) hst
    rw [hrow, hid] at hstopped
    cases hstopped

/-- The worker stops the previous deployment's stream before it retires it. -/
theorem supersede_step (hs : s.Streamed) (h : s.step cfg e = some s') {b : Build}
    (hworker : s'.procs.worker = .processing b .supersede) {previous : DeploymentId}
    (hprevious : b.job.previousDeploymentId = some previous) :
    s'.world.streaming previous = false := by
  rw [← Bool.not_eq_true]
  intro hlive
  rcases streaming_step h hlive with ⟨hold, hrunning⟩ | hstarts
  · by_cases hstep : ∃ r, e = .worker r
    · obtain ⟨r, rfl⟩ := hstep
      rcases processing_step h hworker with ⟨b₀, pc₀, hb₀, hjob, hnext⟩ | ⟨_, _, _, _, hpc⟩
      · have hfollows := BuildWorker.follows_process cfg s.world r b₀ pc₀ _ _ hnext
        obtain rfl := Pc.eq_stopPrevious hfollows
        refine hrunning _ rfl ?_
        rw [hjob] at hprevious
        rw [Turn.command_map, hb₀, BuildWorker.step, BuildWorker.processStep, hprevious]
      · cases hpc
    · have hsame : s'.procs.worker = s.procs.worker := by
        refine worker_step h (fun r hr => hstep ⟨r, hr⟩) ?_
        rintro rfl
        rw [step_restart h] at hworker
        cases hworker
      rw [hs.supersede b (hsame ▸ hworker) previous hprevious] at hold
      cases hold
  · rw [(worker_of_starts hstarts h).1] at hworker
    cases hworker

/-- The sweep stops a deployment's stream before it cleans the deployment up and retires it. -/
theorem cleaning_step (hs : s.Streamed) (he : s.Tends e) (h : s.step cfg e = some s')
    {d : ExpiredDeployment} {left : List Kind}
    (hd : s'.procs.sweep.cleaning = some (d, left)) : s'.world.streaming d.id = false := by
  rw [← Bool.not_eq_true]
  intro hlive
  rcases streaming_step h hlive with ⟨hold, hrunning⟩ | hstarts
  · have hnone : ∀ left, s.procs.sweep.cleaning ≠ some (d, left) := by
      intro left hleft
      rw [hs.sweep d left hleft] at hold
      cases hold
    rcases loops_step h with hloops | ⟨_, hrestarted⟩
    · by_cases hsweep : ∃ r, e = .sweep r
      · obtain ⟨r, rfl⟩ := hsweep
        rw [step_sweep h] at hd
        rcases CleanupWorker.cleaning_next hd with ⟨rest, hc, _⟩ | ⟨rest, hc, _⟩ | ⟨kind, rest, hc⟩
        · refine hrunning _ rfl ?_
          rw [Turn.command_map, hc]
          rfl
        · exact hnone [] (by rw [hc]; rfl)
        · exact hnone (kind :: left) (by rw [hc]; rfl)
      · rw [hloops.sweep fun r hr => hsweep ⟨r, hr⟩] at hd
        exact hnone left hd
    · rw [hrestarted.sweep] at hd
      cases hd
  · rw [(worker_of_starts hstarts h).2.2.1] at hd
    exact (tends_of_starts he hstarts).2.1 (d, left) hd rfl

theorem Streamed.step (hs : s.Streamed) (ht : s.Ticketed) (he : s.Tends e)
    (h : s.step cfg e = some s') : s'.Streamed := by
  -- A deployment without a live stream gets none, unless its build ends.
  have hkeep : ∀ id, s.world.streaming id = false → ¬s.Starts e id →
      s'.world.streaming id = false := by
    intro id hid hstarts
    rw [← Bool.not_eq_true]
    intro hlive
    rcases streaming_step h hlive with ⟨hold, _⟩ | hstart
    · rw [hid] at hold
      cases hold
    · exact hstarts hstart
  refine ⟨fun id hid => ?_, fun id hid => ?_, fun job hjob => ?_,
    fun b hworker previous hprevious => supersede_step hs h hworker hprevious,
    fun d left hd => cleaning_step hs he h hd, fun id x hx hretired => ?_⟩
  · rcases streaming_step h hid with ⟨hold, _⟩ | hstarts
    · exact isRetired_step hs he h hold
    · rw [World.isRetired, (worker_of_starts hstarts h).2.1]
      exact (tends_of_starts he hstarts).1
  · rcases streaming_step h hid with ⟨hold, _⟩ | hstarts
    · exact mem_log_step h (hs.popped id hold)
    · obtain ⟨b, r, rfl, hworker, _, rfl⟩ := hstarts
      exact mem_log_step h (hs.job b.job (by rw [hworker]; rfl)).1
  · have hidle : ∀ id, ¬s.Starts e id := by
      intro id hstarts
      rw [(worker_of_starts hstarts h).1] at hjob
      cases hjob
    rcases job_step h hjob with hold | ⟨t, queues, hturn, hpop, hwait⟩
    · exact ⟨mem_log_step h (hs.job job hold).1, hkeep _ (hs.job job hold).2 (hidle _)⟩
    · refine ⟨?_, hkeep _ ?_ (hidle _)⟩
      · obtain ⟨t', hturn', _, rfl⟩ := step_eq_some_iff.mp h
        cases hturn.symm.trans hturn'
        show _ ∈ ((s.world.exec cfg t.command).record t.entries).log
        rw [World.log_turn, hpop, World.recorded, hwait]
        exact List.mem_append_right _ List.mem_cons_self
      · rw [← Bool.not_eq_true]
        intro hlive
        exact not_popped_of_ticketed ht (mem_of_waitForJob hwait) (hs.popped _ hlive)
  · have hnew : s.world.streaming id = false ∧ ¬s.Starts e id := by
      rcases late_step h hx with hold | ⟨t, hturn, hdeferred⟩
      · refine ⟨hs.late id x hold hretired, fun hstarts => ?_⟩
        have hnone := (tends_of_starts he hstarts).2.2
        rw [retiring_of_late hold hretired] at hnone
        cases hnone
      · have hw := (mayWrite_turn hturn).deferred id x hdeferred
        exact ⟨hs.not_streaming he hw hretired, not_starts_of_mayWrite hw⟩
    exact hkeep id hnew.1 hnew.2

theorem streamed_initial : initial.Streamed where
  retired _ h := nomatch h
  popped _ h := nomatch h
  job _ h := nomatch h
  supersede _ h := nomatch h
  sweep _ _ h := nomatch h
  late _ _ h := absurd h List.not_mem_nil

/-- A live stream is that of a deployment that is not retired, in every run in which streams start
only for deployments that are not about to be retired. -/
theorem streams_stopped (h : Reaches (State.step cfg) Tends initial s) :
    ∀ id, s.world.streams id = some true → ∀ d ∈ s.world.db.deployments, d.id = id →
      d.status ≠ .expired ∧ d.status ≠ .superseded ∧ d.status ≠ .canceled := by
  have hstreamed : s.Ticketed ∧ s.Streamed := by
    refine h.invariant (fun s => s.Ticketed ∧ s.Streamed)
      ⟨fun _ => ⟨Nat.zero_le _, fun _ => rfl⟩, streamed_initial⟩ ?_
    rintro s e s' ⟨ht, hs⟩ he hstep
    exact ⟨ticketed_step ht hstep, hs.step ht he hstep⟩
  intro id hid d hd hrow
  have hretired := hstreamed.2.retired id (World.streaming_iff.mpr hid)
  refine ⟨fun hst => ?_, fun hst => ?_, fun hst => ?_⟩
  all_goals
    rw [World.isRetired_iff.mpr ⟨d, hd, hrow, by rw [hst]; rfl⟩] at hretired
    cases hretired

/-- The worker, the sweep and the cleanup of removed projects have finished. -/
def atRest (s : State) : Bool :=
  match s.procs.worker, s.procs.sweep, s.procs.projectCleanup with
  | .idle, .idle, .idle => true
  | _, _, _ => false

/-! ## A shop that expires while its stream starts -/

/-- The shop's hour is over when its build has come to `StartStreaming`; the sweep takes so many
steps before that call, and so many after it. -/
def shopStreamed (before after : Nat) : List Event :=
  shopCreated ++ shopWorker 22 ++
    [.edit (.systemConfigs [{ userId := 1, globalTTLMinutes := 60 }]), .tick 3600001] ++
    List.replicate before (.sweep shopReply) ++ shopWorker 1 ++
    List.replicate after (.sweep shopReply)

theorem streams_stopped_shop :
    ∃ s, Reaches (State.step Config.clear) Tends initial s ∧ s.atRest = true ∧
      (∃ d ∈ s.world.db.deployments, d.id = 2 ∧ d.status = .expired) ∧
      s.world.streams 2 ≠ some true := by
  obtain ⟨s, hs, hend⟩ := Reaches.exists_of_runEvents (State.step Config.clear) Tends initial
    (shopStreamed 3 9)
    (fun s => s.atRest &&
      s.world.db.deployments.any fun d => decide (d.id = 2 ∧ d.status = .expired))
    (by decide) (by decide)
  rw [Bool.and_eq_true, List.any_eq_true] at hend
  obtain ⟨hrest, d, hd, hrow⟩ := hend
  obtain ⟨hid, hst⟩ := of_decide_eq_true hrow
  refine ⟨s, hs, hrest, ⟨d, hd, hid, hst⟩, fun hlive => ?_⟩
  exact (streams_stopped hs 2 hlive d hd hid).1 hst

/-- The sweep stops the stream before it starts, and marks the deployment after that. -/
theorem not_streams_stopped :
    ¬∀ (cfg : Config) (s : State), Reaches (State.step cfg) (fun _ _ => True) initial s →
      s.atRest = true →
        ∀ id, s.world.streams id = some true → ∀ d ∈ s.world.db.deployments, d.id = id →
          d.status ≠ .expired ∧ d.status ≠ .superseded ∧ d.status ≠ .canceled := by
  intro h
  obtain ⟨s, hs, hend⟩ := Reaches.exists_of_runEvents (State.step Config.clear)
    (fun _ _ => True) initial (shopStreamed 4 8)
    (fun s => s.atRest && (s.world.streams 2 == some true) &&
      s.world.db.deployments.any fun d => decide (d.id = 2 ∧ d.status = .expired))
    (by decide) (runsUnder_true _ _ _)
  rw [Bool.and_eq_true, Bool.and_eq_true, beq_iff_eq, List.any_eq_true] at hend
  obtain ⟨⟨hrest, hlive⟩, d, hd, hrow⟩ := hend
  obtain ⟨hid, hst⟩ := of_decide_eq_true hrow
  exact (h Config.clear s hs hrest 2 hlive d hd hid).1 hst

end State
end System
end Code2Cloud
