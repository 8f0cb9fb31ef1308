import Code2Cloud.System.Live
import Code2Cloud.System.Objects
import Code2Cloud.System.Rollouts

/-!
# Failed rollouts

`Client.Deploy` writes five objects one after another and returns at the first error.  The
error branch records the deployment FAILED and takes nothing back.
-/

namespace Code2Cloud
namespace System

open Api Worker

variable {cfg : Config} {w : World} {s s' s'' : State} {e : Event} {r : Reply}

/-! ## What a rollout has written -/

/-- The stages of `Client.Deploy` that are behind a build. -/
def Pc.done : Pc → List Client.DeployStage
  | .deploy .serviceAccount => []
  | .deploy .networkPolicy => [.serviceAccount]
  | .deploy .deployment => [.serviceAccount, .networkPolicy]
  | .deploy .service => [.serviceAccount, .networkPolicy, .deployment]
  | .deploy .ingress => [.serviceAccount, .networkPolicy, .deployment, .service]
  | .deploy .wait | .markReady | .projectActive | .stopPrevious | .supersede | .startStreaming =>
    [.serviceAccount, .networkPolicy, .deployment, .service, .ingress]
  | _ => []

def Pc.stage : Pc → Option Client.DeployStage
  | .deploy stage => some stage
  | _ => none

/-- The stages whose objects are in the cluster when a build fails at a request: those behind it,
and the one that was carried out though it was reported as failed. -/
def Pc.carriedOut (pc : Pc) (o : Outcome) : List Client.DeployStage :=
  if o = .lost then pc.done ++ pc.stage.toList else pc.done

def Build.objects (cfg : Config) (b : Build) (stages : List Client.DeployStage) : List Object :=
  stages.filterMap (Client.object cfg.baseDomain (BuildWorker.deployOptions b))

def Command.written : Command → List Object
  | .apply o => [o]
  | _ => []

theorem Pc.done_prefix (pc : Pc) :
    pc.done ++ pc.stage.toList <+:
      [.serviceAccount, .networkPolicy, .deployment, .service, .ingress, .wait] := by
  cases pc with
  | deploy stage => cases stage <;> decide
  | _ => decide

theorem Pc.carriedOut_prefix (pc : Pc) (o : Outcome) :
    pc.carriedOut o <+:
      [.serviceAccount, .networkPolicy, .deployment, .service, .ingress, .wait] := by
  unfold carriedOut
  split
  · exact pc.done_prefix
  · exact (List.prefix_append _ _).trans pc.done_prefix

/-- The stages have objects of different kinds. -/
theorem nodup_kind_objects (cfg : Config) (b : Build) {stages : List Client.DeployStage}
    (h : stages <+: [.serviceAccount, .networkPolicy, .deployment, .service, .ingress, .wait]) :
    ((b.objects cfg stages).map Object.kind).Nodup := by
  have hall : ((b.objects cfg
      [.serviceAccount, .networkPolicy, .deployment, .service, .ingress, .wait]).map
        Object.kind).Nodup := by
    change [Kind.serviceAccount, .networkPolicy, .deployment, .service, .ingress].Nodup
    decide
  exact hall.sublist ((h.sublist.filterMap _).map _)

theorem name_of_mem_objects {b : Build} {stages : List Client.DeployStage} {o : Object}
    (h : o ∈ b.objects cfg stages) :
    o.name = Client.objectName o.kind (utf8 b.job.projectName.val) := by
  obtain ⟨stage, _, ho⟩ := List.mem_filterMap.mp h
  exact Client.object_name ho

namespace BuildWorker

variable {b b' : Build} {pc pc' : Pc}

/-- A request of `processJob` writes the cluster only as a stage of `Client.Deploy`. -/
theorem cluster_process (cfg : Config) (w : World) (r : Reply) (b : Build) (pc : Pc) :
    (w.exec cfg (processStep cfg w r b pc).command).cluster =
      (processStep cfg w r b pc).command.written.foldl Cluster.apply w.cluster := by
  have hoff {c : Command} (hc : c.onCluster = false) :
      (w.exec cfg c).cluster = c.written.foldl Cluster.apply w.cluster := by
    rw [w.cluster_exec cfg hc]
    cases c <;> first | rfl | cases hc
  cases hc : (processStep cfg w r b pc).command.onCluster with
  | false => exact hoff hc
  | true =>
    let s : State := { world := w, procs := { Processes.initial with worker := .processing b pc } }
    have htouches : s.Touches cfg (.worker r) (processStep cfg w r b pc).command :=
      State.touches_worker hc rfl
    generalize (processStep cfg w r b pc).command = c at htouches
    cases htouches with
    | deploy => rfl
    | cancel hworker => cases hworker

theorem written_process (h : pc.stage = none) :
    (processStep cfg w r b pc).command.written = [] := by
  let s : State := { world := w, procs := { Processes.initial with worker := .processing b pc } }
  cases hc : (processStep cfg w r b pc).command with
  | apply o =>
    have htouches : s.Touches cfg (.worker r) (.apply o) :=
      State.touches_worker rfl hc
    obtain ⟨_, _, stage, _, hworker, _⟩ := htouches.of_apply
    cases hworker
    cases h
  | _ => rfl

/-- A stage of `Client.Deploy` writes an object and has a next one, or is the last. -/
theorem stage_cases (cfg : Config) (b : Build) (stage : Client.DeployStage) :
    stage = .wait ∨ ∃ o next, Client.object cfg.baseDomain (deployOptions b) stage = some o ∧
      stage.next = some next ∧ (Pc.deploy next).done = (Pc.deploy stage).done ++ [stage] := by
  cases stage with
  | wait => exact Or.inl rfl
  | _ => exact Or.inr ⟨_, _, rfl, rfl, rfl⟩

theorem objects_nil (cfg : Config) (b : Build) : b.objects cfg [] = [] := rfl

theorem objects_append (cfg : Config) (b : Build) (l l' : List Client.DeployStage) :
    b.objects cfg (l ++ l') = b.objects cfg l ++ b.objects cfg l' := List.filterMap_append

theorem objects_singleton {stage : Client.DeployStage} {o : Object}
    (ho : Client.object cfg.baseDomain (deployOptions b) stage = some o) :
    b.objects cfg [stage] = [o] := by
  simp [Build.objects, ho]

theorem processStep_deploy {stage next : Client.DeployStage} {o : Object}
    (ho : Client.object cfg.baseDomain (deployOptions b) stage = some o)
    (hnext : stage.next = some next) :
    processStep cfg w r b (.deploy stage) =
      issue w r.outcome (.apply o) (some (processing b (.deploy next)))
        (some (failing b.job .markFailed)) [] [.finished b.job.deploymentId .failed] := by
  unfold processStep
  simp only [ho, hnext]

def Keeps (b : Build) (pc : Pc) (next : Option BuildWorker) : Prop :=
  ∀ b' pc', next = some (processing b' pc') → b' = b ∧ pc'.done = pc.done

theorem keeps_processing (b : Build) (h : pc'.done = pc.done) :
    Keeps b pc (some (processing b pc')) := by
  rintro _ _ ⟨⟩
  exact ⟨rfl, h⟩

theorem keeps_failing (b : Build) (pc : Pc) (job : BuildJob) (pc' : FailPc) :
    Keeps b pc (some (failing job pc')) := by
  rintro _ _ ⟨⟩

/-- A build past `Client.Deploy` stays as it is. -/
theorem keeps_process (cfg : Config) (w : World) (r : Reply) (b : Build) {pc : Pc}
    (hstage : pc.stage = none) (hdone : pc.done ≠ []) :
    Keeps b pc (processStep cfg w r b pc).next := by
  cases pc with
  | markReady =>
    exact next_request_of (keeps_processing b rfl) (keeps_failing b _ _ _) _ _ _ _ _
  | projectActive =>
    have hactive : Keeps b .projectActive (some (afterActive b)) := by
      refine keeps_processing b ?_
      split <;> rfl
    exact next_request_of hactive hactive _ _ _ _ _
  | stopPrevious =>
    rw [processStep]
    split <;> exact keeps_processing b rfl
  | supersede =>
    rw [processStep]
    split
    · exact next_request_of (keeps_processing b rfl) (keeps_processing b rfl) _ _ _ _ _
    · exact keeps_processing b rfl
  | startStreaming => rintro _ _ ⟨⟩
  | deploy => cases hstage
  | _ => exact absurd rfl hdone

theorem done_following (hstage : pc.stage = none) (hdone : pc.done = [])
    (h : pc' ∈ pc.following) : pc'.done = [] := by
  cases pc with
  | deploy => cases hstage
  | markReady | projectActive | stopPrevious | supersede | startStreaming => cases hdone
  | _ =>
    rw [List.mem_singleton.mp h]
    rfl

theorem eq_deploy {stage : Client.DeployStage} (h : pc.stage = some stage) :
    pc = .deploy stage := by
  cases pc <;> cases h
  rfl

theorem processStep_wait (cfg : Config) (w : World) (r : Reply) (b : Build) :
    processStep cfg w r b (.deploy .wait) =
      .pure (afterDeploy b) [.deployed b.job.deploymentId b.job.projectName] := rfl

theorem afterDeploy_eq {next : BuildWorker} (h : afterDeploy b = some next) :
    next = processing b .markReady := by
  unfold afterDeploy at h
  split at h <;> cases h
  rfl

/-- The objects of a build that goes on, and of the command it goes on with. -/
theorem objects_process (h : (processStep cfg w r b pc).next = some (processing b' pc')) :
    b'.objects cfg pc'.done =
      b.objects cfg pc.done ++ (processStep cfg w r b pc).command.written := by
  have hfollowing := follows_process cfg w r b pc b' pc' h
  cases hstage : pc.stage with
  | none =>
    rw [written_process hstage, List.append_nil]
    by_cases hdone : pc.done = []
    · rw [hdone, done_following hstage hdone hfollowing, objects_nil, objects_nil]
    · obtain ⟨rfl, hdone'⟩ := keeps_process cfg w r b hstage hdone b' pc' h
      rw [hdone']
  | some stage =>
    obtain rfl := eq_deploy hstage
    rcases stage_cases cfg b stage with rfl | ⟨o, next, ho, hnext, hdone⟩
    · rw [processStep_wait] at h ⊢
      cases afterDeploy_eq h
      exact (List.append_nil _).symm
    · rw [processStep_deploy ho hnext] at h ⊢
      rcases issue_cases w r.outcome (.apply o) (some (processing b (.deploy next)))
        (some (failing b.job .markFailed)) [] [.finished b.job.deploymentId .failed] with
        ⟨_, ht⟩ | ⟨_, ht⟩ | ht <;> rw [ht] at h ⊢
      · cases h
        rw [hdone, objects_append, objects_singleton ho]
        rfl
      · cases h
      · cases h

theorem objects_failing {job : BuildJob} {failed : FailPc}
    (h : (processStep cfg w r b pc).next = some (failing job failed)) :
    b.objects cfg pc.done ++ (processStep cfg w r b pc).command.written =
      b.objects cfg (pc.carriedOut r.outcome) := by
  cases hstage : pc.stage with
  | none =>
    rw [written_process hstage, Pc.carriedOut, hstage, Option.toList_none, List.append_nil,
      List.append_nil, ite_self]
  | some stage =>
    obtain rfl := eq_deploy hstage
    rcases stage_cases cfg b stage with rfl | ⟨o, next, ho, hnext, _⟩
    · rw [processStep_wait] at h
      cases afterDeploy_eq h
    · rw [processStep_deploy ho hnext] at h ⊢
      cases hr : r.outcome with
      | ok =>
        rw [hr] at h
        cases h
      | lost =>
        rw [Pc.carriedOut, if_pos rfl, hstage, Option.toList_some, objects_append,
          objects_singleton ho]
        rfl
      | fail | late => exact List.append_nil _

def isProcessing : BuildWorker → Bool
  | processing _ _ => true
  | _ => false

end BuildWorker

/-! ## The run of a job -/

def Command.hits : Command → Kind → GoString → Bool
  | .apply o, kind, name => o.kind == kind && o.name == name
  | .delete k n, kind, name => k == kind && n == name
  | .updateIngressHosts n _, kind, name => .ingress == kind && n == name
  | _, _, _ => false

/-- The worker goes on with the job it processes, and nobody else acts on the five objects of the
job's project. -/
def Undisturbed (cfg : Config) (projectName : ProjectName) (s : State) (e : Event) : Prop :=
  s.procs.worker.isProcessing = true ∧
  match e with
  | .worker _ => True
  | .restart => False
  | e => ∀ t ∈ s.turn cfg e, ∀ kind ∈ Client.cleanupStages,
      t.command.hits kind (Client.objectName kind (utf8 projectName.val)) = false

instance (cfg : Config) (projectName : ProjectName) (s : State) (e : Event) :
    Decidable (Undisturbed cfg projectName s e) :=
  have (e : Event) : Decidable (∀ t ∈ s.turn cfg e, ∀ kind ∈ Client.cleanupStages,
      t.command.hits kind (Client.objectName kind (utf8 projectName.val)) = false) :=
    Option.decidableForallMem _
  match e with
  | .worker _ => inferInstanceAs (Decidable (_ ∧ True))
  | .restart => inferInstanceAs (Decidable (_ ∧ False))
  | .tick _ | .request _ | .edit _ | .call _ _ | .sweep _ | .projectCleanup _ | .domainWorker _ =>
    inferInstanceAs (Decidable (_ ∧ _))

theorem mem_cleanupStages (kind : Kind) : kind ∈ Client.cleanupStages := by
  cases kind <;> decide

theorem World.same_exec (cfg : Config) (w : World) {c : Command} {kind : Kind} {name : GoString}
    (h : c.hits kind name = false) : Cluster.Same w.cluster (w.exec cfg c).cluster kind name := by
  have hne {k : Kind} {n : GoString} (h : (k == kind && n == name) = false) :
      k = kind → n ≠ name := by
    simpa [Bool.and_eq_false_iff] using h
  have hoff (hc : c.onCluster = false) :
      Cluster.Same w.cluster (w.exec cfg c).cluster kind name := by
    rw [w.cluster_exec cfg hc]
    exact Cluster.Same.refl _ _ _
  cases c with
  | apply o => exact Cluster.same_apply w.cluster o (hne h)
  | delete k n => exact Cluster.same_delete w.cluster (hne h)
  | updateIngressHosts n hosts =>
    rw [exec]
    split
    · exact Cluster.Same.refl _ _ _
    · exact Cluster.same_apply w.cluster (.ingress n _) (hne h)
  | popProjectCleanup =>
    rw [cluster_popProjectCleanup]
    exact Cluster.Same.refl _ _ _
  | _ => exact hoff rfl

/-- The worker processes the job, and the objects of its project are those of the cluster with what
the build has written. -/
structure State.Rolling (cfg : Config) (cl : Cluster) (job : BuildJob) (s : State) : Prop where
  held : ∀ b pc, s.procs.worker = .processing b pc → b.job = job
  objects : ∀ b pc, s.procs.worker = .processing b pc → ∀ kind,
    Cluster.Same ((b.objects cfg pc.done).foldl Cluster.apply cl) s.world.cluster kind
      (Client.objectName kind (utf8 job.projectName.val))

namespace State

variable {cl : Cluster} {job : BuildJob} {b : Build} {pc : Pc}

/-- A request of `processJob` adds its object to those the build has written. -/
theorem Rolling.same_worker (hs : s.Rolling cfg cl job) (h : s.step cfg (.worker r) = some s')
    (hworker : s.procs.worker = .processing b pc) (kind : Kind) :
    Cluster.Same
      ((b.objects cfg pc.done ++
        (BuildWorker.processStep cfg s.world r b pc).command.written).foldl Cluster.apply cl)
      s'.world.cluster kind (Client.objectName kind (utf8 job.projectName.val)) := by
  have hold := hs.objects b pc hworker kind
  have hcluster : s'.world.cluster =
      (BuildWorker.processStep cfg s.world r b pc).command.written.foldl Cluster.apply
        s.world.cluster := by
    rw [step_worker h, hworker]
    exact BuildWorker.cluster_process cfg s.world r b pc
  rw [hcluster, List.foldl_append]
  generalize (BuildWorker.processStep cfg s.world r b pc).command.written = os
  generalize (b.objects cfg pc.done).foldl Cluster.apply cl = cl' at hold
  generalize s.world.cluster = cl'' at hold
  induction os generalizing cl' cl'' with
  | nil => exact hold
  | cons o os ih => exact ih _ _ (hold.apply o)

theorem rolling_step (hs : s.Rolling cfg cl job) (hok : Undisturbed cfg job.projectName s e)
    (h : s.step cfg e = some s') : s'.Rolling cfg cl job := by
  obtain ⟨hprocessing, hok⟩ := hok
  have hother (hne : ∀ r, e ≠ .worker r) (hrestart : e ≠ .restart)
      (hmiss : ∀ t ∈ s.turn cfg e, ∀ kind ∈ Client.cleanupStages,
        t.command.hits kind (Client.objectName kind (utf8 job.projectName.val)) = false) :
      s'.Rolling cfg cl job := by
    have hsame := worker_step h hne hrestart
    obtain ⟨t, ht, _, rfl⟩ := step_eq_some_iff.mp h
    refine ⟨fun b pc hb => hs.held b pc (hsame ▸ hb), fun b pc hb kind => ?_⟩
    have hmiss := hmiss t ht kind (mem_cleanupStages kind)
    exact (hs.objects b pc (hsame ▸ hb) kind).trans (s.world.same_exec cfg hmiss)
  cases e with
  | worker r =>
    have hfrom {b : Build} {pc : Pc} (hb : s'.procs.worker = .processing b pc) :
        ∃ b₀ pc₀, s.procs.worker = .processing b₀ pc₀ ∧ b.job = b₀.job ∧
          (BuildWorker.processStep cfg s.world r b₀ pc₀).next = some (.processing b pc) := by
      rcases processing_step h hb with hfrom | ⟨_, _, hidle, _⟩
      · exact hfrom
      · rw [hidle] at hprocessing
        cases hprocessing
    constructor
    · intro b pc hb
      obtain ⟨b₀, pc₀, hworker, hjob, _⟩ := hfrom hb
      exact hjob.trans (hs.held b₀ pc₀ hworker)
    · intro b pc hb kind
      obtain ⟨b₀, pc₀, hworker, _, hnext⟩ := hfrom hb
      rw [BuildWorker.objects_process hnext]
      exact hs.same_worker h hworker kind
  | restart => exact hok.elim
  | _ => exact hother nofun nofun hok

theorem rolling_start (hstart : s.procs.worker = .processing { job } .checkQueued) :
    s.Rolling cfg s.world.cluster job := by
  constructor
  · intro b pc hb
    cases hstart.symm.trans hb
    rfl
  · intro b pc hb kind
    cases hstart.symm.trans hb
    exact Cluster.Same.refl _ _ _

end State

/-- A rollout that fails leaves the project's objects as they were before the job exactly if
every object it had written was there before. -/
theorem failed_rollout_restores_iff {job : BuildJob} {b : Build} {pc : Pc}
    (hstart : s.procs.worker = .processing { job } .checkQueued)
    (hrun : Reaches (State.step cfg) (Undisturbed cfg job.projectName) s s')
    (hworker : s'.procs.worker = .processing b pc) (h : s'.step cfg (.worker r) = some s'')
    (hfailed : s''.procs.worker = .failing job .markFailed) :
    (∀ kind, Cluster.Same s.world.cluster s''.world.cluster kind
        (Client.objectName kind (utf8 job.projectName.val))) ↔
      ∀ o ∈ b.objects cfg (pc.carriedOut r.outcome), s.world.cluster.holds o := by
  have hs : s'.Rolling cfg s.world.cluster job :=
    hrun.invariant (State.Rolling cfg s.world.cluster job) (State.rolling_start hstart)
      fun _ _ _ hs hok h => State.rolling_step hs hok h
  have hnext : (BuildWorker.processStep cfg s'.world r b pc).next =
      some (.failing job .markFailed) := by
    have hget : ((BuildWorker.processStep cfg s'.world r b pc).next).getD .idle =
        .failing job .markFailed := by
      rw [State.step_worker h, hworker] at hfailed
      exact (Processes.setWorker_worker _ _).symm.trans hfailed
    cases hnext : (BuildWorker.processStep cfg s'.world r b pc).next with
    | none =>
      rw [hnext] at hget
      cases hget
    | some next =>
      rw [hnext] at hget
      exact congrArg some hget
  have hsame (kind : Kind) := hs.same_worker h hworker kind
  rw [BuildWorker.objects_failing hnext] at hsame
  have hnodup := nodup_kind_objects cfg b (pc.carriedOut_prefix r.outcome)
  have hname : ∀ o ∈ b.objects cfg (pc.carriedOut r.outcome),
      o.name = Client.objectName o.kind (utf8 job.projectName.val) := by
    intro o ho
    rw [name_of_mem_objects ho, hs.held b pc hworker]
  generalize b.objects cfg (pc.carriedOut r.outcome) = os at hsame hnodup hname
  constructor
  · intro hrestored o ho
    rw [← Cluster.same_foldl_self_iff _ hnodup ho, hname o ho]
    exact (hrestored o.kind).trans (hsame o.kind).symm
  · intro hheld kind
    refine Cluster.Same.trans ?_ (hsame kind)
    by_cases hkind : kind ∈ os.map Object.kind
    · obtain ⟨o, ho, rfl⟩ := List.mem_map.mp hkind
      rw [← hname o ho, Cluster.same_foldl_self_iff _ hnodup ho]
      exact hheld o ho
    · exact Cluster.same_foldl _ hkind

/-! ## A rolling update of the shop -/

def BuildWorker.buildAt (pc : Pc) : BuildWorker → Option Build
  | .processing b pc' => if pc' = pc then some b else none
  | _ => none

theorem BuildWorker.eq_of_buildAt {w : BuildWorker} {pc : Pc} {b : Build}
    (h : w.buildAt pc = some b) : w = .processing b pc := by
  cases w with
  | processing b' pc' =>
    obtain ⟨rfl, hb⟩ := Option.ite_none_right_eq_some.mp h
    rw [Option.some.inj hb]
  | _ => cases h

/-- The shop is live, and the Service of its next version is refused. -/
theorem rollout_fails_shop :
    ∃ s s' s'' job b, Reaches (State.step Config.clear) (fun _ _ => True) State.initial s ∧
      s.procs.worker = .processing { job } .checkQueued ∧
      Reaches (State.step Config.clear) (Undisturbed Config.clear job.projectName) s s' ∧
      s'.procs.worker = .processing b (.deploy .service) ∧
      s'.step Config.clear (.worker { shopReply with outcome := .fail }) = some s'' ∧
      s''.procs.worker = .failing job .markFailed ∧ s''.world.isReady 2 = true ∧
      (∃ o ∈ b.objects Config.clear ((Pc.deploy .service).carriedOut .fail),
        ¬s.world.cluster.holds o) ∧
      s.world.cluster.deployments (Client.objectName .deployment (utf8 job.projectName.val)) ≠
        s''.world.cluster.deployments
          (Client.objectName .deployment (utf8 job.projectName.val)) := by
  obtain ⟨s, hs, hend⟩ := Reaches.exists_of_runEvents (State.step Config.clear)
    (fun _ _ => True) State.initial
    (shopCreated ++ shopWorker 23 ++ shopRequest (.push WebhooksService.shopPush) 4 ++
      shopWorker 1)
    (fun s => s.procs.worker.job.any fun job =>
      decide (s.procs.worker = .processing { job } .checkQueued) &&
      decide (RunsUnder (State.step Config.clear) (Undisturbed Config.clear job.projectName) s
        (shopWorker 16)) &&
      (runEvents (State.step Config.clear) s (shopWorker 16)).any fun s' : State =>
        (s'.step Config.clear (.worker { shopReply with outcome := .fail })).any
          fun s'' : State =>
            decide (s''.procs.worker = .failing job .markFailed) && s''.world.isReady 2 &&
            ((s'.procs.worker.buildAt (.deploy .service)).any fun b =>
              (b.objects Config.clear ((Pc.deploy .service).carriedOut .fail)).any
                fun o => !decide (s.world.cluster.holds o)) &&
            !decide (s.world.cluster.deployments
                (Client.objectName .deployment (utf8 job.projectName.val)) =
              s''.world.cluster.deployments
                (Client.objectName .deployment (utf8 job.projectName.val))))
    (by decide) (runsUnder_true _ _ _)
  obtain ⟨job, _, hend⟩ := Option.any_eq_true _ _ |>.mp hend
  simp only [Bool.and_eq_true, decide_eq_true_eq] at hend
  obtain ⟨⟨hstart, hunder⟩, hend⟩ := hend
  obtain ⟨s', hrun, hend⟩ := Option.any_eq_true _ _ |>.mp hend
  obtain ⟨s'', hstep, hend⟩ := Option.any_eq_true _ _ |>.mp hend
  simp only [Bool.and_eq_true, decide_eq_true_eq, Bool.not_eq_true', decide_eq_false_iff_not]
    at hend
  obtain ⟨⟨⟨hfailed, hready⟩, hobjects⟩, hchanged⟩ := hend
  obtain ⟨b, hworker, hobjects⟩ := Option.any_eq_true _ _ |>.mp hobjects
  obtain ⟨o, ho, hnot⟩ := List.any_eq_true.mp hobjects
  rw [Bool.not_eq_true', decide_eq_false_iff_not] at hnot
  exact ⟨s, s', s'', job, b, hs, hstart, Reaches.of_runEvents hrun hunder,
    BuildWorker.eq_of_buildAt hworker, hstep, hfailed, hready, ⟨o, ho, hnot⟩, hchanged⟩

theorem failed_rollout_restores_shop :
    ∃ s s' s'' job b, Reaches (State.step Config.clear) (Undisturbed Config.clear job.projectName)
        s s' ∧
      s.procs.worker = .processing { job } .checkQueued ∧
      s'.procs.worker = .processing b (.deploy .service) ∧
      s'.step Config.clear (.worker { shopReply with outcome := .fail }) = some s'' ∧
      ¬∀ kind, Cluster.Same s.world.cluster s''.world.cluster kind
        (Client.objectName kind (utf8 job.projectName.val)) := by
  obtain ⟨s, s', s'', job, b, _, hstart, hrun, hworker, hstep, hfailed, _, ⟨o, ho, hnot⟩, _⟩ :=
    rollout_fails_shop
  refine ⟨s, s', s'', job, b, hrun, hstart, hworker, hstep, fun hrestored => ?_⟩
  exact hnot ((failed_rollout_restores_iff hstart hrun hworker hstep hfailed).mp hrestored o ho)

/-- The Deployment object of the live version is replaced by that of the version that failed. -/
theorem not_failed_rollout_restores :
    ¬∀ (cfg : Config) (s s' s'' : State) (r : Reply) (job : BuildJob) (b : Build) (pc : Pc),
      Reaches (State.step cfg) (fun _ _ => True) State.initial s →
        s.procs.worker = .processing { job } .checkQueued →
          Reaches (State.step cfg) (Undisturbed cfg job.projectName) s s' →
            s'.procs.worker = .processing b pc → s'.step cfg (.worker r) = some s'' →
              s''.procs.worker = .failing job .markFailed →
                ∀ kind, Cluster.Same s.world.cluster s''.world.cluster kind
                  (Client.objectName kind (utf8 job.projectName.val)) := by
  intro h
  obtain ⟨s, s', s'', job, b, hs, hstart, hrun, hworker, hstep, hfailed, _, _, hchanged⟩ :=
    rollout_fails_shop
  exact hchanged
    (h Config.clear s s' s'' _ job b _ hs hstart hrun hworker hstep hfailed .deployment)

end System
end Code2Cloud
