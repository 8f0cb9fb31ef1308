import Code2Cloud.System.Live

/-!
# Teardowns

`Client.Cleanup` is told a deployment and acts on the names of its project: for a cancelled job in
the build worker, and for an expired deployment in the sweep.
-/

namespace Code2Cloud
namespace System

open Api Worker

variable {cfg : Config} {w : World} {s s' : State} {e : Event}
  {td x : DeploymentId × ProjectName} {id : DeploymentId} {name : ProjectName}

/-- The rollouts that are reported, with the names of their projects. -/
def rolledOut (entries : List Entry) : List (DeploymentId × ProjectName) :=
  entries.filterMap fun
    | .deployed id name => some (id, name)
    | _ => none

structure World.Serves (w : World) (id : DeploymentId) (name : ProjectName) : Prop where
  ready : w.isReady id = true
  rolledOut : (id, name) ∈ rolledOut w.log
  deployment : ∃ o ∈ w.cluster.deployments (Client.objectName .deployment (utf8 name.val)),
    o.deploymentId = id
  objects : ∀ kind ∈ Client.cleanupStages,
    w.cluster.has kind (Client.objectName kind (utf8 name.val)) = true

instance (w : World) (id : DeploymentId) (name : ProjectName) : Decidable (w.Serves id name) :=
  have : Decidable (∃ o ∈ w.cluster.deployments (Client.objectName .deployment (utf8 name.val)),
      o.deploymentId = id) := Option.decidableExistsMem _
  decidable_of_iff
    (w.isReady id = true ∧ (id, name) ∈ rolledOut w.log ∧
      (∃ o ∈ w.cluster.deployments (Client.objectName .deployment (utf8 name.val)),
        o.deploymentId = id) ∧
      ∀ kind ∈ Client.cleanupStages,
        w.cluster.has kind (Client.objectName kind (utf8 name.val)) = true)
    ⟨fun ⟨hready, hrolledOut, hdeployment, hobjects⟩ =>
        ⟨hready, hrolledOut, hdeployment, hobjects⟩,
      fun h => ⟨h.ready, h.rolledOut, h.deployment, h.objects⟩⟩

/-! ## Under way -/

def BuildWorker.teardown : BuildWorker → Option (DeploymentId × ProjectName)
  | cancelling job (.cleanup (_ :: _)) => some (job.deploymentId, job.projectName)
  | _ => none

def CleanupWorker.teardown : CleanupWorker → Option (DeploymentId × ProjectName)
  | cleanup d (_ :: _) _ => some (d.id, d.projectName)
  | _ => none

def BuildWorker.starting : BuildWorker → Option (DeploymentId × ProjectName)
  | cancelling job .stopStreaming => some (job.deploymentId, job.projectName)
  | _ => none

def CleanupWorker.starting : CleanupWorker → Option (DeploymentId × ProjectName)
  | stopStreaming d _ => some (d.id, d.projectName)
  | _ => none

namespace State

/-- The teardowns of which deletions are left. -/
def teardowns (s : State) : List (DeploymentId × ProjectName) :=
  s.procs.worker.teardown.toList ++ s.procs.sweep.teardown.toList

def tearsDown (s : State) : Event → Option (DeploymentId × ProjectName)
  | .worker _ => s.procs.worker.teardown
  | .sweep _ => s.procs.sweep.teardown
  | _ => none

def starts (s : State) : Event → Option (DeploymentId × ProjectName)
  | .worker _ => s.procs.worker.starting
  | .sweep _ => s.procs.sweep.starting
  | _ => none

end State

def rivals (td x : DeploymentId × ProjectName) : Bool :=
  x.1 != td.1 && stem (utf8 x.2.val) == stem (utf8 td.2.val)

def World.rivaled (w : World) (td : DeploymentId × ProjectName) : Bool :=
  (rolledOut w.log).any fun x => rivals td x && w.isReady x.1

/-- A teardown starts only when no other deployment rolled out under its stem is READY, and while it
is under way none becomes READY and none that is READY is rolled out. -/
def Uncontested (cfg : Config) (s : State) (e : Event) : Prop :=
  (∀ td ∈ s.starts e, s.world.rivaled td = false) ∧
  ∀ td ∈ (s.starts e).toList ++ s.teardowns, ∀ t ∈ s.turn cfg e,
    (∀ id ∈ t.command.readied, ∀ x ∈ rolledOut (s.world.log ++ t.entries),
      rivals td x = true → x.1 ≠ id) ∧
    ∀ x ∈ rolledOut t.entries, rivals td x = true → s.world.isReady x.1 = false

instance (cfg : Config) (s : State) (e : Event) : Decidable (Uncontested cfg s e) :=
  have (td : DeploymentId × ProjectName) (t : Turn Processes) : Decidable
      (∀ id ∈ t.command.readied, ∀ x ∈ rolledOut (s.world.log ++ t.entries),
        rivals td x = true → x.1 ≠ id) :=
    Option.decidableForallMem _
  have (td : DeploymentId × ProjectName) : Decidable (∀ t ∈ s.turn cfg e,
      (∀ id ∈ t.command.readied, ∀ x ∈ rolledOut (s.world.log ++ t.entries),
        rivals td x = true → x.1 ≠ id) ∧
      ∀ x ∈ rolledOut t.entries, rivals td x = true → s.world.isReady x.1 = false) :=
    Option.decidableForallMem _
  have : Decidable (∀ td ∈ s.starts e, s.world.rivaled td = false) := Option.decidableForallMem _
  inferInstanceAs (Decidable (_ ∧ _))

/-! ## Rivals -/

theorem mem_rolledOut {entries : List Entry} :
    x ∈ rolledOut entries ↔ .deployed x.1 x.2 ∈ entries := by
  rw [rolledOut, List.mem_filterMap]
  constructor
  · rintro ⟨y, hy, hx⟩
    cases y with
    | deployed id name =>
      cases hx
      exact hy
    | _ => cases hx
  · exact fun h => ⟨_, h, rfl⟩

theorem rolledOut_append (l l' : List Entry) : rolledOut (l ++ l') = rolledOut l ++ rolledOut l' :=
  List.filterMap_append

theorem rolledOut_recorded (w : World) (c : Command) : rolledOut (w.recorded c) = [] := by
  cases c with
  | popBuildJob =>
    rw [World.recorded]
    cases w.redis.toQueues.waitForJob <;> rfl
  | apply o => cases o <;> rfl
  | _ => rfl

theorem rivaled_eq_false_iff : w.rivaled td = false ↔
    ∀ x ∈ rolledOut w.log, rivals td x = true → w.isReady x.1 = false := by
  simp [World.rivaled, List.any_eq_false]

namespace State

/-- A rival is READY after a step only if it was before, or the condition on the step fails. -/
theorem rivaled_step (h : s.step cfg e = some s') (hold : s.world.rivaled td = false)
    (hok : ∀ t ∈ s.turn cfg e,
      (∀ id ∈ t.command.readied, ∀ x ∈ rolledOut (s.world.log ++ t.entries),
        rivals td x = true → x.1 ≠ id) ∧
      ∀ x ∈ rolledOut t.entries, rivals td x = true → s.world.isReady x.1 = false) :
    s'.world.rivaled td = false := by
  obtain ⟨t, ht, _, hs'⟩ := step_eq_some_iff.mp h
  obtain ⟨hreadied, hentries⟩ := hok t ht
  have hlog : rolledOut s'.world.log = rolledOut s.world.log ++ rolledOut t.entries := by
    rw [hs', after, World.record_log, World.log_exec, rolledOut_append, rolledOut_append,
      rolledOut_recorded, List.append_nil]
  rw [rivaled_eq_false_iff] at hold ⊢
  intro x hx hrival
  by_contra hready
  rw [Bool.not_eq_false] at hready
  rw [hlog] at hx
  rcases isReady_step h hready with hbefore | ⟨t', ht', hid⟩
  · have hnot : s.world.isReady x.1 = false := by
      rcases List.mem_append.mp hx with hx | hx
      · exact hold x hx hrival
      · exact hentries x hx hrival
    rw [hnot] at hbefore
    cases hbefore
  · cases ht.symm.trans ht'
    exact hreadied x.1 hid x (rolledOut_append _ _ ▸ hx) hrival rfl

end State

/-! ## The steps of a teardown -/

namespace BuildWorker

/-- The worker, where it goes on, deletes nothing. -/
abbrev Rests (next : Option BuildWorker) : Prop := next.bind teardown = none

theorem rests_process (cfg : Config) (w : World) (r : Reply) (b : Build) (pc : Pc) :
    Rests (processStep cfg w r b pc).next := by
  cases pc with
  | checkQueued | checkSettings | checkClone | checkBuild | checkDeploy =>
    rw [processStep, check]
    split <;> rfl
  | projectPending | markDeploying | recordImage | markReady =>
    exact next_request_of (P := Rests) rfl rfl _ _ _ _ _
  | projectActive => exact next_request_of (P := Rests) rfl rfl _ _ _ _ _
  | markBuilding =>
    refine next_request_of (P := Rests) ?_ rfl _ _ _ _ _
    split <;> rfl
  | getSettings | startStreaming => rfl
  | getToken | build => exact next_query_of (P := Rests) rfl rfl _
  | clone =>
    refine next_query_of (P := Rests) ?_ rfl _
    simp only [Turn.pure]
    generalize (if b.job.commitHash.isEmpty then r.head else b.job.commitHash) = commitHash
    split <;> rfl
  | deploy stage =>
    rw [processStep]
    split
    · exact next_issue_of (P := Rests) rfl rfl _ _ _ _ _
    · simp only [Turn.pure, afterDeploy]
      split <;> rfl
  | stopPrevious =>
    rw [processStep]
    split <;> rfl
  | supersede =>
    rw [processStep]
    split
    · exact next_request_of (P := Rests) rfl rfl _ _ _ _ _
    · rfl

theorem teardown_step {b : BuildWorker} {r : Reply}
    (h : (b.step cfg w r).next.bind teardown = some td) :
    b.teardown = some td ∨ b.starting = some td := by
  have hnone {next : Option BuildWorker} (hrests : Rests next)
      (h : next.bind teardown = some td) : b.teardown = some td ∨ b.starting = some td := by
    cases hrests.symm.trans h
  cases b with
  | idle =>
    rw [step] at h
    split at h
    · exact hnone rfl h
    · exact hnone (next_issue_of (P := Rests) rfl rfl _ _ _ _ _) h
  | processing b pc => exact hnone (rests_process cfg w r b pc) h
  | failing job pc =>
    cases pc with
    | markFailed => exact hnone (next_request_of (P := Rests) rfl rfl _ _ _ _ _) h
    | stopStreams => exact hnone rfl h
  | cancelling job pc =>
    cases pc with
    | markCanceled | deleteResources | projectInactive =>
      exact hnone (next_request_of (P := Rests) rfl rfl _ _ _ _ _) h
    | clearSignal => exact hnone (next_issue_of (P := Rests) rfl rfl _ _ _ _ _) h
    | stopStreams => exact hnone rfl h
    | stopStreaming => exact Or.inr h
    | cleanup left =>
      cases left with
      | nil => exact hnone rfl h
      | cons kind left =>
        refine Or.inl ?_
        have hnext : (step cfg w r (.cancelling job (.cleanup (kind :: left)))).next =
            some (.cancelling job (.cleanup left)) :=
          next_issue_of (P := fun y : Option BuildWorker =>
            y = some (.cancelling job (.cleanup left))) rfl rfl _ _ _ _ _
        rw [hnext] at h
        cases left with
        | nil => cases h
        | cons => exact h

end BuildWorker

namespace CleanupWorker

theorem teardown_loop (ds : List ExpiredDeployment) : (loop ds).teardown = none := by
  cases ds <;> rfl

theorem teardown_step {c : CleanupWorker} {r : Reply} (h : (c.step w r).next.teardown = some td) :
    c.teardown = some td ∨ c.starting = some td := by
  have hnone {next : CleanupWorker} (hrests : next.teardown = none)
      (h : next.teardown = some td) : c.teardown = some td ∨ c.starting = some td := by
    cases hrests.symm.trans h
  cases c with
  | idle =>
    exact hnone (next_query_of (P := fun y : CleanupWorker => y.teardown = none) rfl rfl _) h
  | fetching configs found =>
    cases configs with
    | nil =>
      exact hnone (next_query_of (P := fun y : CleanupWorker => y.teardown = none)
        (teardown_loop found) rfl _) h
    | cons =>
      exact hnone (next_query_of (P := fun y : CleanupWorker => y.teardown = none) rfl rfl _) h
  | stopStreaming d rest => exact Or.inr h
  | markExpired d rest =>
    exact hnone (next_request_of (P := fun y : CleanupWorker => y.teardown = none) rfl
      (teardown_loop rest) _ _ _ _ _) h
  | projectInactive d rest =>
    exact hnone (next_request_of (P := fun y : CleanupWorker => y.teardown = none)
      (teardown_loop rest) (teardown_loop rest) _ _ _ _ _) h
  | cleanup d left rest =>
    cases left with
    | nil => exact hnone rfl h
    | cons kind left =>
      refine Or.inl ?_
      have hnext : (step w r (.cleanup d (kind :: left) rest)).next = .cleanup d left rest :=
        next_issue_of (P := fun y : CleanupWorker => y = .cleanup d left rest) rfl rfl _ _ _ _ _
      rw [hnext] at h
      cases left with
      | nil => cases h
      | cons => exact h

end CleanupWorker

namespace State

theorem mem_teardowns : td ∈ s.teardowns ↔
    s.procs.worker.teardown = some td ∨ s.procs.sweep.teardown = some td := by
  simp [teardowns]

theorem teardowns_step (h : s.step cfg e = some s') (htd : td ∈ s'.teardowns) :
    td ∈ s.teardowns ∨ s.starts e = some td := by
  rcases mem_teardowns.mp htd with hworker | hsweep
  · rcases step_cases h with ⟨_, _, _, _, _, rfl, _, rfl⟩ | ⟨r, rfl, rfl⟩ | ⟨command, new, hb⟩
    · exact Or.inl (mem_teardowns.mpr (Or.inl hworker))
    · have hnext :
          (s.procs.worker.step cfg s.world r).next.bind BuildWorker.teardown = some td := by
        cases hn : (s.procs.worker.step cfg s.world r).next with
        | none =>
          simp only [hn] at hworker
          cases hworker
        | some b =>
          simp only [hn] at hworker
          exact hworker
      exact (BuildWorker.teardown_step hnext).imp_left fun hold => mem_teardowns.mpr (Or.inl hold)
    · rcases hb.worker with hw | hw
      · exact Or.inl (mem_teardowns.mpr (Or.inl (hw ▸ hworker)))
      · rw [hw] at hworker
        cases hworker
  · rcases loops_step h with hloops | ⟨_, hrestarted⟩
    · by_cases he : ∀ r, e ≠ .sweep r
      · exact Or.inl (mem_teardowns.mpr (Or.inr (hloops.sweep he ▸ hsweep)))
      · simp only [ne_eq, not_forall, not_not] at he
        obtain ⟨r, rfl⟩ := he
        rw [step_sweep h] at hsweep
        exact (CleanupWorker.teardown_step hsweep).imp_left fun hold =>
          mem_teardowns.mpr (Or.inr hold)
    · rw [hrestarted.sweep] at hsweep
      cases hsweep

/-- A teardown's steps delete objects of its project's names, and do nothing else. -/
theorem command_of_tearsDown (htd : s.tearsDown e = some td) {t : Turn Processes}
    (ht : s.turn cfg e = some t) : t.command = .skip ∨ ∃ kind, t.command =
      .delete kind (Client.deleteName kind
        { deploymentId := some td.1, projectName := utf8 td.2.val }) := by
  cases e with
  | worker r =>
    cases ht
    rw [Turn.command_map]
    rw [tearsDown] at htd
    cases hworker : s.procs.worker with
    | cancelling job pc =>
      rw [hworker] at htd
      cases pc with
      | cleanup left =>
        cases left with
        | nil => cases htd
        | cons kind left =>
          cases htd
          exact (command_issue _ _ _ _ _ _ _).symm.imp_right fun hc => ⟨kind, hc⟩
      | _ => cases htd
    | _ =>
      rw [hworker] at htd
      cases htd
  | sweep r =>
    cases ht
    rw [Turn.command_map]
    rw [tearsDown] at htd
    cases hsweep : s.procs.sweep with
    | cleanup d left rest =>
      rw [hsweep] at htd
      cases left with
      | nil => cases htd
      | cons kind left =>
        cases htd
        exact (command_issue _ _ _ _ _ _ _).symm.imp_right fun hc => ⟨kind, hc⟩
    | _ =>
      rw [hsweep] at htd
      cases htd
  | _ => cases htd

/-- No rival of a teardown under way is READY. -/
def Unrivaled (s : State) : Prop := ∀ td ∈ s.teardowns, s.world.rivaled td = false

theorem unrivaled_step (hs : s.Unrivaled) (hok : Uncontested cfg s e) (h : s.step cfg e = some s') :
    s'.Unrivaled := by
  intro td htd
  rcases teardowns_step h htd with hold | hstart
  · exact rivaled_step h (hs td hold) (hok.2 td (List.mem_append_right _ hold))
  · refine rivaled_step h (hok.1 td hstart) (hok.2 td (List.mem_append_left _ ?_))
    rw [hstart]
    exact List.mem_singleton_self _

/-! ## The objects of others -/

theorem stem_ne_of_serves (hrival : s.world.rivaled td = false) (hid : id ≠ td.1)
    (hserves : s.world.Serves id name) : stem (utf8 name.val) ≠ stem (utf8 td.2.val) := by
  intro hstem
  have hrivals : rivals td (id, name) = true := by simp [rivals, hid, hstem]
  have hnot := rivaled_eq_false_iff.mp hrival (id, name) hserves.rolledOut hrivals
  rw [hserves.ready] at hnot
  cases hnot

theorem same_tearsDown (h : s.step cfg e = some s') (htd : s.tearsDown e = some td)
    (hstem : stem (utf8 name.val) ≠ stem (utf8 td.2.val)) (kind : Kind) :
    s.world.cluster.Same s'.world.cluster kind (Client.objectName kind (utf8 name.val)) := by
  obtain ⟨t, ht, _, rfl⟩ := step_eq_some_iff.mp h
  rw [after, World.record_cluster]
  rcases command_of_tearsDown htd ht with hc | ⟨kind', hc⟩
  · rw [hc]
    exact Cluster.Same.refl _ _ _
  · rw [hc]
    refine Cluster.same_delete _ ?_
    rintro rfl hname
    exact hstem (stem_eq_of_deleteName_eq hname).symm

theorem db_tearsDown (h : s.step cfg e = some s') (htd : s.tearsDown e = some td) :
    s'.world.db = s.world.db := by
  obtain ⟨t, ht, _, rfl⟩ := step_eq_some_iff.mp h
  rw [after, World.record_db]
  rcases command_of_tearsDown htd ht with hc | ⟨kind', hc⟩ <;> rw [hc] <;> rfl

/-- A deployment that is not a rival of the teardown serves on. -/
theorem serves_tearsDown (h : s.step cfg e = some s') (htd : s.tearsDown e = some td)
    (hrival : s.world.rivaled td = false) (hid : id ≠ td.1) (hserves : s.world.Serves id name) :
    s'.world.Serves id name := by
  have hsame := same_tearsDown h htd (stem_ne_of_serves hrival hid hserves)
  have hready : s'.world.isReady id = s.world.isReady id := by
    rw [World.isReady, World.isReady, db_tearsDown h htd]
  refine ⟨hready.trans hserves.ready, ?_, ?_, fun kind hkind => ?_⟩
  · obtain ⟨t, _, _, rfl⟩ := step_eq_some_iff.mp h
    rw [after, World.record_log, World.log_exec, rolledOut_append, rolledOut_append]
    exact List.mem_append_left _ (List.mem_append_left _ hserves.rolledOut)
  · have hobject := hsame .deployment
    rw [Cluster.Same] at hobject
    exact hobject ▸ hserves.deployment
  · exact (hsame kind).has_eq.trans (hserves.objects kind hkind)

end State

def Command.deletes : Command → Bool
  | .delete _ _ => true
  | _ => false

/-- A deletion of the step is one of the teardown. -/
def DeletesFor (cfg : Config) (td : DeploymentId × ProjectName) (s : State) (e : Event) : Prop :=
  ∀ t ∈ s.turn cfg e, t.command.deletes = true → s.tearsDown e = some td

instance (cfg : Config) (td : DeploymentId × ProjectName) (s : State) (e : Event) :
    Decidable (DeletesFor cfg td s e) :=
  Option.decidableForallMem _

theorem World.has_exec {c : Command} (hc : c.deletes = false) {kind : Kind} {n : GoString}
    (h : w.cluster.has kind n = true) : (w.exec cfg c).cluster.has kind n = true := by
  cases c with
  | delete => cases hc
  | apply o => exact Cluster.has_apply o h
  | updateIngressHosts name hosts =>
    rw [exec]
    cases w.cluster.ingresses name with
    | none => exact h
    | some ingress =>
      dsimp only
      exact Cluster.has_apply _ h
  | popProjectCleanup =>
    rw [cluster_popProjectCleanup]
    exact h
  | _ =>
    rw [cluster_exec cfg w rfl]
    exact h

theorem State.has_step (h : s.step cfg e = some s')
    (honly : DeletesFor cfg td s e)
    (hstem : stem (utf8 name.val) ≠ stem (utf8 td.2.val)) {kind : Kind}
    (hhas : s.world.cluster.has kind (Client.objectName kind (utf8 name.val)) = true) :
    s'.world.cluster.has kind (Client.objectName kind (utf8 name.val)) = true := by
  obtain ⟨t, ht, _, hs'⟩ := step_eq_some_iff.mp h
  cases hdeletes : t.command.deletes with
  | true => exact (same_tearsDown h (honly t ht hdeletes) hstem kind).has_eq.trans hhas
  | false =>
    rw [hs', after, World.record_cluster]
    exact World.has_exec hdeletes hhas

/-- A teardown of one deployment deletes no object that serves another: one that serves before a
step of the teardown serves after it, and the objects of one that serves where the teardown starts
are there as long as nothing but the teardown deletes.  This holds in every run in which a teardown
starts only when no other deployment rolled out under its stem is READY, and none becomes READY
while it is under way. -/
theorem teardown_spares :
    (∀ s e s' td id name, Reaches (State.step cfg) (Uncontested cfg) State.initial s →
      s.step cfg e = some s' → s.tearsDown e = some td → id ≠ td.1 → s.world.Serves id name →
        s'.world.Serves id name) ∧
    ∀ s e s' td id name, Reaches (State.step cfg) (Uncontested cfg) State.initial s →
      Uncontested cfg s e → s.starts e = some td →
        Reaches (State.step cfg) (DeletesFor cfg td) s s' → id ≠ td.1 →
          s.world.Serves id name → ∀ kind ∈ Client.cleanupStages,
            s'.world.cluster.has kind (Client.objectName kind (utf8 name.val)) = true := by
  constructor
  · intro s e s' td id name h hstep htd hid hserves
    have hunrivaled : s.Unrivaled :=
      h.invariant State.Unrivaled (fun _ htd => absurd htd List.not_mem_nil)
        fun _ _ _ hs hok hstep => State.unrivaled_step hs hok hstep
    have hmem : td ∈ s.teardowns := by
      cases e with
      | worker => exact State.mem_teardowns.mpr (Or.inl htd)
      | sweep => exact State.mem_teardowns.mpr (Or.inr htd)
      | _ => cases htd
    exact State.serves_tearsDown hstep htd (hunrivaled td hmem) hid hserves
  · intro s e s' td id name _ hok hstart h hid hserves kind hkind
    have hstem := State.stem_ne_of_serves (hok.1 td hstart) hid hserves
    refine h.invariant (fun s =>
      s.world.cluster.has kind (Client.objectName kind (utf8 name.val)) = true)
      (hserves.objects kind hkind) ?_
    exact fun _ _ _ hhas honly hstep => State.has_step hstep honly hstem hhas

/-! ## A shop beside the torn down project -/

def spyCanceled : List Event :=
  shopCreated ++ shopWorker 23 ++ spyCreated ++ shopRequest (.cancel 2 5) 3

theorem teardown_spares_shop :
    (∃ s s' td, Reaches (State.step Config.clear) (Uncontested Config.clear) State.initial s ∧
      s.step Config.clear (.worker shopReply) = some s' ∧
      s.tearsDown (.worker shopReply) = some td ∧ td.1 = 5 ∧
      s'.world.Serves 2 shopName) ∧
    ∃ s s' td, Reaches (State.step Config.clear) (Uncontested Config.clear) State.initial s ∧
      s.starts (.worker shopReply) = some td ∧
      Reaches (State.step Config.clear) (DeletesFor Config.clear td) s s' ∧
      s'.teardowns = [] ∧
      s'.world.cluster.has .ingress (Client.objectName .ingress (utf8 shopName.val)) = true := by
  constructor
  · obtain ⟨s, h, hend⟩ := Reaches.exists_of_runEvents (State.step Config.clear)
      (Uncontested Config.clear) State.initial (spyCanceled ++ shopWorker 4)
      (fun s => (s.step Config.clear (.worker shopReply)).isSome &&
        ((s.tearsDown (.worker shopReply)).any fun td => td.1 == 5) &&
        decide (s.world.Serves 2 shopName))
      (by decide) (by decide)
    simp only [Bool.and_eq_true, decide_eq_true_eq, Option.any_eq_true, beq_iff_eq,
      Option.isSome_iff_exists] at hend
    obtain ⟨⟨⟨s', hstep⟩, td, htd, hid⟩, hserves⟩ := hend
    refine ⟨s, s', td, h, hstep, htd, hid, ?_⟩
    exact teardown_spares.1 s _ s' td 2 _ h hstep htd (by rw [hid]; decide) hserves
  · obtain ⟨s, h, hend⟩ := Reaches.exists_of_runEvents (State.step Config.clear)
      (Uncontested Config.clear) State.initial (spyCanceled ++ shopWorker 3)
      (fun s => decide (Uncontested Config.clear s (.worker shopReply)) &&
        ((s.starts (.worker shopReply)).any fun td => td.1 == 5 &&
          decide (RunsUnder (State.step Config.clear) (DeletesFor Config.clear td) s
            (shopWorker 6))) &&
        ((runEvents (State.step Config.clear) s (shopWorker 6)).any fun s' =>
          s'.teardowns.isEmpty) && decide (s.world.Serves 2 shopName))
      (by decide) (by decide)
    simp only [Bool.and_eq_true, decide_eq_true_eq, Option.any_eq_true, beq_iff_eq,
      List.isEmpty_iff] at hend
    obtain ⟨⟨⟨hok, td, hstart, hid, hunder⟩, s', hrun, hdone⟩, hserves⟩ := hend
    have hs' := Reaches.of_runEvents hrun hunder
    refine ⟨s, s', td, h, hstart, hs', hdone, ?_⟩
    exact teardown_spares.2 s _ s' td 2 shopName h hok hstart hs'
      (by rw [hid]; decide) hserves .ingress (by decide)

/-- The rolling update of the live shop is cancelled before it is built. -/
theorem not_teardown_spares :
    ¬∀ (cfg : Config) (s s' : State) (e : Event) (td : DeploymentId × ProjectName)
      (id : DeploymentId) (name : ProjectName),
      Reaches (State.step cfg) (fun _ e => e.succeeds = true) State.initial s →
        s.step cfg e = some s' → s.tearsDown e = some td → id ≠ td.1 → s.world.Serves id name →
          s'.world.Serves id name := by
  intro h
  obtain ⟨s, hs, hend⟩ := Reaches.exists_of_runEvents (State.step Config.clear)
    (fun _ e => e.succeeds = true) State.initial
    (shopCreated ++ shopWorker 23 ++ shopRequest (.push WebhooksService.shopPush) 4 ++
      shopRequest (.cancel 1 4) 3 ++ shopWorker 4)
    (fun s => ((s.step Config.clear (.worker shopReply)).any fun s' : State =>
        !decide (s'.world.Serves 2 shopName)) &&
      ((s.tearsDown (.worker shopReply)).any fun td : DeploymentId × ProjectName => td.1 == 4) &&
      decide (s.world.Serves 2 shopName))
    (by decide) (by decide)
  simp only [Bool.and_eq_true, decide_eq_true_eq, Option.any_eq_true, beq_iff_eq,
    Bool.not_eq_true', decide_eq_false_iff_not] at hend
  obtain ⟨⟨⟨s', hstep, hgone⟩, td, htd, hid⟩, hserves⟩ := hend
  exact hgone (h Config.clear s s' _ td 2 _ hs hstep htd (by rw [hid]; decide) hserves)

end System
end Code2Cloud
