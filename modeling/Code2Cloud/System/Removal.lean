import Code2Cloud.System.Objects

/-!
# Removed projects

A project's row goes while its build may still run.  The cleanup of its objects is a job of its
own, which the worker takes up beside the build.
-/

namespace Code2Cloud
namespace System

open Api Worker

variable {cfg : Config} {w : World} {s s' : State} {e : Event} {p : ProjectId}
  {kind : Kind} {name : GoString} {x : Kind × GoString}

namespace ProjectCleanupWorker

def deletions (job : ProjectCleanupJob) (left : List Kind) : List (Kind × GoString) :=
  left.map fun kind => (kind, Client.deleteName kind (cleanupOptions job))

def pending : ProjectCleanupWorker → List (Kind × GoString)
  | idle => []
  | stopStreaming job _ => deletions job Client.cleanupStages
  | cleanup job left => deletions job left

end ProjectCleanupWorker

namespace World

def queuedDeletions (w : World) : List (Kind × GoString) :=
  w.redis.cleanupQueue.flatMap fun job =>
    ProjectCleanupWorker.deletions job Client.cleanupStages

def hasProject (w : World) (p : ProjectId) : Bool := w.db.projects.any fun q => q.id == p

/-- The object is one of a project without a row. -/
def orphaned (w : World) (x : Kind × GoString) : Bool :=
  (w.cluster.projectOf x.1 x.2).any fun p => !w.hasProject p

end World

/-- The deletions that cleanups are still to carry out. -/
def State.doomed (s : State) : List (Kind × GoString) :=
  s.world.queuedDeletions ++ s.procs.projectCleanup.pending

def noteApplied (cfg : Config) (s : State) (e : Event) (_ : State) (l : List (Kind × GoString)) :
    List (Kind × GoString) :=
  l ++ (s.turn cfg e).elim [] fun t =>
    match t.command with
    | .apply o => [(o.kind, o.name)]
    | _ => []

def State.cleansUp (s : State) : Event → Bool
  | .projectCleanup r =>
    match s.procs.projectCleanup with
    | .idle => r.outcome != .lost
    | .cleanup _ (_ :: _) => r.outcome == .ok || r.outcome == .lost
    | _ => true
  | _ => true

/-- A project's row is deleted only when cleanups are to delete all its objects, and afterwards a
deploy writes only objects that a cleanup is still to delete.  Cleanups are carried out, and where
the worker process ends, those that wait in the queue suffice. -/
def CleansLast (cfg : Config) (x : State × List (Kind × GoString)) (e : Event) : Prop :=
  x.1.cleansUp e = true ∧
  (x.1.ends cfg e = true →
    ∀ y ∈ x.2, x.1.world.orphaned y = true → y ∈ x.1.world.queuedDeletions) ∧
  ∀ t ∈ x.1.turn cfg e,
    match t.command with
    | .deleteProject p =>
      ∀ y ∈ x.2, x.1.world.cluster.projectOf y.1 y.2 = some p → y ∈ x.1.doomed
    | .apply o => x.1.world.hasProject o.projectId = true ∨ (o.kind, o.name) ∈ x.1.doomed
    | _ => True

instance (cfg : Config) (x : State × List (Kind × GoString)) (e : Event) :
    Decidable (CleansLast cfg x e) :=
  have (t : Turn Processes) : Decidable
      (match t.command with
      | .deleteProject p =>
        ∀ y ∈ x.2, x.1.world.cluster.projectOf y.1 y.2 = some p → y ∈ x.1.doomed
      | .apply o => x.1.world.hasProject o.projectId = true ∨ (o.kind, o.name) ∈ x.1.doomed
      | _ => True) := by
    split
    all_goals infer_instance
  inferInstanceAs (Decidable (_ ∧ _ ∧ _))

/-! ## Commands -/

namespace World

/-- An object after a command is an old one that was not deleted, or was applied. -/
theorem projectOf_exec {c : Command}
    (h : (w.exec cfg c).cluster.projectOf kind name = some p) :
    (w.cluster.projectOf kind name = some p ∧ c ≠ .delete kind name) ∨
      ∃ o, c = .apply o ∧ o.kind = kind ∧ o.name = name ∧ o.projectId = p := by
  cases c with
  | apply o =>
    have hcluster : (w.exec cfg (.apply o)).cluster = w.cluster.apply o := rfl
    rw [hcluster] at h
    by_cases hsame : o.kind = kind → o.name ≠ name
    · rw [(Cluster.same_apply w.cluster o hsame).projectOf_eq] at h
      exact Or.inl ⟨h, by rintro ⟨⟩⟩
    · simp only [ne_eq, Classical.not_imp, not_not] at hsame
      obtain ⟨rfl, rfl⟩ := hsame
      rw [Cluster.projectOf_apply_self, Option.some.injEq] at h
      exact Or.inr ⟨o, rfl, rfl, rfl, h⟩
  | delete kind' name' =>
    have hcluster : (w.exec cfg (.delete kind' name')).cluster = w.cluster.delete kind' name' := rfl
    rw [hcluster] at h
    by_cases hsame : kind' = kind → name' ≠ name
    · rw [(Cluster.same_delete w.cluster hsame).projectOf_eq] at h
      refine Or.inl ⟨h, fun hc => ?_⟩
      cases hc
      exact hsame rfl rfl
    · simp only [ne_eq, Classical.not_imp, not_not] at hsame
      obtain ⟨rfl, rfl⟩ := hsame
      rw [Cluster.projectOf_delete_self] at h
      cases h
  | updateIngressHosts name' hosts =>
    refine Or.inl ⟨?_, by rintro ⟨⟩⟩
    rw [exec] at h
    cases hold : w.cluster.ingresses name' with
    | none =>
      rw [hold] at h
      exact h
    | some ingress =>
      rw [hold] at h
      dsimp only at h
      generalize hnew : Client.updateIngressHosts cfg.baseDomain name' hosts ingress = new at h
      have hproject : new.projectId = ingress.projectId := by rw [← hnew]; rfl
      by_cases hsame : (Object.ingress name' new).kind = kind →
          (Object.ingress name' new).name ≠ name
      · rw [(Cluster.same_apply w.cluster _ hsame).projectOf_eq] at h
        exact h
      · simp only [ne_eq, Classical.not_imp, not_not] at hsame
        obtain ⟨rfl, rfl⟩ := hsame
        rw [Cluster.projectOf_apply_self] at h
        rw [← h]
        simp [Cluster.projectOf, Object.kind, Object.name, Object.projectId, hold, hproject]
  | popProjectCleanup =>
    rw [cluster_popProjectCleanup] at h
    exact Or.inl ⟨h, by rintro ⟨⟩⟩
  | _ =>
    rw [cluster_exec cfg w rfl] at h
    exact Or.inl ⟨h, by rintro ⟨⟩⟩

theorem hasProject_iff : w.hasProject p = true ↔ ∃ q ∈ w.db.projects, q.id = p := by
  simp [hasProject]

theorem hasProject_exec_of_ne {c : Command} (hc : c ≠ .deleteProject p)
    (h : w.hasProject p = true) : (w.exec cfg c).hasProject p = true := by
  obtain ⟨q, hq, hid⟩ := hasProject_iff.mp h
  rw [hasProject_iff, db_exec]
  cases c with
  | commitDraft draft => exact ⟨q, List.mem_append_left _ hq, hid⟩
  | updateProject id dto | setOnlineStatus id dto | replaceEnvironmentVariables id dto =>
    refine ⟨_, List.mem_map.mpr ⟨q, hq, rfl⟩, ?_⟩
    split <;> exact hid
  | createRedeployment d =>
    refine ⟨_, List.mem_map.mpr ⟨q, hq, rfl⟩, ?_⟩
    split <;> exact hid
  | deleteProject id =>
    refine ⟨q, List.mem_filter.mpr ⟨hq, ?_⟩, hid⟩
    rw [bne_iff_ne]
    rintro rfl
    exact hc (by rw [hid])
  | _ => exact ⟨q, hq, hid⟩

theorem hasProject_exec {c : Command} (h : (w.exec cfg c).hasProject p = false)
    (hc : c ≠ .deleteProject p) : w.hasProject p = false := by
  by_contra hrow
  rw [Bool.not_eq_false] at hrow
  rw [hasProject_exec_of_ne hc hrow] at h
  cases h

theorem queuedDeletions_exec {c : Command} (hc : c ≠ .popProjectCleanup)
    (h : x ∈ w.queuedDeletions) : x ∈ (w.exec cfg c).queuedDeletions := by
  cases c with
  | popProjectCleanup => exact absurd rfl hc
  | addProjectCleanupJob job =>
    rw [queuedDeletions, List.mem_flatMap] at h ⊢
    obtain ⟨job', hjob', hx⟩ := h
    exact ⟨job', List.mem_cons_of_mem _ hjob', hx⟩
  | popBuildJob =>
    rw [exec, Queues.waitForJob]
    cases Deque.rpop w.redis.buildQueue <;> exact h
  | updateIngressHosts name hosts =>
    rw [exec]
    cases w.cluster.ingresses name <;> exact h
  | _ => exact h

end World

/-! ## Cleanups -/

theorem mem_deletions {job : ProjectCleanupJob} {left : List Kind} :
    x ∈ ProjectCleanupWorker.deletions job left ↔
      x.1 ∈ left ∧ x.2 = Client.deleteName x.1 (ProjectCleanupWorker.cleanupOptions job) := by
  rw [ProjectCleanupWorker.deletions, List.mem_map]
  constructor
  · rintro ⟨kind, hkind, rfl⟩
    exact ⟨hkind, rfl⟩
  · rintro ⟨hkind, hname⟩
    exact ⟨x.1, hkind, Prod.ext rfl hname.symm⟩

namespace State

/-- The worker process does not end in a step that writes to the cluster. -/
theorem onCluster_of_ends (he : s.ends cfg e = true) {t : Turn Processes}
    (ht : s.turn cfg e = some t) : t.command.onCluster = false := by
  by_contra hc
  rw [Bool.not_eq_false] at hc
  have htouches := touches_turn ht hc
  generalize t.command = c at htouches
  cases htouches with
  | @deploy r b stage o hworker ho hdone =>
    rw [ends, hworker, BuildWorker.step, BuildWorker.processStep, ho] at he
    cases stage with
    | wait => cases ho
    | _ =>
      simp only [Client.DeployStage.next] at he
      rcases next_issue s.world r.outcome (.apply o) (some (BuildWorker.processing b _))
        (some (.failing b.job .markFailed)) [] [.finished b.job.deploymentId .failed] with
        hn | hn <;>
        · rw [hn] at he
          cases he
  | @cancel r job kind left hworker hdone =>
    rw [ends, hworker, BuildWorker.step, BuildWorker.cancelStep] at he
    rcases next_issue s.world r.outcome
      (.delete kind (Client.deleteName kind (BuildWorker.cleanupOptions job)))
      (some (BuildWorker.cancelling job (.cleanup left)))
      (some (.cancelling job (.cleanup left))) [] [] with hn | hn <;>
      · rw [hn] at he
        cases he
  | _ => cases he

theorem background_of_ends (he : s.ends cfg e = true) {t : Turn Processes}
    (ht : s.turn cfg e = some t) : t.command.background = true := by
  cases e with
  | worker r =>
    cases ht
    exact (background_worker cfg s.world r s.procs.worker).command
  | restart =>
    cases ht
    rfl
  | _ => cases he

/-- A deletion stays to be carried out, or is carried out. -/
theorem doomed_projectCleanup {r : Reply} (hclean : s.cleansUp (.projectCleanup r) = true)
    (h : s.step cfg (.projectCleanup r) = some s') (hx : x ∈ s.doomed) :
    x ∈ s'.doomed ∨ ∃ t, s.turn cfg (.projectCleanup r) = some t ∧
      t.command = .delete x.1 x.2 := by
  have hs' := step_projectCleanup h
  rw [doomed, List.mem_append] at hx
  rw [cleansUp] at hclean
  cases hcleanup : s.procs.projectCleanup with
  | idle =>
    rw [hcleanup] at hs' hx hclean
    have hqueued := hx.resolve_right List.not_mem_nil
    cases hpop : s.world.redis.toQueues.popProjectCleanup with
    | none =>
      simp only [ProjectCleanupWorker.step, hpop] at hs'
      rw [hs']
      exact Or.inl (List.mem_append_left _ hqueued)
    | some popped =>
      obtain ⟨job, queues⟩ := popped
      simp only [ProjectCleanupWorker.step, hpop] at hs'
      rw [Queues.popProjectCleanup, Option.map_eq_some_iff] at hpop
      obtain ⟨⟨job', rest⟩, hrpop, heq⟩ := hpop
      cases heq
      have hqueue := Deque.rpop_eq_some_iff.mp hrpop
      refine Or.inl ?_
      cases ho : r.outcome with
      | ok =>
        simp only [ho, issue, World.admits, if_true] at hs'
        have hexec : (s.world.exec cfg .popProjectCleanup).queuedDeletions =
            rest.flatMap fun job =>
              ProjectCleanupWorker.deletions job Client.cleanupStages := by
          simp [World.exec, World.queuedDeletions, Queues.popProjectCleanup, hrpop]
        rw [hs', doomed, List.mem_append]
        rw [World.queuedDeletions, hqueue, List.flatMap_append, List.mem_append] at hqueued
        rcases hqueued with hrest | hlast
        · exact Or.inl (hexec ▸ hrest)
        · exact Or.inr (by simpa [ProjectCleanupWorker.pending] using hlast)
      | lost =>
        rw [ho] at hclean
        cases hclean
      | fail | late =>
        simp only [ho, issue, World.admits, if_true] at hs'
        rw [hs', doomed, List.mem_append]
        exact Or.inl hqueued
  | stopStreaming job ids =>
    rw [hcleanup] at hs' hx
    refine Or.inl ?_
    rw [hs', doomed, List.mem_append]
    cases ids with
    | nil => exact hx
    | cons id ids => exact hx
  | cleanup job left =>
    rw [hcleanup] at hs' hx hclean
    cases left with
    | nil =>
      rw [hs', doomed, List.mem_append]
      exact Or.inl hx
    | cons kind left =>
      have hdone : r.outcome = .ok ∨ r.outcome = .lost := by simpa using hclean
      have hcommand : (ProjectCleanupWorker.step s.world r (.cleanup job (kind :: left))).command =
          .delete kind (Client.deleteName kind (ProjectCleanupWorker.cleanupOptions job)) := by
        rcases hdone with ho | ho <;> rw [ProjectCleanupWorker.step, ho] <;> rfl
      have hnext : (ProjectCleanupWorker.step s.world r (.cleanup job (kind :: left))).next =
          .cleanup job left := by
        rcases hdone with ho | ho <;> rw [ProjectCleanupWorker.step, ho] <;> rfl
      rcases hx with hqueued | hpending
      · rw [hs', doomed, List.mem_append, hcommand]
        exact Or.inl (Or.inl hqueued)
      · obtain ⟨hkind, hname⟩ := mem_deletions.mp hpending
        rcases List.mem_cons.mp hkind with hhead | htail
        · refine Or.inr ⟨_, rfl, ?_⟩
          rw [hcleanup, Turn.map, hcommand, hname, hhead]
        · rw [hs', doomed, List.mem_append, hnext]
          exact Or.inl (Or.inr (mem_deletions.mpr ⟨htail, hname⟩))

theorem doomed_step (hclean : s.cleansUp e = true) (hends : s.ends cfg e = false)
    (h : s.step cfg e = some s') (hx : x ∈ s.doomed) :
    x ∈ s'.doomed ∨ ∃ t, s.turn cfg e = some t ∧ t.command = .delete x.1 x.2 := by
  by_cases he : ∀ r, e ≠ .projectCleanup r
  · refine Or.inl ?_
    obtain ⟨t, ht, _, hs'⟩ := step_eq_some_iff.mp h
    have hloop : s'.procs.projectCleanup = s.procs.projectCleanup := by
      rcases loops_step h with hloops | ⟨hend, _⟩
      · exact hloops.projectCleanup he
      · rw [hends] at hend
        cases hend
    have hpop : t.command ≠ .popProjectCleanup := by
      intro hc
      have htouches := touches_turn ht (by rw [hc]; rfl)
      rw [hc] at htouches
      cases htouches with
      | takeUp => exact he _ rfl
    have hqueue : ∀ y, y ∈ s.world.queuedDeletions → y ∈ s'.world.queuedDeletions := by
      rw [hs']
      exact fun y hy => World.queuedDeletions_exec hpop hy
    rw [doomed, List.mem_append] at hx ⊢
    rw [hloop]
    exact hx.imp_left (hqueue x)
  · simp only [ne_eq, not_forall, not_not] at he
    obtain ⟨r, rfl⟩ := he
    exact doomed_projectCleanup hclean h hx

end State

/-! ## The objects of removed projects -/

theorem World.orphaned_iff : w.orphaned x = true ↔
    ∃ p, w.cluster.projectOf x.1 x.2 = some p ∧ w.hasProject p = false := by
  simp [orphaned, Option.any_eq_true]

/-- The objects in the cluster are among those that deploys wrote. -/
theorem State.applied_step {l : List (Kind × GoString)}
    (h : ∀ x p, s.world.cluster.projectOf x.1 x.2 = some p → x ∈ l)
    (hstep : s.step cfg e = some s') (hp : s'.world.cluster.projectOf x.1 x.2 = some p) :
    x ∈ noteApplied cfg s e s' l := by
  obtain ⟨t, ht, _, rfl⟩ := State.step_eq_some_iff.mp hstep
  rcases World.projectOf_exec hp with ⟨hold, _⟩ | ⟨o, hc, hkind, hname, _⟩
  · exact List.mem_append_left _ (h x p hold)
  · refine List.mem_append_right _ ?_
    rw [ht, Option.elim_some, hc]
    exact List.mem_singleton.mpr (Prod.ext hkind.symm hname.symm)

theorem projectOf_initial (kind : Kind) (name : GoString) :
    State.initial.world.cluster.projectOf kind name = none := by
  cases kind <;> rfl

/-- The objects that deploys wrote are noted, and those of projects without a row are to be
deleted. -/
structure Final (s : State) (l : List (Kind × GoString)) : Prop where
  applied : ∀ x p, s.world.cluster.projectOf x.1 x.2 = some p → x ∈ l
  doomed : ∀ x, s.world.orphaned x = true → x ∈ s.doomed

namespace Final

variable {l : List (Kind × GoString)}

/-- The object of a project without a row is one that a cleanup was to delete before the step, and
the step does not delete it. -/
theorem doomed_before (h : Final s l) (hok : CleansLast cfg (s, l) e) {t : Turn Processes}
    (ht : s.turn cfg e = some t)
    (hp : (s.world.exec cfg t.command).cluster.projectOf x.1 x.2 = some p)
    (hrow : (s.world.exec cfg t.command).hasProject p = false) :
    (x ∈ s.doomed ∧ t.command ≠ .delete x.1 x.2) ∧
      (s.ends cfg e = true → x ∈ s.world.queuedDeletions) := by
  obtain ⟨_, hends, hcommand⟩ := hok
  have hallowed := hcommand t ht
  rcases World.projectOf_exec hp with ⟨hold, hkept⟩ | ⟨o, hc, hkind, hname, hproject⟩
  · by_cases hc : t.command = .deleteProject p
    · rw [hc] at hallowed
      refine ⟨⟨hallowed x (h.applied x p hold) hold, hkept⟩, fun hend => ?_⟩
      have hbackground := State.background_of_ends hend ht
      rw [hc] at hbackground
      cases hbackground
    · have horphaned : s.world.orphaned x = true :=
        World.orphaned_iff.mpr ⟨p, hold, World.hasProject_exec hrow hc⟩
      exact ⟨⟨h.doomed x horphaned, hkept⟩,
        fun hend => hends hend x (h.applied x p hold) horphaned⟩
  · have hgone : s.world.hasProject o.projectId = false := by
      rw [hproject]
      exact World.hasProject_exec hrow (by rw [hc]; exact nofun)
    rw [hc] at hallowed
    have hmem := hallowed.resolve_left (by simp [hgone])
    have hx : (o.kind, o.name) = x := Prod.ext hkind hname
    refine ⟨⟨hx ▸ hmem, by rw [hc]; exact nofun⟩, fun hend => ?_⟩
    have hoff := State.onCluster_of_ends hend ht
    rw [hc] at hoff
    cases hoff

theorem step (h : Final s l) (hok : CleansLast cfg (s, l) e) (hstep : s.step cfg e = some s') :
    Final s' (noteApplied cfg s e s' l) where
  applied x p hp := State.applied_step h.applied hstep hp
  doomed x hx := by
    obtain ⟨p, hp, hrow⟩ := World.orphaned_iff.mp hx
    obtain ⟨t, ht, _, hs'⟩ := State.step_eq_some_iff.mp hstep
    have hworld : s'.world = (s.world.exec cfg t.command).record t.entries := by rw [hs']; rfl
    rw [hworld] at hp hrow
    obtain ⟨⟨hdoomed, hkept⟩, hqueued⟩ := h.doomed_before hok ht hp hrow
    cases hend : s.ends cfg e with
    | false =>
      rcases State.doomed_step hok.1 hend hstep hdoomed with hstill | ⟨t', ht', hc⟩
      · exact hstill
      · cases ht.symm.trans ht'
        exact absurd hc hkept
    | true =>
      refine List.mem_append_left _ ?_
      rw [hworld]
      refine World.queuedDeletions_exec ?_ (hqueued hend)
      intro hc
      have hoff := State.onCluster_of_ends hend ht
      rw [hc] at hoff
      cases hoff

end Final

theorem final_initial : Final State.initial [] where
  applied x p h := by
    rw [projectOf_initial] at h
    cases h
  doomed x h := by
    obtain ⟨p, hp, _⟩ := World.orphaned_iff.mp h
    rw [projectOf_initial] at hp
    cases hp

/-- Once the cleanup queue is drained and no cleanup is under way, no object of a project without
a row is left, if every row was deleted and every deploy of a removed project was made while
cleanups were still to delete the project's objects. -/
theorem removal_is_final {s : State} {l : List (Kind × GoString)}
    (h : Reaches (stepNoting (State.step cfg) (noteApplied cfg)) (CleansLast cfg)
      (State.initial, []) (s, l))
    (hqueue : s.world.redis.cleanupQueue = []) (hidle : s.procs.projectCleanup = .idle)
    (hrow : s.world.hasProject p = false) (kind : Kind) (name : GoString) :
    s.world.cluster.projectOf kind name ≠ some p := by
  have hfinal : Final s l := by
    refine h.invariant (fun x => Final x.1 x.2) final_initial ?_
    rintro x e y hx hok hstep
    obtain ⟨hs', hl'⟩ := stepNoting_eq_some_iff.mp hstep
    rw [hl']
    exact hx.step hok hs'
  intro hp
  have hdoomed := hfinal.doomed (kind, name) (World.orphaned_iff.mpr ⟨p, hp, hrow⟩)
  rw [State.doomed, World.queuedDeletions, hqueue, hidle] at hdoomed
  exact absurd hdoomed List.not_mem_nil

/-! ## A shop that is removed -/

def shopRemoved (deployments : Nat) : List Event :=
  shopRequest (.removeProject 1 1) (deployments + 3) ++
    List.replicate 9 (.projectCleanup shopReply)

theorem removal_is_final_shop :
    ∃ s l, Reaches (stepNoting (State.step Config.clear) (noteApplied Config.clear))
        (CleansLast Config.clear) (State.initial, []) (s, l) ∧
      (.ingress, utf8 "shop") ∈ l ∧ s.world.cluster.projectOf .ingress (utf8 "shop") ≠ some 1 := by
  obtain ⟨⟨s, l⟩, h, hend⟩ := Reaches.exists_of_runEvents
    (stepNoting (State.step Config.clear) (noteApplied Config.clear)) (CleansLast Config.clear)
    (State.initial, []) (shopCreated ++ shopWorker 23 ++ shopRemoved 0)
    (fun x => x.1.world.redis.cleanupQueue.isEmpty &&
      (match x.1.procs.projectCleanup with
        | .idle => true
        | _ => false) && !x.1.world.hasProject 1 && x.2.contains (.ingress, utf8 "shop"))
    (by decide) (by decide)
  simp only [Bool.and_eq_true, List.isEmpty_iff, Bool.not_eq_true', List.contains_iff_mem] at hend
  obtain ⟨⟨⟨hqueue, hidle⟩, hrow⟩, hmem⟩ := hend
  have hidle' : s.procs.projectCleanup = .idle := by
    cases hcleanup : s.procs.projectCleanup with
    | idle => rfl
    | _ =>
      rw [hcleanup] at hidle
      cases hidle
  exact ⟨s, l, h, hmem, removal_is_final h hqueue hidle' hrow .ingress (utf8 "shop")⟩

/-- The shop is removed and cleaned up while its objects are rolled out. -/
theorem not_removal_is_final :
    ¬∀ (cfg : Config) (s : State) (p : ProjectId),
      Reaches (State.step cfg) (fun _ e => e.succeeds = true) State.initial s →
        s.procs.calls = [] → s.world.redis.cleanupQueue = [] → s.procs.projectCleanup = .idle →
          s.world.redis.buildQueue = [] → s.procs.worker = .idle →
            s.world.hasProject p = false → ∀ kind name,
              s.world.cluster.projectOf kind name ≠ some p := by
  intro h
  obtain ⟨s, hs, hend⟩ := Reaches.exists_of_runEvents (State.step Config.clear)
    (fun _ e => e.succeeds = true) State.initial
    (shopCreated ++ shopWorker 17 ++ shopRemoved 1 ++ shopWorker 6)
    (fun s => s.procs.calls.isEmpty && s.world.redis.cleanupQueue.isEmpty &&
      (match s.procs.projectCleanup with
        | .idle => true
        | _ => false) && s.world.redis.buildQueue.isEmpty && decide (s.procs.worker = .idle) &&
      !s.world.hasProject 1 && s.world.cluster.projectOf .ingress (utf8 "shop") == some 1)
    (by decide) (by decide)
  simp only [Bool.and_eq_true, List.isEmpty_iff, Bool.not_eq_true', decide_eq_true_eq,
    beq_iff_eq] at hend
  obtain ⟨⟨⟨⟨⟨⟨hcalls, hcleanups⟩, hcleanup⟩, hbuilds⟩, hworker⟩, hrow⟩, hingress⟩ := hend
  have hidle : s.procs.projectCleanup = .idle := by
    cases hproc : s.procs.projectCleanup with
    | idle => rfl
    | _ =>
      rw [hproc] at hcleanup
      cases hcleanup
  exact h Config.clear s 1 hs hcalls hcleanups hidle hbuilds hworker hrow .ingress (utf8 "shop")
    hingress

end System
end Code2Cloud
