import Code2Cloud.System.Pushes

/-!
# Builds in flight

Redeploys and pushes for one project.  Each looks for a build in progress before it
inserts its own row, in a request of its own: what it has found holds as long as no other
row is inserted in between.
-/

namespace Code2Cloud
namespace System

open Api Worker

variable {cfg : Config} {w : World} {s s' : State} {p : ProjectId}

namespace World

/-- A deployment of the project in progress that no cancel signal was published for. -/
def contends (w : World) (p : ProjectId) (d : Deployment) : Bool :=
  d.projectId == p && d.status.inProgress && (lastPublished d.id w.log).isNone

def inFlight (w : World) (p : ProjectId) : Nat := w.db.deployments.countP (w.contends p)

def built (w : World) (p : ProjectId) : Nat := w.db.deployments.countP fun d => d.projectId == p

end World

/-- Requests to build, the passing of time, and rows changing places in their table. -/
def Event.builds : Event → Bool
  | .tick _ | .call _ _ | .request (.createDeployment _ _) | .request (.push _)
  | .edit (.shuffleDeployments _) => true
  | _ => false

def Call.looks : Call → Bool
  | .createDeployment (.findLatest _ _ _) | .push (.findProjects _) => true
  | _ => false

/-- The projects that a call is to insert rows for, each with the deployment in progress that is to
be cancelled before. -/
def Call.targets : Call → List (ProjectId × Option DeploymentId)
  | .createDeployment (.getLatestCommit _ l _) | .createDeployment (.insert _ l _ _) =>
    [(l.project.id, none)]
  | .push y => y.targets
  | _ => []

/-- Beside each call, how many deployments the project had when the call looked. -/
def noteLooks (p : ProjectId) (s : State) (e : Event) (s' : State) (looked : List Nat) :
    List Nat :=
  match e with
  | .request _ => looked ++ [0]
  | .call i _ =>
    if s'.procs.calls.length < s.procs.calls.length then looked.eraseIdx i
    else if (s.procs.calls[i]?).any Call.looks then looked.set i (s.world.built p)
    else looked
  | _ => looked

/-- The condition on a step: a call inserts a row for the project only when no row was inserted for
it since the call looked, and not in the same millisecond as another row. -/
def Serial (cfg : Config) (p : ProjectId) (x : State × List Nat) (e : Event) : Prop :=
  ∀ t ∈ x.1.turn cfg e, ∀ d ∈ t.command.inserted, d.projectId = p →
    (∀ i r, e = .call i r → x.2[i]? = some (x.1.world.built p)) ∧
      ∀ d' ∈ x.1.world.db.deployments, d'.projectId = p → d'.startedAt < d.startedAt

instance (cfg : Config) (p : ProjectId) (x : State × List Nat) (e : Event) :
    Decidable (Serial cfg p x e) := by
  unfold Serial
  have (n : Nat) : Decidable (∀ i r, e = .call i r → x.2[i]? = some n) :=
    match e with
    | .call i r => decidable_of_iff (x.2[i]? = some n)
        ⟨fun h _ _ heq => by cases heq; exact h, fun h => h i r rfl⟩
    | .tick _ | .request _ | .edit _ | .worker _ | .sweep _ | .projectCleanup _
    | .domainWorker _ | .restart => isTrue nofun
  exact Option.decidableForallMem _

/-! ## What puts a build in flight -/

namespace World

theorem contends_record (w : World) {entries : List Entry} (h : writtenBy .api entries = true)
    (d : Deployment) : (w.record entries).contends p d = w.contends p d := by
  rw [contends, contends, record_log, lastPublished_record _ h nofun]

theorem inFlight_record (w : World) {entries : List Entry} (h : writtenBy .api entries = true) :
    (w.record entries).inFlight p = w.inFlight p :=
  List.countP_congr fun d _ => by rw [contends_record w h]

theorem projectId_of_contends {d : Deployment} (h : w.contends p d = true) :
    d.projectId = p ∧ d.status.inProgress = true := by
  rw [contends, Bool.and_eq_true, Bool.and_eq_true] at h
  exact ⟨eq_of_beq h.1.1, h.1.2⟩

theorem contends_publish {d : Deployment} {id : DeploymentId}
    (h : (w.exec cfg (.publishCancelSignal id)).contends p d = true) :
    w.contends p d = true ∧ d.id ≠ id := by
  rw [contends, Bool.and_eq_true] at h
  have hlast := h.2
  rw [Option.isNone_iff_eq_none] at hlast
  have hnone : writtenBy .api [] = true := rfl
  constructor
  · rw [contends, Bool.and_eq_true, Option.isNone_iff_eq_none]
    refine ⟨h.1, ?_⟩
    by_contra hsome
    obtain ⟨t, ht⟩ := Option.ne_none_iff_exists'.mp hsome
    have hkept := isSome_lastPublished_turn cfg (.publishCancelSignal id) hnone nofun
      (show (lastPublished d.id w.log).isSome by rw [ht]; rfl)
    rw [record_log, List.append_nil, hlast] at hkept
    cases hkept
  · rintro rfl
    have hpublished : lastPublished d.id
        ((w.exec cfg (.publishCancelSignal d.id)).record []).log = some w.now :=
      lastPublished_publish cfg hnone nofun
    rw [record_log, List.append_nil, hlast] at hpublished
    cases hpublished

/-- What is in flight after a command of a redeploy or a push was so before, and its row was not
written, or is the row that the command inserts. -/
theorem contends_exec {c : Command} (hc : c.builds = true) {d : Deployment}
    (hd : d ∈ (w.exec cfg c).db.deployments) (h : (w.exec cfg c).contends p d = true) :
    d ∈ c.inserted ∨ d ∈ w.db.deployments ∧ w.contends p d = true ∧
      (∀ st, c ≠ .writeStatus d.id st) ∧ c ≠ .publishCancelSignal d.id := by
  cases c with
  | skip | addBuildJob => exact Or.inr ⟨hd, h, nofun, nofun⟩
  | createDeployment e | createRedeployment e =>
    rcases List.mem_append.mp hd with hd | hd
    · exact Or.inr ⟨hd, h, nofun, nofun⟩
    · exact Or.inl hd
  | publishCancelSignal id =>
    obtain ⟨hcontends, hid⟩ := contends_publish h
    refine Or.inr ⟨hd, hcontends, nofun, fun heq => hid ?_⟩
    cases heq
    rfl
  | writeStatus id x =>
    obtain ⟨e, he, rfl⟩ := List.mem_map.mp hd
    split at h
    · rename_i hid
      have hprogress := (projectId_of_contends h).2
      rw [StatusWrite.apply_status] at hprogress
      cases x with
      | webhookCancel => cases hprogress
      | _ => cases hc
    · rename_i hid
      rw [if_neg hid]
      refine Or.inr ⟨he, h, fun st heq => hid ?_, nofun⟩
      cases heq
      rfl
  | _ => cases hc

/-- They put a build in flight only by inserting its row. -/
theorem inFlight_exec (cfg : Config) (w : World) (p : ProjectId) {c : Command}
    (hc : c.builds = true) :
    (w.exec cfg c).inFlight p ≤ w.inFlight p + c.inserted.countP fun d => d.projectId == p := by
  cases c with
  | skip | addBuildJob => exact Nat.le_add_right _ _
  | createDeployment d | createRedeployment d =>
    show (w.db.deployments ++ [d]).countP (w.contends p) ≤ _
    rw [List.countP_append]
    refine Nat.add_le_add_left (List.countP_mono_left fun d _ h => ?_) _
    exact beq_iff_eq.mpr (projectId_of_contends h).1
  | publishCancelSignal id =>
    exact Nat.le_add_right_of_le (List.countP_mono_left fun d _ h => (contends_publish h).1)
  | writeStatus id x =>
    show (w.db.deployments.map fun d => if d.id = id then x.apply w.now d else d).countP
      (w.contends p) ≤ _
    rw [List.countP_map]
    refine Nat.le_add_right_of_le (List.countP_mono_left fun d _ h => ?_)
    rw [Function.comp_apply] at h
    split at h
    · rw [contends, StatusWrite.apply_status] at h
      cases x with
      | webhookCancel => simp [StatusWrite.status, DeploymentStatus.inProgress] at h
      | _ => cases hc
    · exact h
  | _ => cases hc

theorem inFlight_exec_le_one {c : Command} (hc : c.builds = true) (hone : w.inFlight p ≤ 1)
    (hroom : ∀ d ∈ c.inserted, d.projectId = p → w.inFlight p = 0) :
    (w.exec cfg c).inFlight p ≤ 1 := by
  have hle := inFlight_exec cfg w p hc
  by_cases hnone : (c.inserted.countP fun d => d.projectId == p) = 0
  · omega
  · obtain ⟨d, hd, hproject⟩ := List.countP_pos_iff.mp (Nat.pos_of_ne_zero hnone)
    have hzero := hroom d hd (eq_of_beq hproject)
    have hrows : c.inserted.length ≤ 1 := by
      cases c <;> simp [Command.inserted]
    have hcount := List.countP_le_length (p := fun d : Deployment => d.projectId == p)
      (l := c.inserted)
    omega

theorem built_exec (cfg : Config) (w : World) (p : ProjectId) {c : Command}
    (hc : c.builds = true) : (w.exec cfg c).built p =
      w.built p + c.inserted.countP fun d => d.projectId == p := by
  cases c with
  | skip | addBuildJob | publishCancelSignal => rfl
  | createDeployment d | createRedeployment d => exact List.countP_append
  | writeStatus id x =>
    show (w.db.deployments.map fun d => if d.id = id then x.apply w.now d else d).countP _ = _
    rw [List.countP_map]
    refine List.countP_congr fun d _ => ?_
    rw [Function.comp_apply]
    split
    · rw [StatusWrite.apply_projectId]
    · rfl
  | _ => cases hc

/-- A build in flight started after every other one of its project. -/
def Newest (w : World) (p : ProjectId) : Prop :=
  ∀ d ∈ w.db.deployments, w.contends p d = true → ∀ d' ∈ w.db.deployments, d'.projectId = p →
    d' = d ∨ d'.startedAt < d.startedAt

instance (w : World) (p : ProjectId) : Decidable (w.Newest p) := List.decidableBAll _ _

theorem newest_exec {c : Command} (hc : c.builds = true) (hw : w.Newest p)
    (hinserted : ∀ d ∈ c.inserted, d.projectId = p → w.inFlight p = 0 ∧
      ∀ d' ∈ w.db.deployments, d'.projectId = p → d'.startedAt < d.startedAt) :
    (w.exec cfg c).Newest p := by
  have hshuffle : ∀ rows, c = .shuffleDeployments rows → rows.Perm w.db.deployments := by
    rintro rows rfl
    cases hc
  have hone : ∀ a ∈ c.inserted, ∀ b ∈ c.inserted, a = b := by cases c <;> simp [Command.inserted]
  intro d hd hcontends d' hd' hproject
  rcases contends_exec hc hd hcontends with hnew | ⟨hold, hcontends, hwrite, _⟩
  · have hlater := (hinserted d hnew (projectId_of_contends hcontends).1).2
    rcases mem_deployments_exec hshuffle hd' with hnew' | ⟨e, he, _, rfl | ⟨st, rfl, rfl⟩⟩
    · exact Or.inl (hone d' hnew' d hnew)
    · exact Or.inr (hlater d' he hproject)
    · cases hnew
  · rcases mem_deployments_exec hshuffle hd' with hnew' | ⟨e, he, _, rfl | ⟨st, rfl, rfl⟩⟩
    · have hzero := (hinserted d' hnew' hproject).1
      rw [inFlight, List.countP_eq_zero] at hzero
      exact absurd hcontends (hzero d hold)
    · exact hw d hold hcontends d' he hproject
    · rw [StatusWrite.apply_projectId] at hproject
      rw [StatusWrite.apply_startedAt]
      rcases hw d hold hcontends e he hproject with rfl | hlt
      · exact absurd rfl (hwrite st)
      · exact Or.inr hlt

/-! ## What a call finds -/

/-- The only deployment of the project that may be in flight is the given one. -/
def Covered (w : World) (p : ProjectId) (current : Option DeploymentId) : Prop :=
  ∀ d ∈ w.db.deployments, w.contends p d = true → current = some d.id

theorem Covered.inFlight (h : w.Covered p none) : w.inFlight p = 0 :=
  List.countP_eq_zero.mpr fun d hd hcontends =>
    absurd (h d hd hcontends) (Option.some_ne_none d.id).symm

theorem mem_deploymentsOf {db : Database} {d : Deployment} :
    d ∈ db.deploymentsOf p ↔ d ∈ db.deployments ∧ d.projectId = p := by
  rw [Database.deploymentsOf, List.mem_filter, beq_iff_eq]

/-- A redeploy goes on only if no build is in flight. -/
theorem covered_of_latest (hw : w.Newest p)
    (h : (Database.latest (w.db.deploymentsOf p)).any (fun d => d.status.inProgress) = false) :
    w.Covered p none := by
  intro d hd hcontends
  obtain ⟨hproject, hprogress⟩ := projectId_of_contends hcontends
  have hlatest : Database.latest (w.db.deploymentsOf p) = some d :=
    Database.latest_eq_some (mem_deploymentsOf.mpr ⟨hd, hproject⟩) fun e he =>
      hw d hd hcontends e (mem_deploymentsOf.mp he).1 (mem_deploymentsOf.mp he).2
  rw [hlatest, Option.any_some, hprogress] at h
  cases h

/-- A push finds the build in flight. -/
theorem covered_target {q : Project} (hw : w.Newest q.id) :
    w.Covered q.id (WebhooksService.candidate w.db q).target.2 := by
  intro d hd hcontends
  obtain ⟨hproject, hprogress⟩ := projectId_of_contends hcontends
  have hactive : d.status.active = true := by
    cases hstatus : d.status <;> rw [hstatus] at hprogress <;> first | rfl | cases hprogress
  have hlatest : Database.latest ((w.db.deploymentsOf q.id).filter fun d => d.status.active) =
      some d :=
    Database.latest_eq_some
      (List.mem_filter.mpr ⟨mem_deploymentsOf.mpr ⟨hd, hproject⟩, hactive⟩) fun e he => by
        have he := mem_deploymentsOf.mp (List.mem_filter.mp he).1
        exact hw d hd hcontends e he.1 he.2
  simp only [WebhooksService.candidate, WebhooksService.Candidate.target, hlatest, Option.map_some,
    Option.bind_some, hprogress, if_true]

end World

/-- For each row of the project that the call is to insert, the build in flight is to be cancelled
first. -/
def Call.Covers (w : World) (p : ProjectId) (c : Call) : Prop :=
  ∀ t ∈ c.targets, t.1 = p → w.Covered p t.2

/-- A call that looks goes on with what it has found. -/
theorem covers_of_looks {c c' : Call} {r : Reply} (hw : w.Newest p) (hc : c.looks = true)
    (h : (c.step cfg w r).next = some c') : c'.Covers w p := by
  cases c with
  | createDeployment c =>
    cases c with
    | findLatest userId l accounts =>
      obtain ⟨x, hx, rfl⟩ := toCall_eq_some h
      rw [DeploymentsService.Create.step, query] at hx
      split at hx
      · simp only [Turn.pure] at hx
        split at hx
        · cases hx
        · rename_i hlatest
          split at hx
          · cases hx
          · cases hx
            intro t ht hproject
            obtain rfl := List.mem_singleton.mp ht
            obtain rfl : l.project.id = p := hproject
            exact World.covered_of_latest hw (Bool.eq_false_iff.mpr hlatest)
      · cases hx
    | _ => cases hc
  | push c =>
    cases c with
    | findProjects payload =>
      obtain ⟨y, hy, rfl⟩ := toCall_eq_some h
      intro t ht hproject
      rw [WebhooksService.Push.step] at hy
      split at hy
      · cases hy
      · split at hy
        · cases hy
        · rw [query] at hy
          split at hy
          · have hmem := (WebhooksService.targets_loop hy).subset ht
            obtain ⟨candidate, hcandidate, rfl⟩ := List.mem_map.mp hmem
            obtain ⟨q, _, _, _, _, rfl⟩ := WebhooksService.mem_candidates.mp hcandidate
            obtain rfl : q.id = p := hproject
            exact World.covered_target hw
          · cases hy
    | _ => cases hc
  | _ => cases hc

/-- Any other call goes on with the rows that it was to insert, and with one less to cancel when it
has published a signal. -/
theorem targets_of_not_looks {c c' : Call} {r : Reply} (hbuilds : c.builds = true)
    (hc : c.looks = false) (h : (c.step cfg w r).next = some c')
    {t : ProjectId × Option DeploymentId} (ht : t ∈ c'.targets) :
    t ∈ c.targets ∨ ∃ id, (t.1, some id) ∈ c.targets ∧
      (c.step cfg w r).command = .publishCancelSignal id := by
  cases c with
  | createDeployment c =>
    obtain ⟨x, hx, rfl⟩ := toCall_eq_some h
    cases c with
    | findLatest => cases hc
    | findProject | findGitAccounts =>
      rw [DeploymentsService.Create.step, query] at hx
      split at hx
      · simp only [Turn.pure] at hx
        split at hx <;> cases hx
        cases ht
      · cases hx
    | getLatestCommit =>
      cases hx
      exact Or.inl ht
    | insert userId l installationId commit =>
      rw [DeploymentsService.Create.step] at hx
      rcases next_issue w r.outcome (.createRedeployment (DeploymentsService.row w userId l commit))
        (Flow.next (DeploymentsService.Create.enqueue (DeploymentsService.job cfg.encryption l
          installationId commit (DeploymentsService.row w userId l commit).id)))
        (.throw .internal) [] [] with hn | hn <;>
        rw [hn] at hx <;> cases hx
      cases ht
    | enqueue job =>
      rw [DeploymentsService.Create.step] at hx
      rcases next_issue w r.outcome (.addBuildJob job) (.done : Flow DeploymentsService.Create)
        (.throw .internal) [] [] with hn | hn <;> rw [hn] at hx <;> cases hx
  | push y =>
    obtain ⟨x, hx, rfl⟩ := toCall_eq_some h
    rcases WebhooksService.targets_step hx with ⟨payload, rfl, _⟩ |
      ⟨q, id, rest, hy, hx', hcommand⟩ | hsuffix
    · cases hc
    · rw [Call.targets, hx'] at ht
      rw [Call.targets, hy]
      rcases List.mem_cons.mp ht with rfl | ht
      · exact Or.inr ⟨id, List.mem_cons_self, hcommand⟩
      · exact Or.inl (List.mem_cons_of_mem _ ht)
    · exact Or.inl (hsuffix.subset ht)
  | _ => cases hbuilds

/-- A call inserts a row when it has no deployment of the project left to cancel. -/
theorem targets_of_inserted {c : Call} {r : Reply} (hbuilds : c.builds = true) {d : Deployment}
    (h : d ∈ (c.step cfg w r).command.inserted) : (d.projectId, none) ∈ c.targets := by
  cases c with
  | createDeployment c =>
    rw [Call.step, Turn.command_map] at h
    cases c with
    | insert userId l installationId commit =>
      rw [DeploymentsService.Create.step] at h
      rcases command_issue w r.outcome
        (.createRedeployment (DeploymentsService.row w userId l commit))
        (Flow.next (DeploymentsService.Create.enqueue (DeploymentsService.job cfg.encryption l
          installationId commit (DeploymentsService.row w userId l commit).id)))
        (.throw .internal) [] [] with hn | hn <;>
        rw [hn] at h
      · rw [List.mem_singleton.mp h]
        exact List.mem_cons_self
      · cases h
    | findProject | findGitAccounts | findLatest =>
      rw [DeploymentsService.Create.step, inserted_query] at h
      cases h
    | getLatestCommit => cases h
    | enqueue =>
      rw [DeploymentsService.Create.step, inserted_issue rfl] at h
      cases h
  | push y =>
    rw [Call.step, Turn.command_map] at h
    exact WebhooksService.targets_insert h
  | _ => cases hbuilds

/-! ## Steps -/

namespace World

theorem newest_record {entries : List Entry} (h : writtenBy .api entries = true) :
    (w.record entries).Newest p ↔ w.Newest p := by
  simp only [Newest, contends_record w h, record_db]

theorem covered_record {entries : List Entry} (h : writtenBy .api entries = true)
    {current : Option DeploymentId} :
    (w.record entries).Covered p current ↔ w.Covered p current := by
  simp only [Covered, contends_record w h, record_db]

/-- What was found holds until a row is inserted. -/
theorem Covered.exec {c : Command} (hc : c.builds = true) {current : Option DeploymentId}
    (hw : w.Covered p current) (hnone : (c.inserted.countP fun d => d.projectId == p) = 0) :
    (w.exec cfg c).Covered p current := by
  intro d hd hcontends
  rcases contends_exec hc hd hcontends with hnew | ⟨hold, hcontends, _⟩
  · rw [List.countP_eq_zero] at hnone
    exact absurd (beq_iff_eq.mpr (projectId_of_contends hcontends).1) (hnone d hnew)
  · exact hw d hold hcontends

theorem Covered.publish {id : DeploymentId} (hw : w.Covered p (some id))
    (current : Option DeploymentId) :
    (w.exec cfg (.publishCancelSignal id)).Covered p current := by
  intro d hd hcontends
  obtain ⟨hcontends, hid⟩ := contends_publish hcontends
  exact absurd (Option.some.inj (hw d hd hcontends)).symm hid

end World

def State.Builds (s : State) : Prop := ∀ c ∈ s.procs.calls, c.builds = true

theorem State.builds_step {e : Event} (hs : s.Builds) (he : e.builds = true)
    (h : s.step cfg e = some s') : s'.Builds := by
  cases e with
  | tick milliseconds =>
    rw [step_tick h]
    exact hs
  | edit e =>
    rw [(step_edit h).2]
    exact hs
  | request r =>
    rw [step_request h]
    intro c hc
    rcases List.mem_append.mp hc with hc | hc
    · exact hs c hc
    · rw [List.mem_singleton.mp hc]
      cases r <;> first | rfl | cases he
  | call i r =>
    obtain ⟨before, c, later, hcalls, _, _, rfl⟩ := step_call h
    rw [Builds, hcalls] at hs
    intro c' hc'
    simp only [List.mem_append, Option.mem_toList] at hc'
    rcases hc' with (hc' | hc') | hc'
    · exact hs c' (List.mem_append_left _ hc')
    · exact builds_next (hs c (by simp)) hc'
    · exact hs c' (List.mem_append_right _ (List.mem_cons_of_mem c hc'))
  | _ => cases he

/-- What a call has found still holds if no row was inserted since it looked. -/
def Call.Knows (w : World) (p : ProjectId) (c : Call) (looked : Nat) : Prop :=
  looked ≤ w.built p ∧ (looked = w.built p → c.Covers w p)

structure Guarded (p : ProjectId) (x : State × List Nat) : Prop where
  builds : x.1.Builds
  one : x.1.world.inFlight p ≤ 1
  newest : x.1.world.Newest p
  length : x.1.procs.calls.length = x.2.length
  looked : ∀ cn ∈ x.1.procs.calls.zip x.2, cn.1.Knows x.1.world p cn.2

/-- What a call knows after a step of a call: the same as before, where no row was inserted. -/
theorem knows_exec {c c' : Call} {n : Nat} {r : Reply} (hc : c.builds = true)
    (hle : n ≤ w.built p)
    (hcovers : n = w.built p →
      ((c.step cfg w r).command.inserted.countP fun d => d.projectId == p) = 0 →
        c'.Covers (w.exec cfg (c.step cfg w r).command) p) :
    c'.Knows ((w.exec cfg (c.step cfg w r).command).record (c.step cfg w r).entries) p n := by
  have hbuilt := World.built_exec cfg w p (builds_call cfg w hc r)
  refine ⟨?_, fun hn t ht hproject => ?_⟩
  · show n ≤ (w.exec cfg (c.step cfg w r).command).built p
    omega
  · have hn : n = (w.exec cfg (c.step cfg w r).command).built p := hn
    rw [World.covered_record (foreground_call cfg w r c).entries]
    exact hcovers (by omega) (by omega) t ht hproject

/-- What another call has found is not changed by a call that inserts nothing. -/
theorem Call.Knows.turn {c c' : Call} {n : Nat} {r : Reply} (hc : c.builds = true)
    (h : c'.Knows w p n) :
    c'.Knows ((w.exec cfg (c.step cfg w r).command).record (c.step cfg w r).entries) p n :=
  knows_exec hc h.1 fun hn hnone t ht hproject =>
    (h.2 hn t ht hproject).exec (builds_call cfg w hc r) hnone

/-- A call knows what it has found, or what it goes on with. -/
theorem knows_next {c c' : Call} {n : Nat} {r : Reply} (hc : c.builds = true) (hw : w.Newest p)
    (h : c.Knows w p n) (hnext : (c.step cfg w r).next = some c') :
    c'.Knows ((w.exec cfg (c.step cfg w r).command).record (c.step cfg w r).entries) p
      (if c.looks then w.built p else n) := by
  have hcommand := builds_call cfg w hc r
  cases hlooks : c.looks with
  | true =>
    exact knows_exec hc (Nat.le_refl _) fun _ hnone t ht hproject =>
      (covers_of_looks hw hlooks hnext t ht hproject).exec hcommand hnone
  | false =>
    refine knows_exec hc h.1 fun hn hnone t ht hproject => ?_
    have hcovers := h.2 hn
    rcases targets_of_not_looks hc hlooks hnext ht with ht | ⟨id, ht, hpublish⟩
    · exact (hcovers t ht hproject).exec hcommand hnone
    · rw [hpublish]
      exact (hcovers _ ht hproject).publish t.2

/-- The ledger keeps step with the calls. -/
theorem noteLooks_call {before later : List Call} {c : Call} {next : Option Call}
    {front behind : List Nat} {n : Nat} {r : Reply}
    (hcalls : s.procs.calls = before ++ c :: later)
    (hcalls' : s'.procs.calls = before ++ next.toList ++ later)
    (hfront : before.length = front.length) :
    noteLooks p s (.call before.length r) s' (front ++ n :: behind) =
      front ++ (next.toList.map fun _ => if c.looks then s.world.built p else n) ++ behind := by
  have hcalled : s.procs.calls[before.length]? = some c := by
    rw [hcalls, List.getElem?_append_right (Nat.le_refl _), Nat.sub_self]
    rfl
  rw [noteLooks, hcalled, hcalls, hcalls', hfront]
  cases next with
  | none =>
    rw [if_pos (by simp [hfront]), List.eraseIdx_append_of_length_le (Nat.le_refl _), Nat.sub_self]
    simp
  | some c' =>
    rw [if_neg (by simp), Option.any_some]
    split
    · rw [List.set_append_right _ _ (Nat.le_refl _), Nat.sub_self]
      simp
    · simp

theorem guarded_call {x y : State × List Nat} {i : Nat} {r : Reply} (hs : Guarded p x)
    (hserial : Serial cfg p x (.call i r))
    (h : stepNoting (State.step cfg) (noteLooks p) x (.call i r) = some y) : Guarded p y := by
  obtain ⟨hstep, hnote⟩ := stepNoting_eq_some_iff.mp h
  have hbuilds := State.builds_step hs.builds rfl hstep
  obtain ⟨before, c, later, hcalls, rfl, _, hy⟩ := State.step_call hstep
  have hlength := hs.length
  rw [hcalls, List.length_append, List.length_cons] at hlength
  -- the ledger is split as the calls are
  obtain ⟨front, n, behind, hlooked, hfront⟩ : ∃ front n behind, x.2 = front ++ n :: behind ∧
      before.length = front.length := by
    have hlt : before.length < x.2.length := by omega
    refine ⟨x.2.take before.length, x.2[before.length], x.2.drop (before.length + 1), ?_, ?_⟩
    · rw [List.getElem_cons_drop, List.take_append_drop]
    · rw [List.length_take]
      omega
  rw [hlooked, List.length_append, List.length_cons] at hlength
  have hknown := hs.looked
  rw [hcalls, hlooked, List.zip_append hfront, List.zip_cons_cons] at hknown
  have hc : c.builds = true := hs.builds c (by rw [hcalls]; simp)
  have hcommand := builds_call cfg x.1.world hc r
  have hentries := (foreground_call cfg x.1.world r c).entries
  have hknows := hknown (c, n) (by simp)
  -- the guard of the call is used here: what it has found makes room for its row
  have hinserted : ∀ d ∈ (c.step cfg x.1.world r).command.inserted, d.projectId = p →
      x.1.world.inFlight p = 0 ∧ ∀ d' ∈ x.1.world.db.deployments, d'.projectId = p →
        d'.startedAt < d.startedAt := by
    intro d hd hproject
    obtain ⟨hlook, hlater⟩ := hserial _ (State.turn_call cfg hcalls r) d hd hproject
    have hn := hlook before.length r rfl
    rw [hlooked, hfront, List.getElem?_append_right (Nat.le_refl _), Nat.sub_self,
      List.getElem?_cons_zero, Option.some.injEq] at hn
    exact ⟨(hknows.2 hn _ (targets_of_inserted hc hd) hproject).inFlight, hlater⟩
  have hcalls' : y.1.procs.calls = before ++ (c.step cfg x.1.world r).next.toList ++ later := by
    rw [hy]
  rw [hlooked, noteLooks_call hcalls hcalls' hfront] at hnote
  refine
    { builds := hbuilds
      one := ?_
      newest := ?_
      length := ?_
      looked := ?_ }
  · rw [hy, World.inFlight_record _ hentries]
    exact World.inFlight_exec_le_one hcommand hs.one fun d hd hproject =>
      (hinserted d hd hproject).1
  · rw [hy, World.newest_record hentries]
    exact World.newest_exec hcommand hs.newest hinserted
  · rw [hcalls', hnote]
    simp only [List.length_append, List.length_map]
    omega
  · rw [hcalls', hnote, List.zip_append (by simp [hfront]), List.zip_append hfront]
    intro cn hcn
    rcases List.mem_append.mp hcn with hcn | hcn
    · rcases List.mem_append.mp hcn with hcn | hcn
      · rw [hy]
        exact (hknown cn (List.mem_append_left _ hcn)).turn hc
      · cases hnext : (c.step cfg x.1.world r).next with
        | none =>
          rw [hnext] at hcn
          cases hcn
        | some c' =>
          rw [hnext] at hcn
          obtain rfl := List.mem_singleton.mp hcn
          rw [hy]
          exact knows_next hc hs.newest hknows hnext
    · rw [hy]
      exact (hknown cn (List.mem_append_right _ (List.mem_cons_of_mem _ hcn))).turn hc

theorem guarded_shuffle {x : State × List Nat} {rows : List Deployment} (hs : Guarded p x)
    (hrows : rows.Perm x.1.world.db.deployments) :
    Guarded p ({ x.1 with world := x.1.world.exec cfg (.shuffleDeployments rows) }, x.2) where
  builds := hs.builds
  one := (hrows.countP_eq _).le.trans hs.one
  newest d hd hcontends d' hd' :=
    hs.newest d (hrows.mem_iff.mp hd) hcontends d' (hrows.mem_iff.mp hd')
  length := hs.length
  looked cn hcn := by
    have hbuilt : (x.1.world.exec cfg (.shuffleDeployments rows)).built p = x.1.world.built p :=
      hrows.countP_eq _
    obtain ⟨hle, hcovers⟩ := hs.looked cn hcn
    rw [Call.Knows, hbuilt]
    exact ⟨hle, fun hn t ht hproject d hd => hcovers hn t ht hproject d (hrows.mem_iff.mp hd)⟩

theorem guarded_step {x y : State × List Nat} {e : Event} (hs : Guarded p x)
    (he : e.builds = true) (hserial : Serial cfg p x e)
    (h : stepNoting (State.step cfg) (noteLooks p) x e = some y) : Guarded p y := by
  obtain ⟨hstep, hnote⟩ := stepNoting_eq_some_iff.mp h
  obtain ⟨s', looked⟩ := y
  cases e with
  | tick milliseconds =>
    obtain rfl := State.step_tick hstep
    obtain rfl : looked = x.2 := hnote
    exact ⟨hs.builds, hs.one, hs.newest, hs.length, hs.looked⟩
  | edit e =>
    obtain ⟨hadmits, rfl⟩ := State.step_edit hstep
    obtain rfl : looked = x.2 := hnote
    cases e with
    | shuffleDeployments rows => exact guarded_shuffle hs (of_decide_eq_true hadmits)
    | _ => cases he
  | request r =>
    have hbuilds := State.builds_step hs.builds he hstep
    obtain rfl := State.step_request hstep
    obtain rfl : looked = x.2 ++ [0] := hnote
    refine ⟨hbuilds, hs.one, hs.newest, ?_, ?_⟩
    · simp [hs.length]
    · rw [List.zip_append hs.length]
      intro cn hcn
      rcases List.mem_append.mp hcn with hcn | hcn
      · exact hs.looked cn hcn
      · obtain rfl := List.mem_singleton.mp hcn
        refine ⟨Nat.zero_le _, fun _ t ht => ?_⟩
        cases r with
        | createDeployment | push => cases ht
        | _ => cases he
  | call i r => exact guarded_call hs hserial h
  | _ => cases he

/-- While redeploys and pushes run, a project has at most one build in flight in every state, if
for each row that was inserted none was inserted since the call looked for a build in progress. -/
theorem one_build_in_flight {p : ProjectId} {looked : List Nat} (hcalls : s.procs.calls = [])
    (hone : s.world.inFlight p ≤ 1) (hnewest : s.world.Newest p)
    (h : Reaches (stepNoting (State.step cfg) (noteLooks p))
      (fun x e => e.builds = true ∧ Serial cfg p x e) (s, []) (s', looked)) :
    s'.world.inFlight p ≤ 1 := by
  have hstart : Guarded p (s, []) := by
    refine ⟨fun c hc => ?_, hone, hnewest, congrArg List.length hcalls, fun cn hcn => ?_⟩
    · rw [hcalls] at hc
      cases hc
    · rw [hcalls] at hcn
      cases hcn
  exact (h.invariant (Guarded p) hstart fun x e y hx hok hstep =>
    guarded_step hx hok.1 hok.2 hstep).one

/-- A redeploy of a project whose deployment is live. -/
theorem one_build_in_flight_shop :
    ∃ s s' looked, Reaches (State.step Config.clear) (fun _ _ => True) State.initial s ∧
      Reaches (stepNoting (State.step Config.clear) (noteLooks 1))
        (fun x e => e.builds = true ∧ Serial Config.clear 1 x e) (s, []) (s', looked) ∧
      s'.world.db.deployments.length = 2 ∧ s'.world.inFlight 1 ≤ 1 := by
  obtain ⟨s, hs, hend⟩ := Reaches.exists_of_runEvents (State.step Config.clear)
    (fun _ _ => True) State.initial (shopCreated ++ shopWorker 21)
    (fun s => s.procs.calls.isEmpty && decide (s.world.inFlight 1 ≤ 1) &&
      decide (s.world.Newest 1) &&
      decide (RunsUnder (stepNoting (State.step Config.clear) (noteLooks 1))
        (fun x e => e.builds = true ∧ Serial Config.clear 1 x e) (s, [])
        (.tick 1 :: shopRequest (.createDeployment 1 1) 6)) &&
      (runEvents (stepNoting (State.step Config.clear) (noteLooks 1)) (s, [])
        (.tick 1 :: shopRequest (.createDeployment 1 1) 6)).any
        fun y => y.1.world.db.deployments.length == 2)
    (by decide) (runsUnder_true _ _ _)
  simp only [Bool.and_eq_true, decide_eq_true_eq, List.isEmpty_iff] at hend
  obtain ⟨⟨⟨⟨hcalls, hone⟩, hnewest⟩, hunder⟩, hend⟩ := hend
  rw [Option.any_eq_true] at hend
  obtain ⟨⟨s', looked⟩, hrun, hlength⟩ := hend
  have hs' := Reaches.of_runEvents hrun hunder
  exact ⟨s, s', looked, hs, hs', eq_of_beq hlength,
    one_build_in_flight hcalls hone hnewest hs'⟩

/-- Two redeploys look for a build in progress before either inserts its row. -/
def shopRedeployedTwice : List Event :=
  .tick 1 :: shopRequest (.createDeployment 1 1) 4 ++ .request (.createDeployment 1 1) ::
    (List.replicate 5 (.call 1 shopReply) ++ [.tick 1, .call 0 shopReply])

theorem not_one_build_in_flight :
    ¬∀ (cfg : Config) (p : ProjectId) (s s' : State),
      Reaches (State.step cfg) (fun _ _ => True) State.initial s → s.procs.calls = [] →
        s.world.inFlight p ≤ 1 → s.world.Newest p →
          Reaches (State.step cfg) (fun _ e => e.builds = true) s s' →
            s'.world.inFlight p ≤ 1 := by
  intro h
  obtain ⟨s, hs, hend⟩ := Reaches.exists_of_runEvents (State.step Config.clear)
    (fun _ _ => True) State.initial (shopCreated ++ shopWorker 21)
    (fun s => s.procs.calls.isEmpty && decide (s.world.inFlight 1 ≤ 1) &&
      decide (s.world.Newest 1) &&
      decide (RunsUnder (State.step Config.clear) (fun _ e => e.builds = true) s
        shopRedeployedTwice) &&
      (runEvents (State.step Config.clear) s shopRedeployedTwice).any
        fun s' : State => decide (1 < s'.world.inFlight 1))
    (by decide) (runsUnder_true _ _ _)
  simp only [Bool.and_eq_true, decide_eq_true_eq, List.isEmpty_iff] at hend
  obtain ⟨⟨⟨⟨hcalls, hone⟩, hnewest⟩, hunder⟩, hend⟩ := hend
  rw [Option.any_eq_true] at hend
  obtain ⟨s', hrun, htwo⟩ := hend
  rw [decide_eq_true_eq] at htwo
  have hle := h Config.clear 1 s s' hs hcalls hone hnewest (Reaches.of_runEvents hrun hunder)
  omega

end System
end Code2Cloud
