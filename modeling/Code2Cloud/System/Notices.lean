import Code2Cloud.Api.Notifications
import Code2Cloud.System.Arrivals
import Code2Cloud.System.Keys
import Code2Cloud.System.Provenance
import Code2Cloud.System.Titles

/-!
# Who is told of a deployment

The initiator of a deployment is the user of its project, in whichever way the deployment came
about.  So a notification goes to the owner of the project alone.
-/

namespace Code2Cloud
namespace System

open Api Worker

variable {cfg : Config} {w : World} {s s' s₀ : State} {x : Run} {e : Event}

namespace State

/-! ## A project keeps its user -/

/-- The project is the user's, if it has a row, and no transaction is to make it. -/
structure UserOf (s : State) (id : ProjectId) (u : UserId) : Prop where
  lt : id < s.world.db.nextId
  rows : ∀ p ∈ s.world.db.projects, p.id = id → p.userId = u
  drafts : ∀ c ∈ s.procs.calls, ∀ draft, c.draft = some draft → draft.project.id ≠ id

theorem Listed.id_ne_of_draft (hl : s.Listed) {c : Call} (hc : c ∈ s.procs.calls) {draft : Draft}
    (hdraft : c.draft = some draft) {p : Project} (hp : p ∈ s.world.db.projects) :
    draft.project.id ≠ p.id := by
  intro hid
  have hcall : 0 < s.procs.calls.countP (Call.draftsProject p.id) := by
    refine List.countP_pos_iff.mpr ⟨c, hc, ?_⟩
    rw [Call.draftsProject, hdraft, Option.any_some, beq_iff_eq]
    exact hid
  have hrow : 0 < projectsOf p.id s.world.db.projects :=
    List.countP_pos_iff.mpr ⟨p, hp, beq_self_eq_true _⟩
  have hone := (hl p.id).1
  rw [projectRows] at hone
  omega

theorem Listed.userOf (hl : s.Listed) {p : Project} (hp : p ∈ s.world.db.projects) :
    s.UserOf p.id p.userId where
  lt := by
    have hrow : 0 < projectsOf p.id s.world.db.projects :=
      List.countP_pos_iff.mpr ⟨p, hp, beq_self_eq_true _⟩
    refine hl.lt ?_
    rw [projectRows]
    omega
  rows q hq hid := by rw [List.inj_on_of_nodup_map hl.nodup hq hp hid]
  drafts c hc draft hdraft := hl.id_ne_of_draft hc hdraft hp

theorem userOf_step {id : ProjectId} {u : UserId} (hs : s.UserOf id u)
    (h : s.step cfg e = some s') : s'.UserOf id u where
  lt := by
    obtain ⟨t, ht, _⟩ := step_eq_some_iff.mp h
    rw [nextId_turn h ht]
    exact Nat.lt_add_right _ hs.lt
  rows p' hp' hid := by
    obtain ⟨t, ht, _, rfl⟩ := step_eq_some_iff.mp h
    rw [after, World.record_db, World.db_exec] at hp'
    rcases mem_projects_change hp' with ⟨p, hp, hpid, huser⟩ | ⟨draft, hc, rfl⟩
    · rw [← huser]
      exact hs.rows p hp (hpid.trans hid)
    · obtain ⟨c, hmem, hdraft⟩ := holder_of_commit ht hc
      exact absurd hid (hs.drafts c hmem draft hdraft)
  drafts c' hc' draft hdraft hid := by
    rcases draft_step_cases h hc' hdraft with ⟨c, hc, hheld⟩ | hnew
    · exact hs.drafts c hc draft hheld hid
    · have hlt := hs.lt
      rw [← hid, ← hnew.projectId, hnew.id.2] at hlt
      exact absurd hlt (Nat.lt_irrefl _)

theorem listed_of_reaches (h : Reaches (State.step cfg) (fun _ _ => True) initial s) : s.Listed :=
  h.invariant Listed (fun _ => ⟨Nat.zero_le 1, fun _ => rfl⟩)
    fun _ _ _ hs _ hstep => listed_step hs hstep

/-- Rows of one project at two times of a run have one user. -/
theorem userId_eq_of_visited
    (h : Reaches (Run.step cfg) (fun _ _ => True) (initial, []) x) (hpast : Visited x s₀)
    {p₀ p : Project} (hp₀ : p₀ ∈ s₀.world.db.projects) (hp : p ∈ x.1.world.db.projects)
    (hid : p.id = p₀.id) : p.userId = p₀.userId := by
  obtain ⟨hbefore, hafter⟩ := h.of_visited hpast
  have hkept : x.1.UserOf p₀.id p₀.userId :=
    hafter.invariant (fun s => s.UserOf p₀.id p₀.userId)
      ((listed_of_reaches hbefore).userOf hp₀) fun _ _ _ hs _ hstep => userOf_step hs hstep
  exact hkept.rows p hp hid

end State

/-! ## A redeploy's user -/

namespace DeploymentsService

variable {r : Reply}

/-- The user that the call was made for, as long as it knows. -/
def Create.user : Create → Option UserId
  | .findProject userId _ | .findGitAccounts userId _ | .findLatest userId _ _
  | .getLatestCommit userId _ _ | .insert userId _ _ _ => some userId
  | .enqueue _ => none

theorem user_step {c c' : Create} (h : (c.step cfg w r).next = .next c') {u : UserId}
    (hu : c'.user = some u) : c.user = some u := by
  cases c with
  | findProject userId projectId =>
    rw [Create.step, query] at h
    split at h
    · simp only [Turn.pure] at h
      split at h
      · cases h
      · cases h
        exact hu
    · cases h
  | findGitAccounts userId l =>
    rw [Create.step, query] at h
    split at h
    · simp only [Turn.pure] at h
      split at h
      · cases h
      · cases h
        exact hu
    · cases h
  | findLatest userId l accounts =>
    rw [Create.step, query] at h
    split at h
    · simp only [Turn.pure] at h
      split at h
      · cases h
      · split at h
        · cases h
        · cases h
          exact hu
    · cases h
  | getLatestCommit userId l installationId =>
    cases h
    exact hu
  | insert userId l installationId commit =>
    rcases next_issue w r.outcome (.createRedeployment (row w userId l commit))
      (Flow.next (Create.enqueue (job cfg.encryption l installationId commit
        (row w userId l commit).id))) (Flow.throw .internal) [] [] with hn | hn <;>
      rw [Create.step, hn] at h <;> cases h
    cases hu
  | enqueue job =>
    rcases next_issue w r.outcome (.addBuildJob job) Flow.done (.throw .internal) [] []
      with hn | hn <;> rw [Create.step, hn] at h <;> cases h

theorem Handling.user {db : Database} {userId u : UserId} {projectId : ProjectId} {c : Create}
    (h : Handling cfg db userId projectId c) (hu : c.user = some u) : u = userId := by
  induction h with
  | found _ h =>
    have hfirst := user_step h hu
    exact (Option.some.inj hfirst).symm
  | step _ h ih => exact ih (user_step h hu)

end DeploymentsService

/-! ## The initiator -/

@[simp] theorem StatusWrite.apply_initiatorId (st : StatusWrite) (now : Nat) (d : Deployment) :
    (st.apply now d).initiatorId = d.initiatorId := by
  cases st <;> rfl

/-- The row is initiated by the user of its project, as the project was read earlier in the run. -/
def Run.Initiated (x : Run) (d : Deployment) : Prop :=
  ∃ s₀ p₀, Visited x s₀ ∧ p₀ ∈ s₀.world.db.projects ∧ d.projectId = p₀.id ∧
    d.initiatorId = some p₀.userId

theorem initiated_of_insertsRow {c : Call} {d : Deployment} (hc : c.Rooted cfg x)
    (h : c.InsertsRow x.1.world d) : x.Initiated d := by
  cases h with
  | redeploy userId l installationId commit =>
    obtain ⟨s₀, userId', projectId, hpast, hhandling⟩ := hc
    obtain ⟨p, hp, hcarries⟩ := hhandling.carries
    have hload : l = load s₀.world.db p := hcarries
    have huser : p.userId = userId := by
      have hfound := List.find?_some hp
      rw [Bool.and_eq_true, beq_iff_eq, beq_iff_eq] at hfound
      rw [hfound.2, hhandling.user rfl]
    refine ⟨s₀, p, hpast, List.mem_of_find?_eq_some hp, by rw [hload]; rfl, ?_⟩
    rw [huser]
    rfl
  | push opts l envVars previous region rest =>
    obtain ⟨s₀, payload, hpast, hhandling⟩ := hc
    obtain ⟨installationId, _, _, hcarries⟩ := hhandling.carries
    obtain ⟨_, _, ⟨c, hc, hl, _⟩, _⟩ := hcarries
    obtain ⟨p, hp, _, _, _, rfl⟩ := WebhooksService.mem_candidates.mp hc
    refine ⟨s₀, p, hpast, hp, by rw [← hl]; rfl, by rw [← hl]; rfl⟩

namespace State

/-- Every deployment is initiated by the user of its project. -/
structure Titled (s : State) : Prop where
  rows : ∀ d ∈ s.world.db.deployments, ∀ p ∈ s.world.db.projects, p.id = d.projectId →
    d.initiatorId = some p.userId
  drafts : ∀ c ∈ s.procs.calls, ∀ draft, c.draft = some draft →
    draft.deployment.initiatorId = some draft.project.userId

/-- A row that a step inserts comes with a transaction, or is of a project read before. -/
theorem initiated_of_inserted (hx : x.Rooted cfg) {t : Turn Processes}
    (ht : x.1.turn cfg e = some t) {d : Deployment} (hd : d ∈ t.command.inserted) :
    (∃ c ∈ x.1.procs.calls, ∃ draft, c.draft = some draft ∧ d = draft.deployment) ∨
      x.Initiated d := by
  rcases command_turn ht with ⟨i, r, c, rfl, hi, hcommand⟩ | ⟨r, rfl, hcommand⟩ | hb
  · have hmem := List.mem_of_getElem? hi
    rw [hcommand] at hd
    by_cases hc : ∀ x, c ≠ .createProject x
    · rcases inserted_call cfg x.1.world hc r with hnone | ⟨d', hone, hinserts⟩
      · rw [hnone] at hd
        cases hd
      · rw [hone, List.mem_singleton] at hd
        subst hd
        exact Or.inr (initiated_of_insertsRow (hx.calls c hmem) hinserts)
    · simp only [ne_eq, not_forall, not_not] at hc
      obtain ⟨x, rfl⟩ := hc
      obtain ⟨draft, hdraft, hrow⟩ := inserted_createProject hd
      exact Or.inl ⟨_, hmem, draft, hdraft, hrow⟩
  · rw [hcommand, inserted_of_background (background_worker cfg x.1.world r _).command] at hd
    cases hd
  · rw [inserted_of_bystander hb] at hd
    cases hd

theorem titled_step (hs : s.Titled)
    (hreached : Reaches (State.step cfg) (fun _ _ => True) initial s) (hl : s.Listed)
    (hr : s.Referenced) (h : s.step cfg e = some s') : s'.Titled where
  rows d' hd' p' hp' hid := by
    obtain ⟨past, hx⟩ := hreached.recorded
    obtain ⟨t, ht, _, rfl⟩ := step_eq_some_iff.mp h
    have hprojects := hp'
    rw [after, World.record_db, World.db_exec] at hprojects
    rcases World.mem_deployments_exec (shuffles_turn ht) hd' with hnew | ⟨d, hd, _, hsame⟩
    · rcases mem_projects_change hprojects with ⟨p, hp, hpid, huser⟩ | ⟨draft, hc, rfl⟩
      · rcases initiated_of_inserted (Run.rooted_of_reaches hx) ht hnew with
          ⟨c, hc, draft, hdraft, rfl⟩ | hinitiated
        · have hproject := hr.drafts c hc draft hdraft
          exact absurd (hproject.symm.trans (hid.symm.trans hpid.symm))
            (hl.id_ne_of_draft hc hdraft hp)
        · obtain ⟨s₀, p₀, hpast, hp₀, hproject, hinitiator⟩ := hinitiated
          rw [hinitiator, ← huser]
          exact congrArg some
            (userId_eq_of_visited hx hpast hp₀ hp (hpid.trans (hid.trans hproject))).symm
      · obtain ⟨c, hmem, hdraft⟩ := holder_of_commit ht hc
        rw [hc, Command.inserted, List.mem_singleton] at hnew
        rw [hnew]
        exact hs.drafts c hmem draft hdraft
    · have hkept : d'.projectId = d.projectId ∧ d'.initiatorId = d.initiatorId := by
        rcases hsame with rfl | ⟨st, _, rfl⟩
        · exact ⟨rfl, rfl⟩
        · exact ⟨StatusWrite.apply_projectId _ _ _, StatusWrite.apply_initiatorId _ _ _⟩
      rw [hkept.2]
      rcases mem_projects_change hprojects with ⟨p, hp, hpid, huser⟩ | ⟨draft, hc, rfl⟩
      · rw [← huser]
        exact hs.rows d hd p hp (hpid.trans (hid.trans hkept.1))
      · exact absurd (hkept.1.symm.trans hid.symm) (hr.projectId_ne hl ht hc hd)
  drafts c' hc' draft hdraft := by
    rcases draft_step_cases h hc' hdraft with ⟨c, hc, hheld⟩ | hnew
    · exact hs.drafts c hc draft hheld
    · obtain ⟨hash, ivs, userId, dto, commit, rfl⟩ := hnew
      rfl

theorem referenced_of_reaches (h : Reaches (State.step cfg) (fun _ _ => True) initial s) :
    s.Referenced :=
  h.invariant Referenced referenced_initial fun _ _ _ hs _ hstep => referenced_step hs hstep

theorem titled_of_reaches (h : Reaches (State.step cfg) (fun _ _ => True) initial s) : s.Titled :=
  h.invariant_reached
    ⟨fun _ hd => absurd hd List.not_mem_nil, fun _ hc => absurd hc List.not_mem_nil⟩
    fun _ _ _ hreached hs hstep => titled_step hs hreached (listed_of_reaches hreached)
      (referenced_of_reaches hreached) hstep

end State

/-! ## Notifications -/

open InternalController (DeploymentNotificationDto)
open InternalService

/-- The requests go where the owner of the project wants to be told of the status. -/
def TellsOwner (e : EncryptionService) (users : UserId → Option Person) (db : Database)
    (id : ProjectId) (status : DeploymentStatus) (ns : List Notice) : Prop :=
  ∃ p ∈ db.projects, p.id = id ∧ ∀ n ∈ ns, ∃ c, db.systemConfigOf p.userId = some c ∧
    AddressedTo e c (users p.userId) status n

section

variable (m : MailService) (users : UserId → Option Person) (ids : IdText)
  {dto : DeploymentNotificationDto}

/-- A notification of a deployment says what the settings and the name of its project's owner
make of it. -/
theorem sendDeploymentNotification_of_row (hs : s.Titled) (ht : s.Tabled) (hr : s.Referenced)
    {d : Deployment} (hd : d ∈ s.world.db.deployments) (hid : dto.deploymentId = ids.text d.id) :
    ∃ p ∈ s.world.db.projects, p.id = d.projectId ∧
      sendDeploymentNotification cfg.encryption m users ids s.world.db dto =
        .ok (notices cfg.encryption m (s.world.db.systemConfigOf p.userId) (users p.userId)
          p.name.val dto) := by
  have hfound : (s.world.db.deployments.find? fun d => ids.text d.id == dto.deploymentId) =
      some d := by
    cases hfind : s.world.db.deployments.find? fun d => ids.text d.id == dto.deploymentId with
    | none =>
      have hother := List.find?_eq_none.mp hfind d hd
      rw [beq_iff_eq] at hother
      exact absurd hid.symm hother
    | some d' =>
      have htext : ids.text d'.id = dto.deploymentId := by simpa using List.find?_some hfind
      have hsame := ids.injective (htext.trans hid)
      rw [ht.eq_of_id hd (List.mem_of_find?_eq_some hfind) hsame]
  obtain ⟨p, hp, hpid⟩ := List.any_eq_true.mp (hr.deployments d hd)
  cases hproject : s.world.db.findProject d.projectId with
  | none =>
    have hother := List.find?_eq_none.mp hproject p hp
    exact absurd hpid hother
  | some q =>
    have hq := List.mem_of_find?_eq_some hproject
    have hqid : q.id = d.projectId := by simpa using List.find?_some hproject
    refine ⟨q, hq, hqid, ?_⟩
    rw [sendDeploymentNotification, hfound]
    dsimp only
    rw [hproject, hs.rows d hd q hq hqid]
    rfl

/-- In whichever order deployments are created, pushed, cancelled and removed: a notification of a
deployment is made from the settings, the account and the project of one user, to whom alone it
goes.  So the notifications for the worker's job go to the owner of the job's project. -/
theorem notifications_reach_the_owner
    (h : Reaches (State.step cfg) (fun _ _ => True) State.initial s) :
    (∀ d ∈ s.world.db.deployments, dto.deploymentId = ids.text d.id →
      ∃ p ∈ s.world.db.projects, p.id = d.projectId ∧
        sendDeploymentNotification cfg.encryption m users ids s.world.db dto =
          .ok (notices cfg.encryption m (s.world.db.systemConfigOf p.userId) (users p.userId)
            p.name.val dto)) ∧
      (∀ ns, sendDeploymentNotification cfg.encryption m users ids s.world.db dto = .ok ns →
        ∃ d ∈ s.world.db.deployments, dto.deploymentId = ids.text d.id ∧
          TellsOwner cfg.encryption users s.world.db d.projectId dto.status ns) ∧
      ∀ job, s.procs.worker.job = some job → dto.deploymentId = ids.text job.deploymentId →
        ∀ ns, sendDeploymentNotification cfg.encryption m users ids s.world.db dto = .ok ns →
          TellsOwner cfg.encryption users s.world.db job.projectId dto.status ns := by
  have hall := h.invariant (fun s => s.Tabled ∧ s.Referenced ∧ s.Matched)
    ⟨fun id => ⟨Nat.zero_le 1, fun _ => rfl⟩, State.referenced_initial, State.matched_initial⟩
    fun s e s' ⟨ht, hr, hm⟩ _ hstep => ⟨State.tabled_step ht hstep, State.referenced_step hr hstep,
      State.matched_step hm ht hstep⟩
  have hrow {d : Deployment} (hd : d ∈ s.world.db.deployments)
      (hid : dto.deploymentId = ids.text d.id) :
      ∃ p ∈ s.world.db.projects, p.id = d.projectId ∧
        sendDeploymentNotification cfg.encryption m users ids s.world.db dto =
          .ok (notices cfg.encryption m (s.world.db.systemConfigOf p.userId) (users p.userId)
            p.name.val dto) :=
    sendDeploymentNotification_of_row m users ids (State.titled_of_reaches h) hall.1 hall.2.1 hd hid
  have htells (ns : List Notice)
      (hns : sendDeploymentNotification cfg.encryption m users ids s.world.db dto = .ok ns) :
      ∃ d ∈ s.world.db.deployments, dto.deploymentId = ids.text d.id ∧
        TellsOwner cfg.encryption users s.world.db d.projectId dto.status ns := by
    cases hfind : s.world.db.deployments.find? fun d => ids.text d.id == dto.deploymentId with
    | none =>
      rw [sendDeploymentNotification, hfind] at hns
      cases hns
    | some d =>
      have hd := List.mem_of_find?_eq_some hfind
      have hid : dto.deploymentId = ids.text d.id := by
        have hfound := List.find?_some hfind
        exact (beq_iff_eq.mp hfound).symm
      obtain ⟨p, hp, hpid, hsent⟩ := hrow hd hid
      rw [hsent] at hns
      cases hns
      exact ⟨d, hd, hid, p, hp, hpid, fun n hn => addressedTo_of_mem hn⟩
  refine ⟨fun d hd hid => hrow hd hid, htells, fun job hjob hid ns hns => ?_⟩
  obtain ⟨d, hd, hdid, hd'⟩ := htells ns hns
  have hsame : d.id = job.deploymentId := ids.injective (hdid.symm.trans hid)
  rw [← (hall.2.2.worker job hjob).rows d hd hsame]
  exact hd'

end

/-! ## A shop whose owner wants mail -/

def adaAccount : UserId → Option Person :=
  fun u => if u = 1 then some { email := "ada@example.com", name := "Ada" } else none

def resend : MailService where
  resendApiKey := some "key"
  resendFromEmail := none

def shopReady : DeploymentNotificationDto where
  deploymentId := "2"
  status := .ready
  message := none
  projectName := some "shop"
  deploymentUrl := some "https://shop.code2cloud.dev"

/-- The shop's first deployment is ready, and Ada is told. -/
theorem notifications_reach_the_owner_shop :
    ∃ s n, Reaches (State.step Config.clear) (fun _ _ => True) State.initial s ∧
      sendDeploymentNotification Config.clear.encryption resend adaAccount decimalIds s.world.db
        shopReady = .ok [n] ∧
      ∃ c, s.world.db.systemConfigOf 1 = some c ∧
        AddressedTo Config.clear.encryption c (adaAccount 1) .ready n := by
  obtain ⟨s, h, hend⟩ := Reaches.exists_of_runEvents (State.step Config.clear)
    (fun _ _ => True) State.initial
    (shopCreated ++ shopWorker 21 ++ [.edit (.systemConfigs [{ userId := 1 }])])
    (fun s => s.world.db.projects.all (fun p => p.userId == 1) &&
      match sendDeploymentNotification Config.clear.encryption resend adaAccount decimalIds
        s.world.db shopReady with
      | .ok ns => ns.length == 1
      | .error _ => false)
    (by decide) (runsUnder_true _ _ _)
  rw [Bool.and_eq_true, List.all_eq_true] at hend
  obtain ⟨howner, hsent⟩ := hend
  split at hsent
  · rename_i ns hns
    rw [beq_iff_eq, List.length_eq_one_iff] at hsent
    obtain ⟨n, rfl⟩ := hsent
    obtain ⟨d, hd, _, p, hp, _, htells⟩ :=
      (notifications_reach_the_owner resend adaAccount decimalIds h).2.1 [n] hns
    obtain ⟨c, hc, haddressed⟩ := htells n (List.mem_singleton_self n)
    rw [beq_iff_eq.mp (howner p hp)] at hc haddressed
    exact ⟨s, n, h, hns, c, hc, haddressed⟩
  · cases hsent

end System
end Code2Cloud
