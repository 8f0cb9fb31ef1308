import Code2Cloud.System.Signals

/-!
# Rows of deployments

Where the rows of the deployment table come from and what becomes of them: each row
is inserted once, as a queued deployment, and afterwards only its status is written.
-/

namespace Code2Cloud
namespace System

open Api Worker

variable {cfg : Config} {w : World} {s s' : State} {id : DeploymentId}

/-! ## The table -/

def Command.inserted : Command → List Deployment
  | .createDeployment d | .createRedeployment d => [d]
  | .commitDraft draft => [draft.deployment]
  | _ => []

def Written (w : World) (c : Command) (d d' : Deployment) : Prop :=
  ∃ st, c = .writeStatus d.id st ∧ d' = st.apply w.now d

theorem World.mem_deployments_exec {c : Command}
    (hshuffle : ∀ rows, c = .shuffleDeployments rows → rows.Perm w.db.deployments)
    {d' : Deployment} (h : d' ∈ (w.exec cfg c).db.deployments) :
    d' ∈ c.inserted ∨ ∃ d ∈ w.db.deployments, d'.id = d.id ∧ (d' = d ∨ Written w c d d') := by
  have hold : d' ∈ w.db.deployments →
      d' ∈ c.inserted ∨ ∃ d ∈ w.db.deployments, d'.id = d.id ∧ (d' = d ∨ Written w c d d') :=
    fun h => Or.inr ⟨d', h, rfl, Or.inl rfl⟩
  rw [db_exec] at h
  cases c with
  | createDeployment d | createRedeployment d | commitDraft d =>
    rcases List.mem_append.mp h with h | h
    · exact hold h
    · exact Or.inl h
  | writeStatus id st =>
    obtain ⟨d, hd, rfl⟩ := List.mem_map.mp h
    by_cases hid : d.id = id
    · subst hid
      exact Or.inr ⟨d, hd, by simp, Or.inr ⟨st, rfl, by simp⟩⟩
    · simp only [hid, if_false]
      exact Or.inr ⟨d, hd, rfl, Or.inl rfl⟩
  | deleteProject id => exact hold (List.mem_filter.mp h).1
  | shuffleDeployments rows => exact hold ((hshuffle rows rfl).mem_iff.mp h)
  | _ => exact hold h

/-- How often a table has a row with the identifier. -/
def rowsOf (id : DeploymentId) (ds : List Deployment) : Nat := ds.countP fun d => d.id == id

theorem rowsOf_append (id : DeploymentId) (ds es : List Deployment) :
    rowsOf id (ds ++ es) = rowsOf id ds + rowsOf id es := List.countP_append

theorem World.rowsOf_exec (cfg : Config) {c : Command}
    (hshuffle : ∀ rows, c = .shuffleDeployments rows → rows.Perm w.db.deployments)
    (id : DeploymentId) :
    rowsOf id (w.exec cfg c).db.deployments ≤
      rowsOf id w.db.deployments + rowsOf id c.inserted := by
  rw [db_exec]
  cases c with
  | createDeployment d | createRedeployment d | commitDraft d => exact (rowsOf_append _ _ _).le
  | writeStatus id' st =>
    refine Nat.le_of_eq ?_
    simp only [Command.change, Database.updateDeployment, rowsOf, List.countP_map, Command.inserted,
      List.countP_nil, Nat.add_zero]
    refine List.countP_congr fun d _ => ?_
    by_cases hid : d.id = id' <;> simp [hid]
  | deleteProject id' => exact List.filter_sublist.countP_le
  | shuffleDeployments rows => exact ((hshuffle rows rfl).countP_eq _).le
  | _ => exact Nat.le_refl _

/-! ## The transactions of project creation -/

def Call.draft : Call → Option Draft
  | .createProject (.enqueue draft _) | .createProject (.commit draft)
  | .createProject (.rollback draft) => some draft
  | _ => none

inductive Inserts (w : World) : Option Draft → Command → Option Draft → Prop
  | none {held : Option Draft} {c : Command} (h : c.inserted = []) : Inserts w held c none
  | row {c : Command} {d : Deployment} (h : c.inserted = [d]) (hid : d.id = w.db.nextId)
      (hmint : World.minted c = 1) (hqueued : d.status = .queued) : Inserts w none c none
  | openDraft {draft : Draft} (hid : draft.deployment.id = w.db.nextId + 1) :
      Inserts w none (.openDraft draft) (some draft)
  | keep {draft : Draft} {c : Command} (h : c.inserted = []) :
      Inserts w (some draft) c (some draft)
  | commit {draft : Draft} : Inserts w (some draft) (.commitDraft draft) none

theorem inserted_issue {σ : Type} {c : Command} (hc : c.inserted = []) (w : World) (o : Outcome)
    (ok err : σ) (entries errors : List Entry) :
    (issue w o c ok err entries errors).command.inserted = [] := by
  rcases command_issue w o c ok err entries errors with h | h <;> rw [h]
  · exact hc
  · rfl

theorem inserted_query {σ : Type} (o : Outcome) (ok err : σ) (entries errors : List Entry) :
    (query o (.pure ok entries) (.pure err errors)).command.inserted = [] := by
  unfold query
  split <;> rfl

theorem inserts_createProject (c : ProjectsService.Create) (r : Reply) :
    Inserts w (Call.createProject c).draft ((Call.createProject c).step cfg w r).command
      (((Call.createProject c).step cfg w r).next.bind Call.draft) := by
  have hquery {o : Outcome} {f g : Flow ProjectsService.Create}
      (hf : (f.toCall .createProject).bind Call.draft = none)
      (hg : (g.toCall .createProject).bind Call.draft = none) :
      Inserts w none (query o (.pure f) (.pure g)).command
        (((query o (.pure f) (.pure g)).next.toCall .createProject).bind Call.draft) := by
    unfold query
    split
    · simp only [Turn.pure, hf]
      exact .none rfl
    · simp only [Turn.pure, hg]
      exact .none rfl
  cases c with
  | findExisting userId dto =>
    refine hquery ?_ rfl
    split <;> rfl
  | findGitAccounts userId dto =>
    refine hquery ?_ rfl
    split
    · rfl
    · split <;> rfl
  | getLatestCommit userId dto installationId => exact .none rfl
  | insert userId dto installationId commitData =>
    simp only [Call.step, ProjectsService.Create.step]
    split
    · exact .openDraft rfl
    · exact .none rfl
  | enqueue draft job =>
    simp only [Call.step, ProjectsService.Create.step, Turn.map_issue]
    rcases issue_cases w r.outcome (.addBuildJob job)
      (Flow.toCall Call.createProject (.next (.commit draft)))
      (Flow.toCall Call.createProject (.next (.rollback draft))) [] [] with
      ⟨_, h⟩ | ⟨_, h⟩ | h <;> rw [h] <;> exact .keep rfl
  | commit draft =>
    simp only [Call.step, ProjectsService.Create.step]
    cases r.outcome
    · exact .commit
    · exact .none rfl
    · exact .commit
    · exact .none rfl
  | rollback draft => exact .none rfl

/-- The calls that insert a row at once, with the row. -/
inductive Call.InsertsRow (w : World) : Call → Deployment → Prop
  | redeploy (userId : UserId) (project : Loaded) (installationId : String) (commit : CommitData) :
      InsertsRow w (.createDeployment (.insert userId project installationId commit))
        (DeploymentsService.row w userId project commit)
  | push (opts : WebhooksService.TriggerOptions) (l : Loaded) (envVars : EnvMap)
      (previous : Option DeploymentId) (region : String) (rest : List WebhooksService.Candidate) :
      InsertsRow w (.push (.insert opts l envVars previous region rest))
        (WebhooksService.row w opts l region)

theorem inserted_call (cfg : Config) (w : World) {c : Call} (hc : ∀ x, c ≠ .createProject x)
    (r : Reply) :
    (c.step cfg w r).command.inserted = [] ∨
      ∃ d, (c.step cfg w r).command.inserted = [d] ∧ c.InsertsRow w d := by
  cases c with
  | createProject c => exact absurd rfl (hc c)
  | createDeployment c =>
    simp only [Call.step, Turn.command_map]
    cases c with
    | getLatestCommit => exact Or.inl rfl
    | insert userId project installationId commit =>
      rcases command_issue w r.outcome
        (.createRedeployment (DeploymentsService.row w userId project commit))
        (Flow.next (DeploymentsService.Create.enqueue (DeploymentsService.job cfg.encryption project
          installationId commit (DeploymentsService.row w userId project commit).id)))
        (Flow.throw .internal) [] [] with h | h
      · exact Or.inr ⟨_, congrArg Command.inserted h, .redeploy _ _ _ _⟩
      · exact Or.inl (congrArg Command.inserted h)
    | enqueue => exact Or.inl (inserted_issue rfl _ _ _ _ _ _)
    | _ => exact Or.inl (inserted_query _ _ _ _ _)
  | push c =>
    simp only [Call.step, Turn.command_map]
    cases c with
    | findProjects payload =>
      refine Or.inl ?_
      simp only [WebhooksService.Push.step]
      split
      · rfl
      · split
        · rfl
        · exact inserted_query _ _ _ _ _
    | insert opts l envVars previous region rest =>
      rcases command_issue w r.outcome
        (.createDeployment (WebhooksService.row w opts l region))
        (Flow.next (WebhooksService.Push.enqueue opts (WebhooksService.job opts l envVars previous
          (WebhooksService.row w opts l region).id) rest))
        (WebhooksService.Push.loop cfg.encryption opts rest) [] [] with h | h
      · exact Or.inr ⟨_, congrArg Command.inserted h, .push _ _ _ _ _ _⟩
      · exact Or.inl (congrArg Command.inserted h)
    | findSystemConfig => exact Or.inl (inserted_query _ _ _ _ _)
    | publish | markCanceled | enqueue => exact Or.inl (inserted_issue rfl _ _ _ _ _ _)
  | cancel c =>
    simp only [Call.step, Turn.command_map]
    cases c with
    | find => exact Or.inl (inserted_query _ _ _ _ _)
    | update | publish => exact Or.inl (inserted_issue rfl _ _ _ _ _ _)
  | updateStatus c =>
    simp only [Call.step, Turn.command_map]
    cases c with
    | find => exact Or.inl (inserted_query _ _ _ _ _)
    | update => exact Or.inl (inserted_issue rfl _ _ _ _ _ _)
  | updateProject c =>
    simp only [Call.step, Turn.command_map]
    cases c with
    | findOne => exact Or.inl (inserted_query _ _ _ _ _)
    | update => exact Or.inl (inserted_issue rfl _ _ _ _ _ _)
  | removeProject c =>
    simp only [Call.step, Turn.command_map]
    cases c with
    | findProject => exact Or.inl (inserted_query _ _ _ _ _)
    | publish cleanup ids =>
      cases ids with
      | nil => exact Or.inl rfl
      | cons => exact Or.inl (inserted_issue rfl _ _ _ _ _ _)
    | enqueue | delete => exact Or.inl (inserted_issue rfl _ _ _ _ _ _)
  | createDomain c =>
    simp only [Call.step, Turn.command_map]
    cases c with
    | findProject | findExisting => exact Or.inl (inserted_query _ _ _ _ _)
    | insert => exact Or.inl (inserted_issue rfl _ _ _ _ _ _)
  | removeDomain c =>
    simp only [Call.step, Turn.command_map]
    cases c with
    | find => exact Or.inl (inserted_query _ _ _ _ _)
    | delete => exact Or.inl (inserted_issue rfl _ _ _ _ _ _)
  | late c =>
    simp only [Call.step]
    cases c <;> exact Or.inl (inserted_issue rfl _ _ _ _ _ _)

theorem inserted_createProject {c : ProjectsService.Create} {r : Reply} {d : Deployment}
    (h : d ∈ ((Call.createProject c).step cfg w r).command.inserted) :
    ∃ draft, (Call.createProject c).draft = some draft ∧ d = draft.deployment := by
  cases c with
  | commit draft =>
    simp only [Call.step, ProjectsService.Create.step, Turn.command_map] at h
    refine ⟨draft, rfl, ?_⟩
    split at h
    · exact List.mem_singleton.mp h
    · exact List.mem_singleton.mp h
    · cases h
    · cases h
  | insert userId dto installationId commitData =>
    simp only [Call.step, ProjectsService.Create.step, Turn.command_map] at h
    split at h <;> cases h
  | enqueue draft job =>
    rw [Call.step, Turn.command_map, ProjectsService.Create.step, inserted_issue rfl] at h
    cases h
  | findExisting | findGitAccounts =>
    rw [Call.step, Turn.command_map, ProjectsService.Create.step, inserted_query] at h
    cases h
  | getLatestCommit | rollback => cases h

/-- Only the transaction of a project holds rows back; another call inserts its row at once, as
a queued deployment with a new identifier, and if it is told so goes on with its job. -/
theorem inserted_step (cfg : Config) (w : World) {c : Call} (hc : ∀ x, c ≠ .createProject x)
    (r : Reply) :
    (c.step cfg w r).command.inserted = [] ∨
      ∃ d, (c.step cfg w r).command.inserted = [d] ∧ d.id = w.db.nextId ∧
        World.minted (c.step cfg w r).command = 1 ∧ d.status = .queued ∧
        (r.outcome = .ok → (c.step cfg w r).next.any (Call.holds d.id) = true) := by
  rcases inserted_call cfg w hc r with hnone | ⟨d, hone, hinserts⟩
  · exact Or.inl hnone
  have hskip {c' : Command} (h : (c.step cfg w r).command = c') : c' ≠ .skip := by
    rintro rfl
    rw [h] at hone
    cases hone
  cases hinserts with
  | redeploy userId project installationId commit =>
    have hturn := command_issue w r.outcome
      (.createRedeployment (DeploymentsService.row w userId project commit))
      (Flow.next (DeploymentsService.Create.enqueue (DeploymentsService.job cfg.encryption project
        installationId commit (DeploymentsService.row w userId project commit).id)))
      (Flow.throw .internal) [] []
    have h := hturn.resolve_right fun h => hskip h rfl
    refine Or.inr ⟨_, hone, rfl, congrArg World.minted h, rfl, fun hok => ?_⟩
    rw [hok] at h
    have hnext := next_issue_ok (fun hskip => by cases h.symm.trans hskip)
    simp only [Call.step, DeploymentsService.Create.step, Turn.map, hok, hnext, Flow.toCall,
      Option.any_some]
    exact beq_self_eq_true _
  | push opts l envVars previous region rest =>
    have hturn := command_issue w r.outcome
      (.createDeployment (WebhooksService.row w opts l region))
      (Flow.next (WebhooksService.Push.enqueue opts (WebhooksService.job opts l envVars previous
        (WebhooksService.row w opts l region).id) rest))
      (WebhooksService.Push.loop cfg.encryption opts rest) [] []
    have h := hturn.resolve_right fun h => hskip h rfl
    refine Or.inr ⟨_, hone, rfl, congrArg World.minted h, rfl, fun hok => ?_⟩
    rw [hok] at h
    have hnext := next_issue_ok (fun hskip => by cases h.symm.trans hskip)
    simp only [Call.step, WebhooksService.Push.step, Turn.map, hok, hnext, Flow.toCall,
      Option.any_some]
    exact beq_self_eq_true _

theorem draft_next {c : Call} (hc : ∀ x, c ≠ .createProject x) (r : Reply) :
    (c.step cfg w r).next.bind Call.draft = none := by
  cases hnext : (c.step cfg w r).next with
  | none => rfl
  | some c' =>
    cases c with
    | createProject c => exact absurd rfl (hc c)
    | late c =>
      rw [next_late] at hnext
      cases hnext
    | _ =>
      obtain ⟨x, _, rfl⟩ := toCall_eq_some hnext
      rfl

theorem inserts_step (cfg : Config) (w : World) (c : Call) (r : Reply) :
    Inserts w c.draft (c.step cfg w r).command ((c.step cfg w r).next.bind Call.draft) := by
  by_cases hc : ∀ x, c ≠ .createProject x
  · rw [draft_next hc]
    have hdraft : c.draft = none := by
      cases c with
      | createProject c => exact absurd rfl (hc c)
      | _ => rfl
    rcases inserted_step cfg w hc r with h | ⟨d, h, hid, hmint, hqueued, _⟩
    · exact .none h
    · rw [hdraft]
      exact .row h hid hmint hqueued
  · simp only [ne_eq, not_forall, not_not] at hc
    obtain ⟨c, rfl⟩ := hc
    exact inserts_createProject c r

/-! ## One row for each deployment -/

def Call.drafts (id : DeploymentId) (c : Call) : Bool :=
  c.draft.any fun draft => draft.deployment.id == id

def draftRows (id : DeploymentId) (held : Option Draft) : Nat :=
  if held.any fun draft => draft.deployment.id == id then 1 else 0

theorem draftRows_some (id : DeploymentId) (draft : Draft) :
    draftRows id (some draft) = if draft.deployment.id = id then 1 else 0 := by
  simp [draftRows]

theorem countP_toList_drafts (id : DeploymentId) (next : Option Call) :
    next.toList.countP (Call.drafts id) = draftRows id (next.bind Call.draft) := by
  cases next with
  | none => rfl
  | some c => exact List.countP_singleton

theorem rowsOf_singleton (id : DeploymentId) (d : Deployment) :
    rowsOf id [d] = if d.id = id then 1 else 0 := by
  simp [rowsOf, List.countP_singleton]

theorem rows_le_of_inserts {held next : Option Draft} {c : Command} (h : Inserts w held c next)
    (cfg : Config) (hshuffle : ∀ rows, c ≠ .shuffleDeployments rows) (id : DeploymentId) :
    draftRows id next + rowsOf id (w.exec cfg c).db.deployments ≤
      draftRows id held + rowsOf id w.db.deployments +
        Fresh.drawn w.db.nextId (w.exec cfg c).db.nextId id := by
  have hle := World.rowsOf_exec (w := w) cfg (fun rows hrows => absurd hrows (hshuffle rows)) id
  cases h with
  | none h =>
    rw [h] at hle
    simp only [draftRows, rowsOf, Option.any_none, Bool.false_eq_true, if_false,
      List.countP_nil] at hle ⊢
    omega
  | @row _ d h hid hmint _ =>
    rw [h, rowsOf_singleton, hid] at hle
    rw [World.nextId_exec, hmint]
    by_cases hnew : w.db.nextId = id
    · subst hnew
      rw [if_pos rfl] at hle
      rw [Fresh.drawn_of_le (Nat.le_refl _) (Nat.lt_succ_self _)]
      omega
    · rw [if_neg hnew] at hle
      omega
  | @openDraft draft hid =>
    have hrows : rowsOf id (w.exec cfg (.openDraft draft)).db.deployments =
      rowsOf id w.db.deployments := rfl
    rw [draftRows_some, World.nextId_exec, World.minted, hid, hrows]
    by_cases hnew : w.db.nextId + 1 = id
    · subst hnew
      rw [if_pos rfl, Fresh.drawn_of_le (Nat.le_add_right _ 1) (by omega)]
      omega
    · rw [if_neg hnew]
      omega
  | keep h =>
    rw [h] at hle
    simp only [rowsOf, List.countP_nil] at hle ⊢
    omega
  | @commit draft =>
    rw [draftRows_some]
    rw [Command.inserted, rowsOf_singleton] at hle
    simp only [draftRows, Option.any_none, Bool.false_eq_true, if_false]
    omega

theorem inserted_of_background {c : Command} (hc : c.background = true) : c.inserted = [] := by
  cases c <;> first | rfl | cases hc

theorem inserted_of_bystander {c : Command} (hc : c.bystander = true) : c.inserted = [] := by
  cases c <;> first | rfl | cases hc

namespace State

/-- How often a deployment has a row, or an open transaction that will insert it. -/
def rows (s : State) (id : DeploymentId) : Nat :=
  rowsOf id s.world.db.deployments + s.procs.calls.countP (Call.drafts id)

/-- Every deployment has at most one row, and an identifier that is not in use has none. -/
def Tabled (s : State) : Prop := Fresh.Once s.world.db.nextId s.rows

theorem countP_starts_drafts {new : List Call} (h : ∀ c ∈ new, (∃ r : Request, c = r.start) ∨
    ∃ x, c = .late x ∧ x.command.quiet = true) (id : DeploymentId) :
    new.countP (Call.drafts id) = 0 := by
  refine List.countP_eq_zero.mpr fun c hc => ?_
  rcases h c hc with ⟨r, rfl⟩ | ⟨x, rfl, _⟩
  · cases r <;> simp [Request.start, Call.drafts, Call.draft]
  · simp [Call.drafts, Call.draft]

theorem countP_late_drafts (xs : List InternalRequest) (id : DeploymentId) :
    (xs.map Call.late).countP (Call.drafts id) = 0 := by
  rw [List.countP_map]
  exact List.countP_eq_zero.mpr fun x _ => by simp [Call.drafts, Call.draft]

theorem shuffles_of_foreground {c : Command} (hc : c.foreground = true)
    (rows : List Deployment) : c ≠ .shuffleDeployments rows := by
  rintro rfl
  cases hc

theorem shuffles_of_background {c : Command} (hc : c.background = true)
    (rows : List Deployment) : c ≠ .shuffleDeployments rows := by
  rintro rfl
  cases hc

theorem rows_call {before later : List Call} {c : Call} {r : Reply} {procs : Processes}
    (hcalls : s.procs.calls = before ++ c :: later) (hs' : s' = {
        world := (s.world.exec cfg (c.step cfg s.world r).command).record
          (c.step cfg s.world r).entries
        procs := { procs with calls := before ++ (c.step cfg s.world r).next.toList ++ later } })
    (id : DeploymentId) :
    s'.rows id ≤ s.rows id + Fresh.drawn s.world.db.nextId s'.world.db.nextId id := by
  have h := rows_le_of_inserts (inserts_step cfg s.world c r) cfg
    (shuffles_of_foreground (foreground_call cfg s.world r c).command) id
  have hc : Call.drafts id c = c.draft.any fun draft => draft.deployment.id == id := rfl
  subst hs'
  simp only [rows, hcalls, List.countP_append, List.countP_cons, countP_toList_drafts, hc,
    World.record_db] at h ⊢
  simp only [draftRows] at h ⊢
  omega

theorem tabled_step {e : Event} (hs : s.Tabled) (h : s.step cfg e = some s') : s'.Tabled := by
  rcases step_cases h with ⟨i, r, before, c, later, rfl, hcalls, hs'⟩ | ⟨r, rfl, hs'⟩ |
    ⟨command, new, hb⟩
  · refine hs.step ?_ (rows_call hcalls hs')
    rw [hs', World.record_db, World.nextId_exec]
    exact Nat.le_add_right _ _
  · have hworker := background_worker cfg s.world r s.procs.worker
    have hrows (id : DeploymentId) := World.rowsOf_exec (w := s.world) cfg
      (fun rows hrows => absurd hrows (shuffles_of_background hworker.command rows)) id
    rw [inserted_of_background hworker.command] at hrows
    refine hs.step ?_ fun id => ?_
    · rw [hs', (taken_background hworker cfg s.world 0).2]
    · refine Nat.le_trans ?_ (Nat.le_add_right _ _)
      rw [hs', rows, rows, List.countP_append, countP_late_drafts]
      exact Nat.add_le_add_right (hrows id) _
  · have hrows (id : DeploymentId) := World.rowsOf_exec (w := s.world) cfg hb.shuffles id
    rw [inserted_of_bystander hb.bystander] at hrows
    refine hs.step ?_ fun id => ?_
    · rw [hb.world, World.nextId_bystander cfg _ hb.bystander]
    · refine Nat.le_trans ?_ (Nat.le_add_right _ _)
      rw [rows, rows, hb.calls, List.countP_append, countP_starts_drafts hb.starts, hb.world]
      exact Nat.add_le_add_right (hrows id) _

end State

/-! ## One row for each project -/

def Command.projects : Command → List Project
  | .commitDraft draft => [draft.project]
  | _ => []

theorem projects_of_inserted {c : Command} (h : c.inserted = []) : c.projects = [] := by
  cases c with
  | commitDraft => cases h
  | _ => rfl

/-- How often a table has a project with the identifier. -/
def projectsOf (id : ProjectId) (ps : List Project) : Nat := ps.countP fun p => p.id == id

theorem projectsOf_map (id : ProjectId) (ps : List Project) {f : Project → Project}
    (hf : ∀ p, (f p).id = p.id) : projectsOf id (ps.map f) = projectsOf id ps := by
  rw [projectsOf, List.countP_map]
  exact List.countP_congr fun p _ => by rw [Function.comp_apply, hf]

theorem World.projectsOf_exec (cfg : Config) (w : World) (c : Command) (id : ProjectId) :
    projectsOf id (w.exec cfg c).db.projects ≤
      projectsOf id w.db.projects + projectsOf id c.projects := by
  have hkept {id' : ProjectId} {f : Project → Project} (hf : ∀ p, (f p).id = p.id) :
      projectsOf id (w.db.projects.map fun p => if p.id = id' then f p else p) ≤
        projectsOf id w.db.projects := by
    refine (projectsOf_map id _ fun p => ?_).le
    split
    · exact hf p
    · rfl
  rw [db_exec]
  cases c with
  | commitDraft draft => exact List.countP_append.le
  | updateProject id' dto | setOnlineStatus id' status => exact hkept fun _ => rfl
  | replaceEnvironmentVariables id' rows => exact hkept fun _ => rfl
  | createRedeployment d => exact hkept fun _ => rfl
  | deleteProject id' => exact List.filter_sublist.countP_le
  | _ => exact Nat.le_refl _

theorem openDraft_createProject {c : ProjectsService.Create} {r : Reply} {draft : Draft}
    (h : (c.step cfg w r).command = .openDraft draft) : draft.project.id = w.db.nextId := by
  have hskip {c : Command} (h : c = .openDraft draft) (hc : c = .skip) :
      draft.project.id = w.db.nextId := by
    cases hc.symm.trans h
  cases c with
  | findExisting | findGitAccounts =>
    rw [ProjectsService.Create.step] at h
    unfold query at h
    split at h <;> exact hskip h rfl
  | getLatestCommit => exact hskip h rfl
  | rollback draft' => cases h
  | insert userId dto installationId commitData =>
    rw [ProjectsService.Create.step] at h
    split at h
    · cases h
      rfl
    · exact hskip h rfl
  | enqueue draft' job =>
    rw [ProjectsService.Create.step] at h
    rcases command_issue w r.outcome (.addBuildJob job)
      (Flow.next (ProjectsService.Create.commit draft')) (.next (.rollback draft')) [] [] with
      hc | hc <;> rw [hc] at h <;> cases h
  | commit draft' =>
    rw [ProjectsService.Create.step] at h
    cases ho : r.outcome <;> rw [ho] at h <;> cases h

def Call.draftsProject (id : ProjectId) (c : Call) : Bool :=
  c.draft.any fun draft => draft.project.id == id

def draftProjects (id : ProjectId) (held : Option Draft) : Nat :=
  if held.any fun draft => draft.project.id == id then 1 else 0

theorem draftProjects_some (id : ProjectId) (draft : Draft) :
    draftProjects id (some draft) = if draft.project.id = id then 1 else 0 := by
  simp [draftProjects]

theorem countP_toList_draftsProject (id : ProjectId) (next : Option Call) :
    next.toList.countP (Call.draftsProject id) = draftProjects id (next.bind Call.draft) := by
  cases next with
  | none => rfl
  | some c => exact List.countP_singleton

theorem projectsOf_singleton (id : ProjectId) (p : Project) :
    projectsOf id [p] = if p.id = id then 1 else 0 := by
  simp [projectsOf, List.countP_singleton]

theorem projects_le_of_inserts {held next : Option Draft} {c : Command} (h : Inserts w held c next)
    (hopen : ∀ draft, c = .openDraft draft → next = some draft → draft.project.id = w.db.nextId)
    (cfg : Config) (id : ProjectId) :
    draftProjects id next + projectsOf id (w.exec cfg c).db.projects ≤
      draftProjects id held + projectsOf id w.db.projects +
        Fresh.drawn w.db.nextId (w.exec cfg c).db.nextId id := by
  have hle := w.projectsOf_exec cfg c id
  have hnone : draftProjects id none = 0 := rfl
  have hnil : projectsOf id [] = 0 := rfl
  cases h with
  | none h =>
    rw [projects_of_inserted h] at hle
    omega
  | row h hid hmint hqueued =>
    have hprojects : c.projects = [] := by
      cases c with
      | commitDraft => cases hmint
      | _ => rfl
    rw [hprojects] at hle
    omega
  | @openDraft draft hid =>
    have hrows : projectsOf id (w.exec cfg (.openDraft draft)).db.projects =
      projectsOf id w.db.projects := rfl
    rw [draftProjects_some, World.nextId_exec, World.minted, hopen draft rfl rfl, hrows]
    by_cases hnew : w.db.nextId = id
    · subst hnew
      rw [if_pos rfl, Fresh.drawn_of_le (Nat.le_refl _) (by omega)]
      omega
    · rw [if_neg hnew]
      omega
  | keep h =>
    rw [projects_of_inserted h] at hle
    omega
  | @commit draft =>
    rw [draftProjects_some]
    rw [Command.projects, projectsOf_singleton] at hle
    omega

namespace State

/-- How often a project has a row, or an open transaction that will insert it. -/
def projectRows (s : State) (id : ProjectId) : Nat :=
  projectsOf id s.world.db.projects + s.procs.calls.countP (Call.draftsProject id)

/-- Every project has at most one row, and an identifier that is not in use has none. -/
def Listed (s : State) : Prop := Fresh.Once s.world.db.nextId s.projectRows

theorem countP_starts_draftsProject {new : List Call}
    (h : ∀ c ∈ new, (∃ r : Request, c = r.start) ∨ ∃ x, c = .late x ∧ x.command.quiet = true)
    (id : ProjectId) : new.countP (Call.draftsProject id) = 0 := by
  refine List.countP_eq_zero.mpr fun c hc => ?_
  rcases h c hc with ⟨r, rfl⟩ | ⟨x, rfl, _⟩
  · cases r <;> simp [Request.start, Call.draftsProject, Call.draft]
  · simp [Call.draftsProject, Call.draft]

theorem countP_late_draftsProject (xs : List InternalRequest) (id : ProjectId) :
    (xs.map Call.late).countP (Call.draftsProject id) = 0 := by
  rw [List.countP_map]
  exact List.countP_eq_zero.mpr fun x _ => by simp [Call.draftsProject, Call.draft]

theorem projects_call {before later : List Call} {c : Call} {r : Reply} {procs : Processes}
    (hcalls : s.procs.calls = before ++ c :: later) (hs' : s' = {
        world := (s.world.exec cfg (c.step cfg s.world r).command).record
          (c.step cfg s.world r).entries
        procs := { procs with calls := before ++ (c.step cfg s.world r).next.toList ++ later } })
    (id : ProjectId) :
    s'.projectRows id ≤
      s.projectRows id + Fresh.drawn s.world.db.nextId s'.world.db.nextId id := by
  have hopen : ∀ draft, (c.step cfg s.world r).command = .openDraft draft →
      (c.step cfg s.world r).next.bind Call.draft = some draft →
        draft.project.id = s.world.db.nextId := by
    intro draft hcommand hdraft
    by_cases hc : ∀ x, c ≠ .createProject x
    · rw [draft_next hc] at hdraft
      cases hdraft
    · simp only [ne_eq, not_forall, not_not] at hc
      obtain ⟨c, rfl⟩ := hc
      exact openDraft_createProject hcommand
  have h := projects_le_of_inserts (inserts_step cfg s.world c r) hopen cfg id
  have hc : Call.draftsProject id c = c.draft.any fun draft => draft.project.id == id := rfl
  subst hs'
  simp only [projectRows, hcalls, List.countP_append, List.countP_cons,
    countP_toList_draftsProject, hc, World.record_db] at h ⊢
  simp only [draftProjects] at h ⊢
  omega

theorem listed_step {e : Event} (hs : s.Listed) (h : s.step cfg e = some s') : s'.Listed := by
  have hkeep {c : Command} (hc : c.inserted = []) (id : ProjectId) :
      projectsOf id (s.world.exec cfg c).db.projects ≤ projectsOf id s.world.db.projects := by
    have hle := s.world.projectsOf_exec cfg c id
    rw [projects_of_inserted hc] at hle
    exact hle
  rcases step_cases h with ⟨i, r, before, c, later, rfl, hcalls, hs'⟩ | ⟨r, rfl, hs'⟩ |
    ⟨command, new, hb⟩
  · refine hs.step ?_ (projects_call hcalls hs')
    rw [hs', World.record_db, World.nextId_exec]
    exact Nat.le_add_right _ _
  · have hworker := background_worker cfg s.world r s.procs.worker
    refine hs.step ?_ fun id => ?_
    · rw [hs', (taken_background hworker cfg s.world 0).2]
    · refine Nat.le_trans ?_ (Nat.le_add_right _ _)
      rw [hs', projectRows, projectRows, List.countP_append, countP_late_draftsProject]
      exact Nat.add_le_add_right (hkeep (inserted_of_background hworker.command) id) _
  · refine hs.step ?_ fun id => ?_
    · rw [hb.world, World.nextId_bystander cfg _ hb.bystander]
    · refine Nat.le_trans ?_ (Nat.le_add_right _ _)
      rw [projectRows, projectRows, hb.calls, List.countP_append,
        countP_starts_draftsProject hb.starts, hb.world]
      exact Nat.add_le_add_right (hkeep (inserted_of_bystander hb.bystander) id) _

theorem Listed.nodup (hs : s.Listed) : (s.world.db.projects.map (·.id)).Nodup := by
  rw [List.nodup_iff_count_le_one]
  intro id
  have hone := (hs id).1
  rw [projectRows, projectsOf] at hone
  rw [List.count, List.countP_map]
  exact Nat.le_trans (Nat.le_add_right _ _) hone

end State

end System
end Code2Cloud
