import Code2Cloud.Api.Discretion
import Mathlib.Data.List.Dedup

/-!
# The methods are discreet

Each of the methods, for the user it is called by.
-/

namespace Code2Cloud
namespace Api

open Logs AnalyticsService Policy

variable {δ : Deeds} {u : UserId} {id : ProjectId}

/-! ## Queries -/

theorem Database.mem_latestFirst {ds : List Deployment} {d : Deployment} :
    d ∈ Database.latestFirst ds ↔ d ∈ ds :=
  List.mem_insertionSort _

theorem Deeds.Covers.deploymentViews_own {db : Database} (h : δ.Covers db) {ds : List Deployment}
    (hds : ∀ d ∈ ds, δ.project d.projectId = some u) :
    (db.own u).deploymentViews ds = db.deploymentViews ds := by
  refine List.filterMap_congr fun d hd => ?_
  rw [h.findProject_own (hds d hd)]

theorem owns_recent {db : Database} (h : δ.Covers db) {ds : List Deployment} {n : Nat}
    (hmem : ∀ d ∈ ds, d ∈ db.deployments) (hds : ∀ d ∈ ds, δ.project d.projectId = some u) :
    δ.Owns u (((Database.latestFirst ds).take n).flatMap (·.keys)) := by
  refine Deeds.owns_flatMap.mpr fun d hd => ?_
  have hd := Database.mem_latestFirst.mp (List.mem_of_mem_take hd)
  exact h.owns_deployment (hmem d hd) (hds d hd)

theorem blind_ownedProject : (discretion u).Blind δ (ownedProject id u) := by
  intro δ' st _ _
  simp [ownedProject, discretion, Store.own]

theorem blind_ownedDeployment {id : DeploymentId} :
    (discretion u).Blind δ (ownedDeployment id u) := by
  intro δ' st _ _
  simp [ownedDeployment, discretion, Store.own]

theorem ownedProject_eq_ok {st : Store} {p : Project} :
    ownedProject id u st = .ok p ↔ st.db.findOwnedProject id u = some p := by
  unfold ownedProject
  cases st.db.findOwnedProject id u <;> simp

theorem ownedDeployment_eq_ok {id : DeploymentId} {st : Store} {d : Deployment} :
    ownedDeployment id u st = .ok d ↔ st.db.findOwnedDeployment id u = some d := by
  unfold ownedDeployment
  cases st.db.findOwnedDeployment id u <;> simp

/-- After the check of a project, its rows may be read. -/
theorem keeps_ownedProject {next : Project → Method}
    (hnext : ∀ δ' p, δ ≤ δ' → p.id = id → δ'.project id = some u →
      (discretion u).Keeps δ' (next p)) :
    (discretion u).Keeps δ (.read (ownedProject id u) next) := by
  refine keeps_read blind_ownedProject fun δ' st p hδ hst hp => ?_
  obtain ⟨hid, _, hproject⟩ := hst.covers.of_findOwnedProject (ownedProject_eq_ok.mp hp)
  exact hnext δ' p hδ hid hproject

/-! ## DeploymentsService -/

namespace Methods.DeploymentsService

theorem keeps_findAll : (discretion u).Keeps δ (findAll u) := by
  refine keeps_read (fun δ' st _ hst => ?_) fun δ' st views _ hst hviews => ?_
  · have hds : ∀ d ∈ (Database.latestFirst (st.db.deploymentsOfUser u)).take 10,
        δ'.project d.projectId = some u := by
      intro d hd
      have hd := Database.mem_latestFirst.mp (List.mem_of_mem_take hd)
      exact (hst.covers.mem_deploymentsOfUser hd).2
    simp only [discretion, Store.own, Database.deploymentsOfUser_own,
      hst.covers.deploymentViews_own hds]
  · cases hviews
    refine Deeds.owns_flatMap.mpr fun v hv => ?_
    obtain ⟨d, hd, hview⟩ := List.mem_filterMap.mp hv
    obtain ⟨p, _, rfl⟩ := Option.map_eq_some_iff.mp hview
    have hd := Database.mem_latestFirst.mp (List.mem_of_mem_take hd)
    obtain ⟨hmem, hu⟩ := hst.covers.mem_deploymentsOfUser hd
    exact hst.covers.owns_deployment hmem hu

theorem keeps_findAllByProject : (discretion u).Keeps δ (findAllByProject u id) := by
  refine keeps_ownedProject fun δ' _ _ _ hid => ?_
  refine keeps_read (fun δ₁ st hδ hst => ?_) fun δ₁ st rows hδ hst hrows => ?_
  · simp only [discretion, Store.own, hst.covers.deploymentsOf_own (hδ.1 _ _ hid)]
  · cases hrows
    have hmem : ∀ d ∈ st.db.deploymentsOf id, d ∈ st.db.deployments ∧ d.projectId = id := by
      intro d hd
      simpa [Database.deploymentsOf] using hd
    refine owns_recent hst.covers (fun d hd => (hmem d hd).1) fun d hd => ?_
    rw [(hmem d hd).2]
    exact hδ.1 _ _ hid

theorem keeps_findOne {id : DeploymentId} : (discretion u).Keeps δ (findOne u id) := by
  refine keeps_read (fun δ' st _ hst => ?_) fun δ' st found _ hst hfound => ?_
  · simp only [discretion, Store.own, Database.findOwnedDeployment_own]
    cases hd : st.db.findOwnedDeployment id u with
    | none => rfl
    | some d =>
      obtain ⟨_, _, hu⟩ := hst.covers.of_findOwnedDeployment hd
      dsimp only
      rw [hst.covers.findProject_own hu]
  · cases hd : st.db.findOwnedDeployment id u with
    | none =>
      rw [hd] at hfound
      cases hfound
    | some d =>
      rw [hd] at hfound
      cases hfound
      obtain ⟨hid, _, hu⟩ := hst.covers.of_findOwnedDeployment hd
      cases hp : st.db.findProject d.projectId with
      | none => trivial
      | some p =>
        have hpid : p.id = d.projectId := by simpa using List.find?_some hp
        refine Deeds.owns_append.mpr ⟨?_, ?_⟩
        · exact hst.covers.owns_deployment (List.mem_of_find?_eq_some hd) hu
        · exact hst.covers.owns_project (List.mem_of_find?_eq_some hp) (hpid ▸ hu)

/-- The log lines of an owned deployment are all in its user's part of the store. -/
theorem logRows_own {st : Store} (hst : st.Good δ) {id : DeploymentId} {options : LogsOptions}
    (hid : δ.owner (.deployment id) = some u) :
    logRows id options st = logRows id options (st.own u) := by
  have hlogs : ∀ x ∈ st.logs, x.deploymentId = id →
      (st.db.findOwnedDeployment x.deploymentId u).isSome = true := by
    intro x hx hxid
    obtain ⟨d, hd⟩ := Option.isSome_iff_exists.mp (hst.logs x hx)
    have hdid : d.id = x.deploymentId := by simpa using List.find?_some hd
    have hmem := List.mem_of_find?_eq_some hd
    have hu : δ.project d.projectId = some u := by
      rw [← hxid, ← hdid] at hid
      simpa [Deeds.owner, hst.covers.deployment hmem] using hid
    have howned := hst.covers.isSome_findOwnedProject (u := u)
      (hst.covers.linked.deployments d hmem)
    rw [hu, beq_self_eq_true] at howned
    rw [Database.findOwnedDeployment, List.find?_isSome]
    exact ⟨d, hmem, by simp [hdid, howned]⟩
  rw [logRows, logRows, Store.own, List.filter_filter]
  congr 2
  refine List.filter_congr fun x hx => ?_
  by_cases hxid : x.deploymentId = id
  · rw [hlogs x hx hxid, Bool.and_true]
  · simp [Viewer.follows, hxid]

theorem mem_takeRows {take : Int} {rows : List LogEntry} {x : LogEntry}
    (h : x ∈ takeRows take rows) : x ∈ rows := by
  unfold takeRows at h
  split at h
  · exact List.mem_of_mem_take h
  · exact List.mem_of_mem_drop h

theorem mem_logRows {st : Store} {id : DeploymentId} {options : LogsOptions} {x : LogEntry}
    (h : x ∈ logRows id options st) : x.deploymentId = id := by
  have hx := (List.mem_insertionSort _).mp (mem_takeRows h)
  have hfollows := (List.mem_filter.mp hx).2
  rw [Bool.and_eq_true, Viewer.follows, Bool.and_eq_true, beq_iff_eq] at hfollows
  exact hfollows.1.1

theorem keeps_getLogs {id : DeploymentId} {options : LogsOptions} :
    (discretion u).Keeps δ (getLogs u id options) := by
  refine keeps_read blind_ownedDeployment fun δ' st d _ hst hd => ?_
  obtain ⟨_, hdeployment, hu⟩ :=
    hst.covers.of_findOwnedDeployment (ownedDeployment_eq_ok.mp hd)
  have hid : δ'.owner (.deployment id) = some u := by rw [Deeds.owner, hdeployment]; exact hu
  refine keeps_read (fun δ₁ st hδ hst => ?_) fun δ₁ st logs hδ hst hlogs => ?_
  · exact congrArg Except.ok (logRows_own hst (Deeds.owner_mono hδ hid))
  · cases hlogs
    refine Deeds.owns_map.mpr fun x hx => ?_
    rw [mem_logRows hx]
    exact Deeds.owner_mono hδ hid

end Methods.DeploymentsService

/-! ## ProjectsService -/

namespace Methods.ProjectsService

variable {e : EncryptionService}

theorem owns_rows {db : Database} (h : δ.Covers db) {p : Project} (hp : p ∈ db.projects)
    (hu : δ.project p.id = some u) :
    δ.Owns u p.keys ∧
      (∀ d ∈ db.deploymentsOf p.id, δ.Owns u d.keys) ∧
      δ.Owns u ((db.domains.filter fun d => d.projectId == p.id).flatMap (·.keys)) ∧
      δ.Owns u ((db.environmentVariablesOf p.id).flatMap (·.keys)) := by
  refine ⟨h.owns_project hp hu, fun d hd => ?_, Deeds.owns_flatMap.mpr fun d hd => ?_,
    Deeds.owns_flatMap.mpr fun v hv => ?_⟩
  · obtain ⟨hmem, hid⟩ := List.mem_filter.mp hd
    exact h.owns_deployment hmem (eq_of_beq hid ▸ hu)
  · obtain ⟨hmem, hid⟩ := List.mem_filter.mp hd
    exact h.owns_domain hmem (eq_of_beq hid ▸ hu)
  · have hid := (List.mem_filter.mp hv).2
    simp [Deeds.Owns, EnvironmentVariable.keys, Deeds.owner, eq_of_beq hid, hu]

theorem view_own {db : Database} (h : δ.Covers db) {p : Project}
    (hu : δ.project p.id = some u) :
    Api.ProjectsService.view e (db.own u) p = Api.ProjectsService.view e db p := by
  simp only [Api.ProjectsService.view, h.environmentVariablesOf_own hu, h.deploymentsOf_own hu,
    h.domains_own hu]

theorem viewAll_own {db : Database} (h : δ.Covers db) {ps : List Project}
    (hps : ∀ p ∈ ps, δ.project p.id = some u) :
    Api.ProjectsService.viewAll e (db.own u) ps = Api.ProjectsService.viewAll e db ps := by
  induction ps with
  | nil => rfl
  | cons p ps ih =>
    rw [Api.ProjectsService.viewAll, Api.ProjectsService.viewAll,
      view_own h (hps p List.mem_cons_self),
      ih fun q hq => hps q (List.mem_cons_of_mem p hq)]

theorem keeps_findAll : (discretion u).Keeps δ (findAll e u) := by
  have hmem {δ' : Deeds} {st : Store} (hst : st.Good δ') {p : Project}
      (hp : p ∈ (st.db.projects.filter fun p => p.userId == u).insertionSort
        fun a b => b.updatedAt ≤ a.updatedAt) :
      p ∈ st.db.projects ∧ δ'.project p.id = some u := by
    obtain ⟨hp, huser⟩ := List.mem_filter.mp ((List.mem_insertionSort _).mp hp)
    exact ⟨hp, hst.covers.of_mem_project hp (eq_of_beq huser)⟩
  refine keeps_read (fun δ' st _ hst => ?_) fun δ' st views _ hst hviews => ?_
  · simp only [Api.ProjectsService.findAll, discretion, Store.own, Database.projects_own]
    exact (viewAll_own hst.covers fun p hp => (hmem hst hp).2).symm
  · refine Deeds.owns_flatMap.mpr fun v hv => ?_
    obtain ⟨p, hp, hview⟩ := Api.ProjectsService.exists_of_mem_viewAll hviews hv
    obtain ⟨hproject, hu⟩ := hmem hst hp
    obtain ⟨hkeys, hdeployments, hdomains, henvs⟩ := owns_rows hst.covers hproject hu
    unfold Api.ProjectsService.view at hview
    cases hrows : EnvironmentVariables.decryptAll e (st.db.environmentVariablesOf p.id) with
    | error err =>
      rw [hrows] at hview
      cases hview
    | ok rows =>
      rw [hrows] at hview
      cases hview
      simp only [Deeds.owns_append]
      refine ⟨⟨⟨hkeys, ?_⟩, hdomains⟩, ?_⟩
      · refine Deeds.owns_flatMap.mpr fun d hd => hdeployments d ?_
        exact Database.mem_of_latest (Option.mem_toList.mp hd)
      · refine Deeds.owns_flatMap.mpr fun v hv => ?_
        obtain ⟨row, hrow, hid⟩ := EnvironmentVariables.projectId_of_mem_decryptAll hrows hv
        have hkey := Deeds.owns_flatMap.mp henvs row hrow
        rwa [EnvironmentVariable.keys, hid] at hkey

theorem keeps_findOne : (discretion u).Keeps δ (findOne id u) := by
  refine keeps_read (fun δ' st _ hst => ?_) fun δ' st found _ hst hfound => ?_
  · rw [show ownedProject id u ((discretion u).view st) = ownedProject id u st from
      (blind_ownedProject δ' st (le_refl δ') hst).symm]
    cases hp : ownedProject id u st with
    | error err => rfl
    | ok p =>
      obtain ⟨hid, _, hu⟩ := hst.covers.of_findOwnedProject (ownedProject_eq_ok.mp hp)
      rw [← hid] at hu
      simp only [Except.map, details, discretion, Store.own,
        hst.covers.environmentVariablesOf_own hu, hst.covers.domains_own hu,
        hst.covers.deploymentsOf_own hu]
  · cases hp : ownedProject id u st with
    | error err =>
      rw [hp] at hfound
      cases hfound
    | ok p =>
      rw [hp] at hfound
      cases hfound
      have hfind := ownedProject_eq_ok.mp hp
      obtain ⟨hid, _, hu⟩ := hst.covers.of_findOwnedProject hfind
      rw [← hid] at hu
      obtain ⟨hkeys, hdeployments, hdomains, henvs⟩ :=
        owns_rows hst.covers (List.mem_of_find?_eq_some hfind) hu
      have hlatest : δ'.Owns u
          (((Database.latestFirst (st.db.deploymentsOf p.id)).take 5).flatMap (·.keys)) :=
        Deeds.owns_flatMap.mpr fun d hd =>
          hdeployments d (Database.mem_latestFirst.mp (List.mem_of_mem_take hd))
      exact Deeds.owns_append.mpr ⟨Deeds.owns_append.mpr
        ⟨Deeds.owns_append.mpr ⟨hkeys, hlatest⟩, hdomains⟩, henvs⟩

end Methods.ProjectsService

/-! ## DomainsService -/

theorem Methods.DomainsService.keeps_findAll :
    (discretion u).Keeps δ (DomainsService.findAll u id) := by
  refine keeps_ownedProject fun δ' _ _ _ hid => ?_
  refine keeps_read (fun δ₁ st hδ hst => ?_) fun δ₁ st rows hδ hst hrows => ?_
  · simp only [discretion, Store.own, hst.covers.domains_own (hδ.1 _ _ hid)]
  · cases hrows
    refine Deeds.owns_flatMap.mpr fun d hd => ?_
    obtain ⟨hmem, hdid⟩ := List.mem_filter.mp ((List.mem_insertionSort _).mp hd)
    exact hst.covers.owns_domain hmem (eq_of_beq hdid ▸ hδ.1 _ _ hid)

/-! ## EnvVarsService -/

theorem Methods.EnvVarsService.keeps_findAll {e : EncryptionService}
    {collation : String → String → Bool} :
    (discretion u).Keeps δ (EnvVarsService.findAll e collation u id) := by
  refine keeps_ownedProject fun δ' _ _ _ hid => ?_
  refine keeps_read (fun δ₁ st hδ hst => ?_) fun δ₁ st rows hδ hst hrows => ?_
  · simp only [discretion, Store.own, hst.covers.environmentVariablesOf_own (hδ.1 _ _ hid)]
  · refine Deeds.owns_flatMap.mpr fun v hv => ?_
    obtain ⟨row, hrow, hproject⟩ := EnvironmentVariables.projectId_of_mem_decryptAll hrows hv
    have hrow := (List.mem_filter.mp ((List.mem_insertionSort _).mp hrow)).2
    rw [← eq_of_beq hrow, hproject] at hid
    simp [Deeds.Owns, EnvironmentVariable.keys, Deeds.owner, hδ.1 _ _ hid]

theorem Methods.EnvVarsService.keeps_saveAll {items : List EnvVarItem} :
    (discretion u).Keeps δ (EnvVarsService.saveAll u id items) :=
  keeps_ownedProject fun _ _ _ _ hid =>
    ⟨hid, fun _ _ _ _ => rfl, fun _ _ _ _ => Deeds.owns_nil⟩

/-! ## SettingsService -/

theorem Deeds.owns_settings {db : Database} {c : SystemConfig} (h : db.systemConfigOf u = some c) :
    δ.Owns u [.user c.userId] := by
  have hc : c.userId = u := by simpa using List.find?_some h
  simp [Deeds.Owns, Deeds.owner, hc]

theorem Methods.SettingsService.keeps_getConfig {e : EncryptionService} :
    (discretion u).Keeps δ (SettingsService.getConfig e u) := by
  refine ⟨rfl, fun δ' st _ _ => ?_, fun δ' st _ _ => ?_⟩
  · simp only [discretion, Store.own, Database.systemConfigOf_own]
  · dsimp only
    cases hc : st.db.systemConfigOf u with
    | none => trivial
    | some c =>
      dsimp only
      cases hplain : Api.SettingsService.decrypted e c with
      | error err => trivial
      | ok plain =>
        have huser := Api.SettingsService.decrypted_userId hplain
        have howns := Deeds.owns_settings (δ := δ') hc
        rwa [← huser] at howns

theorem Methods.SettingsService.keeps_updateConfig {dto : UpdateSettingsDto} :
    (discretion u).Keeps δ (SettingsService.updateConfig u dto) := by
  refine ⟨rfl, fun δ' st _ _ => ?_, fun δ' st _ _ => ?_⟩
  · simp only [discretion, Store.own, Database.systemConfigOf_own]
  · dsimp only
    cases hc : st.db.systemConfigOf u with
    | none => trivial
    | some c => exact Deeds.owns_settings hc

/-! ## AnalyticsService -/

namespace Methods.AnalyticsService

/-- Counts, and what is computed of the user's deployments, may always be read. -/
theorem keeps_ofUser {β : Type} {f : List Deployment → β} {next : β → Method}
    (hnext : ∀ δ' (st : Store), δ ≤ δ' → st.Good δ' →
      (discretion u).Keeps δ' (next (f (st.db.deploymentsOfUser u)))) :
    (discretion u).Keeps δ (.read (fun st => .ok (f (st.db.deploymentsOfUser u))) next) := by
  refine keeps_read (fun δ' st _ _ => ?_) fun δ' st b hδ hst hb => ?_
  · simp only [discretion, Store.own, Database.deploymentsOfUser_own]
  · cases hb
    exact hnext δ' st hδ hst

theorem keeps_ofProject {β : Type} {f : List Deployment → β} {next : β → Method}
    (hid : δ.project id = some u)
    (hnext : ∀ δ' (st : Store), δ ≤ δ' → st.Good δ' →
      (discretion u).Keeps δ' (next (f (st.db.deploymentsOf id)))) :
    (discretion u).Keeps δ (.read (fun st => .ok (f (st.db.deploymentsOf id))) next) := by
  refine keeps_read (fun δ' st hδ hst => ?_) fun δ' st b hδ hst hb => ?_
  · simp only [discretion, Store.own, hst.covers.deploymentsOf_own (hδ.1 _ _ hid)]
  · cases hb
    exact hnext δ' st hδ hst

theorem mem_recentDeployments {ds : List Deployment} {start : Nat} {d : Deployment}
    (h : d ∈ recentDeployments ds start) : d ∈ ds :=
  (List.mem_filter.mp ((List.mem_insertionSort _).mp h)).1

theorem mem_projectDeploymentCounts {ds : List Deployment} {group : ProjectId × Nat}
    (h : group ∈ projectDeploymentCounts ds) : ∃ d ∈ ds, d.projectId = group.1 := by
  obtain ⟨id, hid, rfl⟩ :=
    List.mem_map.mp ((List.mem_insertionSort _).mp (List.mem_of_mem_take h))
  exact List.mem_map.mp (List.mem_dedup.mp hid)

theorem projectId_of_mem_deploymentsByProject {ps : List Project} {counts : List (ProjectId × Nat)}
    {group : ProjectCount} (h : group ∈ deploymentsByProject ps counts) :
    ∃ count ∈ counts, count.1 = group.projectId := by
  obtain ⟨count, hcount, rfl⟩ := List.mem_map.mp h
  refine ⟨count, hcount, ?_⟩
  split <;> rfl

theorem keeps_getOverview {zone : Zone} {now : Nat} :
    (discretion u).Keeps δ (getOverview zone now u) := by
  refine keeps_ofUser (f := List.length) fun δ₁ _ _ _ => ?_
  refine keeps_read (fun δ' st _ _ => ?_) fun δ₂ _ totalProjects _ _ _ => ?_
  · simp only [discretion, Store.own, Database.projects_own]
  refine keeps_ofUser (f := fun ds => (recentDeployments ds (daysBefore now 7)).length)
    fun δ₃ _ _ _ => ?_
  refine keeps_ofUser (f := Api.AnalyticsService.statusDistribution) fun δ₄ _ _ _ => ?_
  refine keeps_ofUser (f := fun ds => recentDeployments ds (daysBefore now 30))
    fun δ₅ _ _ _ => ?_
  refine keeps_ofUser
    (f := fun ds => projectDeploymentCounts (recentDeployments ds (daysBefore now 30)))
    fun δ₆ st _ hst => ?_
  have hcounts : ∀ count ∈ projectDeploymentCounts
      (recentDeployments (st.db.deploymentsOfUser u) (daysBefore now 30)),
      δ₆.project count.1 = some u := by
    intro count hcount
    obtain ⟨d, hd, hid⟩ := mem_projectDeploymentCounts hcount
    exact hid ▸ (hst.covers.mem_deploymentsOfUser (mem_recentDeployments hd)).2
  generalize projectDeploymentCounts
    (recentDeployments (st.db.deploymentsOfUser u) (daysBefore now 30)) = counts at hcounts
  refine keeps_read (fun δ' st hδ hst => ?_) fun δ₇ _ projects hδ _ _ => ?_
  · simp only [discretion, Store.own, hst.covers.own_eq, Database.ownBy, List.filter_filter]
    refine congrArg Except.ok (List.filter_congr fun p hp => ?_)
    by_cases hmem : p.id ∈ counts.map (·.1)
    · obtain ⟨count, hcount, hid⟩ := List.mem_map.mp hmem
      have hu := hδ.1 _ _ (hcounts count hcount)
      rw [hid] at hu
      simp [hu]
    · have hnot : (counts.map (·.1)).contains p.id = false := by simpa using hmem
      rw [hnot, Bool.false_and]
  · refine Deeds.owns_map.mpr fun group hgroup => ?_
    obtain ⟨count, hcount, hid⟩ := projectId_of_mem_deploymentsByProject hgroup
    exact hid ▸ hδ.1 _ _ (hcounts count hcount)

theorem keeps_getProjectAnalytics {zone : Zone} {now : Nat} :
    (discretion u).Keeps δ (getProjectAnalytics zone now u id) := by
  refine keeps_ownedProject fun δ₀ p _ hpid hid => ?_
  refine keeps_ofProject (f := List.length) hid fun δ₁ _ h₁ _ => ?_
  replace hid := h₁.1 _ _ hid
  refine keeps_ofProject (f := fun ds => (recentDeployments ds (daysBefore now 7)).length) hid
    fun δ₂ _ h₂ _ => ?_
  replace hid := h₂.1 _ _ hid
  refine keeps_ofProject (f := Api.AnalyticsService.statusDistribution) hid fun δ₃ _ h₃ _ => ?_
  replace hid := h₃.1 _ _ hid
  refine keeps_ofProject (f := fun ds => recentDeployments ds (daysBefore now 30)) hid
    fun δ₄ st h₄ hst => ?_
  replace hid := h₄.1 _ _ hid
  refine List.forall_mem_cons.mpr ⟨hpid ▸ hid, List.forall_mem_map.mpr fun a ha => ?_⟩
  obtain ⟨d, hd, rfl⟩ := List.mem_map.mp ha
  obtain ⟨hmem, hdid⟩ := List.mem_filter.mp (mem_recentDeployments (List.mem_of_mem_take hd))
  have hkeys := hst.covers.owns_deployment hmem (eq_of_beq hdid ▸ hid)
  exact hkeys _ List.mem_cons_self

end Methods.AnalyticsService
end Api
end Code2Cloud
