import Code2Cloud.Api.Logs
import Code2Cloud.Api.Projects
import Code2Cloud.Api.Settings

/-!
# What runs by the clock

The queries of `InternalService` behind the sweeps of the worker: the deployments past their time to
live, and the log entries past their retention.  Both go through the users' settings one by one.
-/

namespace Code2Cloud
namespace Api

open Logs

/-- The keys of the tables, and the reference of a deployment to its project. -/
structure Database.Keyed (db : Database) : Prop where
  projects : (db.projects.map (·.id)).Nodup
  deployments : (db.deployments.map (·.id)).Nodup
  systemConfigs : (db.systemConfigs.map (·.userId)).Nodup
  projectOf : ∀ d ∈ db.deployments, (db.findProject d.projectId).isSome

namespace InternalService

variable (e : EncryptionService)

/-- The settings of a project's user; the defaults where the user has no row.  A webhook that does
not decrypt is left out. -/
def getSettingsByProject (db : Database) (projectId : ProjectId) :
    Except HttpException SystemConfig :=
  match db.findProject projectId with
  | none => .error (.notFound "Project not found")
  | some p =>
    match db.systemConfigOf p.userId with
    | none => .ok { userId := p.userId }
    | some c =>
      .ok { c with
        slackWebhook := c.slackWebhook.bind fun s =>
          if s.isEmpty then none else (e.decrypt s).toOption }

/-! ## Deployments -/

structure ExpiredDeployment where
  id : DeploymentId
  projectId : ProjectId
  projectName : ProjectName
  containerImage : Option String
  deploymentUrl : Option String
  startedAt : Nat
  ttlMinutes : Int
  deriving DecidableEq

def overdue (now : Nat) (ttlMinutes : Int) (d : Deployment) : Bool :=
  decide ((d.startedAt : Int) + ttlMinutes * 60 * 1000 < now)

def expiredOf (db : Database) (now : Nat) (config : SystemConfig) : List ExpiredDeployment :=
  db.deployments.filterMap fun d =>
    (db.findOwnedProject d.projectId config.userId).bind fun p =>
      if d.status = .ready ∧ overdue now config.globalTTLMinutes d then
        some
          { id := d.id
            projectId := d.projectId
            projectName := p.name
            containerImage := d.containerImage
            deploymentUrl := d.deploymentUrl
            startedAt := d.startedAt
            ttlMinutes := config.globalTTLMinutes }
      else none

def getExpiredDeployments (db : Database) (now : Nat) : List ExpiredDeployment :=
  db.systemConfigs.flatMap (expiredOf db now)

def Expired (db : Database) (now : Nat) (d : Deployment) : Prop :=
  d.status = .ready ∧
    ∃ c, getSettingsByProject e db d.projectId = .ok c ∧ overdue now c.globalTTLMinutes d = true

structure ListsExpired (db : Database) (now : Nat) : Prop where
  once : ∀ d ∈ db.deployments, Expired e db now d →
    (getExpiredDeployments db now).countP (fun x => x.id == d.id) = 1
  others : ∀ x ∈ getExpiredDeployments db now, ∃ d ∈ db.deployments,
    x.id = d.id ∧ Expired e db now d

variable {e} {db : Database} {now : Nat} {p : Project} {d : Deployment}

theorem isSome_findOwnedProject (h : db.Keyed) {id : ProjectId} (hp : db.findProject id = some p)
    (u : UserId) : (db.findOwnedProject id u).isSome = (p.userId == u) := by
  have hid : p.id = id := by simpa using List.find?_some hp
  rw [Bool.eq_iff_iff, Database.findOwnedProject, List.find?_isSome, beq_iff_eq]
  constructor
  · rintro ⟨q, hq, hqp⟩
    rw [Bool.and_eq_true, beq_iff_eq, beq_iff_eq] at hqp
    have hfind := Table.find?_of_nodup h.projects hq
    rw [hqp.1, ← Database.findProject, hp, Option.some.injEq] at hfind
    rw [hfind, hqp.2]
  · rintro rfl
    exact ⟨p, List.mem_of_find?_eq_some hp, by simp [hid]⟩

/-- The query for the project's user finds the deployment if it is live and overdue; no other query
finds it. -/
theorem countP_expiredOf (h : db.Keyed) (hd : d ∈ db.deployments)
    (hp : db.findProject d.projectId = some p) (c : SystemConfig) :
    (expiredOf db now c).countP (fun x => x.id == d.id) =
      if (c.userId == p.userId && (d.status == .ready && overdue now c.globalTTLMinutes d)) = true
        then 1 else 0 := by
  have hfound : ∀ a : Deployment,
      ((((db.findOwnedProject a.projectId c.userId).bind fun p =>
        if a.status = .ready ∧ overdue now c.globalTTLMinutes a then
          some (ExpiredDeployment.mk a.id a.projectId p.name a.containerImage a.deploymentUrl
            a.startedAt c.globalTTLMinutes)
        else none).map fun x => x.id == d.id).getD false) =
      (a.id == d.id && ((db.findOwnedProject a.projectId c.userId).isSome &&
        (a.status == .ready && overdue now c.globalTTLMinutes a))) := by
    intro a
    cases db.findOwnedProject a.projectId c.userId with
    | none => simp
    | some q =>
      by_cases hready : a.status = .ready ∧ overdue now c.globalTTLMinutes a = true
      · simp [hready.1, hready.2]
      · have hnot : (a.status == .ready && overdue now c.globalTTLMinutes a) = false := by
          simpa using hready
        simp [hready, hnot]
  rw [expiredOf, List.countP_filterMap, funext hfound, Table.countP_key_and h.deployments,
    Table.find?_of_nodup h.deployments hd, Option.any_some, isSome_findOwnedProject h hp]
  rw [Bool.beq_comm (a := p.userId)]

theorem countP_getExpiredDeployments (h : db.Keyed) (hd : d ∈ db.deployments)
    (hp : db.findProject d.projectId = some p) :
    (getExpiredDeployments db now).countP (fun x => x.id == d.id) =
      if (db.systemConfigOf p.userId).any (fun c =>
        d.status == .ready && overdue now c.globalTTLMinutes d) = true then 1 else 0 := by
  rw [getExpiredDeployments, List.countP_flatMap]
  have hcount : ∀ c, (expiredOf db now c).countP (fun x => x.id == d.id) = _ :=
    countP_expiredOf h hd hp
  have hcounts := List.map_congr_left fun c (_ : c ∈ db.systemConfigs) => hcount c
  rw [show (List.countP fun x : ExpiredDeployment => x.id == d.id) ∘ expiredOf db now =
    fun c => (expiredOf db now c).countP fun x => x.id == d.id from rfl, hcounts,
    Table.sum_map_ite, Table.countP_key_and h.systemConfigs]
  rfl

theorem expired_iff (hp : db.findProject d.projectId = some p) :
    Expired e db now d ↔ d.status = .ready ∧
      overdue now ((db.systemConfigOf p.userId).elim 5 (·.globalTTLMinutes)) d = true := by
  simp only [Expired, getSettingsByProject, hp]
  cases db.systemConfigOf p.userId <;> simp

theorem expired_of_mem (h : db.Keyed) {x : ExpiredDeployment}
    (hx : x ∈ getExpiredDeployments db now) :
    ∃ d ∈ db.deployments, x.id = d.id ∧ Expired e db now d := by
  obtain ⟨c, _, hxc⟩ := List.mem_flatMap.mp hx
  obtain ⟨d, hd, hxd⟩ := List.mem_filterMap.mp hxc
  obtain ⟨q, _, hxd⟩ := Option.bind_eq_some_iff.mp hxd
  have hid : x.id = d.id := by
    split at hxd
    · cases hxd
      rfl
    · cases hxd
  obtain ⟨p, hp⟩ := Option.isSome_iff_exists.mp (h.projectOf d hd)
  have hcount : 0 < (getExpiredDeployments db now).countP fun x => x.id == d.id :=
    List.countP_pos_iff.mpr ⟨x, hx, by simp [hid]⟩
  rw [countP_getExpiredDeployments h hd hp] at hcount
  split at hcount
  · rename_i hany
    rw [Option.any_eq_true] at hany
    obtain ⟨c, hc, hlive⟩ := hany
    rw [Bool.and_eq_true, beq_iff_eq] at hlive
    refine ⟨d, hd, hid, (expired_iff hp).mpr ⟨hlive.1, ?_⟩⟩
    rw [hc]
    exact hlive.2
  · exact absurd hcount (Nat.lt_irrefl 0)

variable (e) in
/-- The sweep is exact if and only if no deployment of a user without a row of settings has outlived
the default time to live. -/
theorem lists_expired_iff (h : db.Keyed) :
    ListsExpired e db now ↔
      ∀ d ∈ db.deployments, ∀ p, db.findProject d.projectId = some p →
        db.systemConfigOf p.userId = none → d.status = .ready → overdue now 5 d = false := by
  constructor
  · intro hlists d hd p hp hnone hready
    rw [Bool.eq_false_iff]
    intro hover
    have honce := hlists.once d hd ((expired_iff hp).mpr ⟨hready, by rw [hnone]; exact hover⟩)
    rw [countP_getExpiredDeployments h hd hp, hnone] at honce
    exact absurd honce (by simp)
  · intro hdefault
    refine ⟨fun d hd hexpired => ?_, fun x hx => expired_of_mem h hx⟩
    obtain ⟨p, hp⟩ := Option.isSome_iff_exists.mp (h.projectOf d hd)
    obtain ⟨hready, hover⟩ := (expired_iff hp).mp hexpired
    rw [countP_getExpiredDeployments h hd hp]
    cases hc : db.systemConfigOf p.userId with
    | none =>
      rw [hc] at hover
      exact absurd hover (Bool.eq_false_iff.mp (hdefault d hd p hp hc hready))
    | some c =>
      rw [hc] at hover
      have hlive : (d.status == .ready && overdue now c.globalTTLMinutes d) = true := by
        simpa [hready] using hover
      rw [Option.any_some, if_pos hlive]

def liveDatabase (systemConfigs : List SystemConfig) : Database :=
  { Database.empty with
    projects :=
      [{ id := 1, name := shopName, gitRepoOwner := "ada", gitRepoName := "shop"
         gitBranch := "main", gitCloneUrl := "https://github.com/ada/shop.git"
         updatedAt := 0, userId := 1 }]
    deployments :=
      [{ id := 2, status := .ready, commitHash := "", commitMessage := "", commitAuthor := ""
         branch := "main", startedAt := 0, projectId := 1, initiatorId := some 1 }]
    systemConfigs
    nextId := 4 }

theorem lists_expired_live :
    ListsExpired .clear (liveDatabase [{ userId := 1 }]) 300001 := by
  refine (lists_expired_iff .clear ⟨by decide, by decide, by decide, by decide⟩).mpr ?_
  decide

/-- A user without settings: the default time to live is over, and the sweep lists nothing. -/
theorem not_lists_expired :
    ¬∀ (e : EncryptionService) (db : Database) (now : Nat), db.Keyed → ListsExpired e db now := by
  intro h
  have hlists := h .clear (liveDatabase []) 300001
    ⟨by decide, by decide, by decide, by decide⟩
  have hone := hlists.once _ List.mem_cons_self ⟨rfl, { userId := 1 }, rfl, by decide⟩
  exact absurd hone (by decide)

/-! ## Log entries -/

/-- `new Date(t)` is a date; Prisma refuses a query with any other. -/
def validDate (t : Int) : Bool := decide (-8640000000000000 ≤ t ∧ t ≤ 8640000000000000)

def logThreshold (now : Nat) (logRetentionDays : Int) : Int :=
  now - logRetentionDays * 24 * 60 * 60 * 1000

/-- `deployment: { project: { userId } }` -/
def logOf (db : Database) (userId : UserId) (x : LogEntry) : Bool :=
  (db.findOwnedDeployment x.deploymentId userId).isSome

/-- The loop over the settings, with the entries that are left and the number of those deleted. -/
def cleanupLoop (db : Database) (now : Nat) :
    List SystemConfig → List LogEntry → Nat → List LogEntry × Except HttpException Nat
  | [], logs, totalDeleted => (logs, .ok totalDeleted)
  | config :: configs, logs, totalDeleted =>
    if config.logRetentionDays = 0 then cleanupLoop db now configs logs totalDeleted
    else if !validDate (logThreshold now config.logRetentionDays) then (logs, .error .internal)
    else
      let expired := logs.filter fun x =>
        logOf db config.userId x && decide (x.timestamp < logThreshold now config.logRetentionDays)
      let left := logs.filter fun x =>
        !(logOf db config.userId x &&
          decide (x.timestamp < logThreshold now config.logRetentionDays))
      cleanupLoop db now configs left (totalDeleted + expired.length)

def cleanupLogs (db : Database) (logs : List LogEntry) (now : Nat) :
    List LogEntry × Except HttpException Nat :=
  cleanupLoop db now db.systemConfigs logs 0

def withRetention (e : EncryptionService) (iv : Iv) (db : Database) (u : UserId) (days : Int) :
    Database :=
  { db with
    systemConfigs :=
      SettingsService.upsert e iv u { logRetentionDays := some days } db.systemConfigs }

/-- The entry is older than its user keeps entries, by default for a day; 0 keeps them for ever. -/
def outdated (db : Database) (now : Nat) (userId : UserId) (x : LogEntry) : Bool :=
  let days := (db.systemConfigOf userId).elim 1 (·.logRetentionDays)
  days != 0 && decide (x.timestamp < logThreshold now days)

def keptOf (db : Database) (logs : List LogEntry) (now : Nat) (userId : UserId) : List LogEntry :=
  (cleanupLogs db logs now).1.filter (logOf db userId)

/-- Whatever retention one user sets, of two values, the sweep leaves the same entries of the other
users, and of those exactly the outdated ones are gone. -/
structure SweepsPerUser (e : EncryptionService) (iv : Iv) (db : Database) (logs : List LogEntry)
    (now : Nat) (u : UserId) (a b : Int) : Prop where
  same : ∀ v ≠ u, keptOf (withRetention e iv db u a) logs now v =
    keptOf (withRetention e iv db u b) logs now v
  exact : ∀ v ≠ u, keptOf (withRetention e iv db u a) logs now v =
    logs.filter fun x => logOf db v x && !outdated db now v x

def usable (now : Nat) (config : SystemConfig) : Bool :=
  config.logRetentionDays == 0 || validDate (logThreshold now config.logRetentionDays)

/-- The sweep comes to the user's settings, and can use them and all settings before. -/
def Reached (db : Database) (now : Nat) (userId : UserId) : Prop :=
  ∃ config ∈ db.systemConfigs.takeWhile (usable now), config.userId = userId

/-- The entries that are left are those that no settings up to the first unusable ones let go. -/
theorem fst_cleanupLoop (db : Database) (now : Nat) (configs : List SystemConfig)
    (logs : List LogEntry) (totalDeleted : Nat) :
    (cleanupLoop db now configs logs totalDeleted).1 = logs.filter fun x =>
      !(configs.takeWhile (usable now)).any fun c => c.logRetentionDays != 0 &&
        (logOf db c.userId x && decide (x.timestamp < logThreshold now c.logRetentionDays)) := by
  induction configs generalizing logs totalDeleted with
  | nil => simp [cleanupLoop]
  | cons c configs ih =>
    rw [cleanupLoop]
    by_cases hzero : c.logRetentionDays = 0
    · rw [if_pos hzero, ih, List.takeWhile_cons_of_pos (by simp [usable, hzero])]
      simp [hzero]
    · rw [if_neg hzero]
      have hne : (c.logRetentionDays != 0) = true := by simpa using hzero
      by_cases hvalid : validDate (logThreshold now c.logRetentionDays) = true
      · rw [if_neg (by simp [hvalid]), ih, List.filter_filter,
          List.takeWhile_cons_of_pos (by simp [usable, hvalid])]
        refine List.filter_congr fun x _ => ?_
        rw [List.any_cons, hne, Bool.true_and, Bool.not_or, Bool.and_comm]
      · rw [if_pos (by simp [hvalid]), List.takeWhile_cons_of_neg (by simp [usable, hzero, hvalid])]
        simp

theorem user_of_logOf (h : db.Keyed) {u v : UserId} {x : LogEntry} (hu : logOf db u x = true)
    (hv : logOf db v x = true) : u = v := by
  have hproject {u : UserId} (hu : logOf db u x = true) :
      ∃ d ∈ db.deployments, d.id = x.deploymentId ∧
        ∃ p, db.findProject d.projectId = some p ∧ p.userId = u := by
    rw [logOf, Database.findOwnedDeployment, List.find?_isSome] at hu
    obtain ⟨d, hd, hfound⟩ := hu
    rw [Bool.and_eq_true, beq_iff_eq] at hfound
    obtain ⟨p, hp⟩ := Option.isSome_iff_exists.mp (h.projectOf d hd)
    have howner := hfound.2
    rw [isSome_findOwnedProject h hp, beq_iff_eq] at howner
    exact ⟨d, hd, hfound.1, p, hp, howner⟩
  obtain ⟨d, hd, hid, p, hp, rfl⟩ := hproject hu
  obtain ⟨d', hd', hid', p', hp', rfl⟩ := hproject hv
  have hfind := Table.find?_of_nodup h.deployments hd
  have hfind' := Table.find?_of_nodup h.deployments hd'
  rw [hid] at hfind
  rw [hid', hfind, Option.some.injEq] at hfind'
  subst hfind'
  rw [hp, Option.some.injEq] at hp'
  rw [hp']

/-- A sweep leaves of a user's entries exactly those that are not outdated, if and only if it
reaches the user's settings where one of them is. -/
theorem keptOf_eq_iff (h : db.Keyed) {logs : List LogEntry} {v : UserId} :
    keptOf db logs now v = logs.filter (fun x => logOf db v x && !outdated db now v x) ↔
      ((∃ x ∈ logs, logOf db v x = true ∧ outdated db now v x = true) → Reached db now v) := by
  have hconfig : ∀ c ∈ db.systemConfigs.takeWhile (usable now), c.userId = v →
      db.systemConfigOf v = some c := by
    rintro c hc rfl
    exact Table.find?_of_nodup h.systemConfigs ((List.takeWhile_prefix _).subset hc)
  have hswept : ∀ x, logOf db v x = true →
      (((db.systemConfigs.takeWhile (usable now)).any fun c => c.logRetentionDays != 0 &&
        (logOf db c.userId x &&
          decide (x.timestamp < logThreshold now c.logRetentionDays))) = true ↔
      outdated db now v x = true ∧ Reached db now v) := by
    intro x hx
    rw [List.any_eq_true]
    constructor
    · rintro ⟨c, hc, hgo⟩
      rw [Bool.and_eq_true, Bool.and_eq_true] at hgo
      have huser := user_of_logOf h hgo.2.1 hx
      refine ⟨?_, c, hc, huser⟩
      simp only [outdated, hconfig c hc huser, Option.elim_some, Bool.and_eq_true]
      exact ⟨hgo.1, hgo.2.2⟩
    · rintro ⟨hold, c, hc, huser⟩
      simp only [outdated, hconfig c hc huser, Option.elim_some, Bool.and_eq_true] at hold
      refine ⟨c, hc, ?_⟩
      rw [huser, hx, Bool.true_and, Bool.and_eq_true]
      exact hold
  rw [keptOf, cleanupLogs, fst_cleanupLoop, List.filter_filter, Table.filter_eq_filter_iff]
  constructor
  · rintro hall ⟨x, hx, hof, hold⟩
    have hpoint := hall x hx
    rw [hof, hold] at hpoint
    have hgone := (hswept x hof).mp (by simpa using hpoint)
    exact hgone.2
  · intro hreached x hx
    cases hof : logOf db v x with
    | false => simp
    | true =>
      rw [Bool.true_and, Bool.true_and]
      congr 1
      rw [Bool.eq_iff_iff, hswept x hof]
      exact ⟨fun hgone => hgone.1, fun hold => ⟨hold, hreached ⟨x, hx, hof, hold⟩⟩⟩

variable (e : EncryptionService) (iv : Iv)

theorem systemConfigOf_withRetention {u v : UserId} (hv : v ≠ u) (days : Int) :
    (withRetention e iv db u days).systemConfigOf v = db.systemConfigOf v := by
  rw [Database.systemConfigOf, Database.systemConfigOf, ← List.head?_filter, ← List.head?_filter]
  exact congrArg List.head? (SettingsService.upsert_other hv _ _)

theorem keyed_withRetention (h : db.Keyed) (u : UserId) (days : Int) :
    (withRetention e iv db u days).Keyed where
  projects := h.projects
  deployments := h.deployments
  systemConfigs := SettingsService.nodup_upsert h.systemConfigs
  projectOf := h.projectOf

/-- The sweep treats the users apart exactly as far as it reaches the settings of each other user
with an outdated entry, with either value: it ends at the first settings whose threshold is no date,
and it passes by the users without settings. -/
theorem sweeps_per_user_iff (h : db.Keyed) (logs : List LogEntry) (u : UserId) (a b : Int) :
    SweepsPerUser e iv db logs now u a b ↔
      ∀ days, days = a ∨ days = b → ∀ v ≠ u,
        (∃ x ∈ logs, logOf db v x = true ∧ outdated db now v x = true) →
          Reached (withRetention e iv db u days) now v := by
  have hiff (days : Int) {v : UserId} (hv : v ≠ u) :
      keptOf (withRetention e iv db u days) logs now v =
          logs.filter (fun x => logOf db v x && !outdated db now v x) ↔
        ((∃ x ∈ logs, logOf db v x = true ∧ outdated db now v x = true) →
          Reached (withRetention e iv db u days) now v) := by
    have h : keptOf (withRetention e iv db u days) logs now v = _ ↔ _ :=
      keptOf_eq_iff (keyed_withRetention e iv h u days)
    simp only [outdated, systemConfigOf_withRetention e iv hv] at h
    exact h
  constructor
  · rintro ⟨hsame, hexact⟩ days (rfl | rfl) v hv
    · exact (hiff days hv).mp (hexact v hv)
    · exact (hiff days hv).mp ((hsame v hv).symm.trans (hexact v hv))
  · intro hreached
    have hexact (v : UserId) (hv : v ≠ u) := (hiff a hv).mpr (hreached a (Or.inl rfl) v hv)
    refine ⟨fun v hv => ?_, hexact⟩
    exact (hexact v hv).trans ((hiff b hv).mpr (hreached b (Or.inr rfl) v hv)).symm

def oldLogs : List LogEntry :=
  [{ id := 1, deploymentId := 2, source := .build, timestamp := 0, message := "first" }]

theorem sweeps_per_user_live :
    SweepsPerUser .clear ⟨List.replicate 12 0, by decide⟩
      (liveDatabase [{ userId := 2 }, { userId := 1 }]) oldLogs 86400001 2 1 30 := by
  refine (sweeps_per_user_iff _ _ ⟨by decide, by decide, by decide, by decide⟩ _ _ _ _).mpr ?_
  rintro days (rfl | rfl) v hv ⟨x, hx, hof, _⟩
  all_goals
    rw [List.mem_singleton.mp hx] at hof
    have hone : v = 1 := user_of_logOf ⟨by decide, by decide, by decide, by decide⟩ hof (by decide)
    subst hone
    exact ⟨{ userId := 1 }, by decide, rfl⟩

/-- With a retention of 2147483647 days user 2 keeps the entries of user 1, who comes next. -/
theorem not_sweeps_per_user :
    ¬∀ (e : EncryptionService) (iv : Iv) (db : Database) (logs : List LogEntry) (now : Nat)
      (u : UserId) (a b : Int), -2147483648 ≤ a → a ≤ 2147483647 → -2147483648 ≤ b →
        b ≤ 2147483647 → db.Keyed → SweepsPerUser e iv db logs now u a b := by
  intro h
  have hsweep := h .clear ⟨List.replicate 12 0, by decide⟩
    (liveDatabase [{ userId := 2 }, { userId := 1 }]) oldLogs 86400001 2 2147483647 30
    (by decide) (by decide) (by decide) (by decide) ⟨by decide, by decide, by decide, by decide⟩
  exact absurd (hsweep.exact 1 (by decide)) (by decide)

end InternalService
end Api
end Code2Cloud
