import Code2Cloud.System.Lifecycle

/-!
# Expired deployments

What the expiry sweep deletes before it marks a deployment, and what its requests take
out of the deployments it will be given next time.
-/

namespace Code2Cloud
namespace System

open Api Worker

variable {cfg : Config} {w : World} {s s' : State} {e : Event} {id : DeploymentId}

def expiredIds (w : World) : List DeploymentId :=
  (w.db.systemConfigs.flatMap (expiredOf w)).map (·.id)

def deployedNames (id : DeploymentId) (log : List Entry) : List ProjectName :=
  log.filterMap fun
    | .deployed id' name => if id' = id then some name else none
    | _ => none

def deployedIn (entries : List Entry) : List DeploymentId :=
  entries.filterMap fun
    | .deployed id _ => some id
    | _ => none

namespace CleanupWorker

def cleaning : CleanupWorker → Option (ExpiredDeployment × List Kind)
  | cleanup d left _ => some (d, left)
  | markExpired d _ => some (d, [])
  | _ => none

end CleanupWorker

/-- A request of the sweep that the sweep no longer waits for. -/
def Call.expires : Call → Bool
  | .late (.writeStatus _ x) => x.status == .expired
  | _ => false

/-- The step is the sweep's, or that of a request it gave up on. -/
def State.sweeps (s : State) : Event → Bool
  | .sweep _ => true
  | .call i _ => s.procs.calls[i]?.any Call.expires
  | _ => false

/-- What the sweep did. -/
structure Ledger where
  /-- `errs` of the call of `Client.Cleanup` it is in. -/
  errs : List Kind
  /-- The deletions that were carried out for a deployment since its rollout, by name. -/
  released : List (DeploymentId × Kind × GoString)
  /-- The deployments it asked to mark. -/
  asked : List DeploymentId
  /-- The deployments that were marked. -/
  marked : List DeploymentId
  /-- The deployments its steps took out of those that `getExpiredDeployments` returns. -/
  dropped : List DeploymentId

namespace Ledger

def empty : Ledger where
  errs := []
  released := []
  asked := []
  marked := []
  dropped := []

def nextErrs (l : Ledger) (s : State) : Event → List Kind
  | .sweep r =>
    match s.procs.sweep with
    | .stopStreaming _ _ => []
    | .cleanup _ (kind :: _) _ => if r.outcome = .ok then l.errs else l.errs ++ [kind]
    | _ => l.errs
  | _ => l.errs

def deletion (s : State) (e : Event) (t : Turn Processes) :
    List (DeploymentId × Kind × GoString) :=
  match e, s.procs.sweep, t.command with
  | .sweep _, .cleanup d _ _, .delete kind name => [(d.id, kind, name)]
  | _, _, _ => []

def request (s : State) (e : Event) : List DeploymentId :=
  match e, s.procs.sweep with
  | .sweep _, .markExpired d _ => [d.id]
  | _, _ => []

def mark (s : State) (e : Event) (t : Turn Processes) : List DeploymentId :=
  match t.command with
  | .writeStatus id _ => if s.sweeps e then [id] else []
  | _ => []

def drop (s : State) (e : Event) (s' : State) : List DeploymentId :=
  if s.sweeps e then (expiredIds s.world).filter fun id => !(expiredIds s'.world).contains id
  else []

def note (cfg : Config) (s : State) (e : Event) (s' : State) (l : Ledger) : Ledger :=
  match s.turn cfg e with
  | none => l
  | some t =>
    { errs := l.nextErrs s e
      released :=
        (l.released.filter fun x => !(deployedIn t.entries).contains x.1) ++ deletion s e t
      asked := l.asked ++ request s e
      marked := l.marked ++ mark s e t
      dropped := l.dropped ++ drop s e s' }

/-- Every object the deployment was rolled out with has been deleted for it. -/
def Full (l : Ledger) (log : List Entry) (id : DeploymentId) : Prop :=
  ∀ name ∈ deployedNames id log, ∀ kind ∈ Client.cleanupStages,
    (id, kind, Client.objectName kind (utf8 name.val)) ∈ l.released

end Ledger

/-- When the sweep asks to mark a deployment, no deletion of its cleanup failed and the cleanup
went by the name of the rollout. -/
def Cleans (s : State) (l : Ledger) : Event → Prop
  | .sweep _ =>
    match s.procs.sweep with
    | .markExpired d _ =>
      l.errs = [] ∧ ∀ name ∈ deployedNames d.id s.world.log, ∀ kind ∈ Client.cleanupStages,
        Client.deleteName kind (CleanupWorker.cleanupOptions d) =
          Client.objectName kind (utf8 name.val)
    | _ => True
  | _ => True

/-- The condition on a step: the sweep asks to mark only deployments that it cleaned up, and no
deployment is rolled out while the sweep cleans it up or after it asked to mark it. -/
def Releases (cfg : Config) (x : State × Ledger) (e : Event) : Prop :=
  Cleans x.1 x.2 e ∧ ∀ t ∈ x.1.turn cfg e, ∀ id ∈ deployedIn t.entries,
    id ∉ x.2.asked ∧ ∀ c ∈ x.1.procs.sweep.cleaning, c.1.id ≠ id

instance (s : State) (l : Ledger) (e : Event) : Decidable (Cleans s l e) := by
  unfold Cleans
  repeat' split
  all_goals infer_instance

instance (cfg : Config) (x : State × Ledger) (e : Event) : Decidable (Releases cfg x e) :=
  instDecidableAnd

/-! ## The deployments that have expired -/

theorem mem_expiredIds : id ∈ expiredIds w ↔
    ∃ config ∈ w.db.systemConfigs, ∃ d ∈ w.db.deployments, d.id = id ∧
      (w.db.findOwnedProject d.projectId config.userId).isSome = true ∧ d.status = .ready ∧
        (d.startedAt : Int) + config.globalTTLMinutes * 60 * 1000 < w.now := by
  simp only [expiredIds, List.mem_map, List.mem_flatMap, expiredOf, List.mem_filterMap]
  constructor
  · rintro ⟨x, ⟨config, hconfig, d, hd, hx⟩, rfl⟩
    obtain ⟨p, hp, hx⟩ := Option.bind_eq_some_iff.mp hx
    split at hx
    · rename_i hexpired
      cases hx
      exact ⟨config, hconfig, d, hd, rfl, by rw [hp]; rfl, hexpired⟩
    · cases hx
  · rintro ⟨config, hconfig, d, hd, rfl, hp, hexpired⟩
    obtain ⟨p, hp⟩ := Option.isSome_iff_exists.mp hp
    refine ⟨_, ⟨config, hconfig, d, hd, Option.bind_eq_some_iff.mpr ⟨p, hp, if_pos hexpired⟩⟩, rfl⟩

def Command.sweeping : Command → Bool
  | .skip | .stopStreaming _ | .delete _ _ | .setOnlineStatus _ _ | .writeStatus _ _ => true
  | _ => false

theorem isSome_findOwnedProject_update (db : Database) (id id' : ProjectId) (userId : UserId)
    (f : Project → Project) (hid : ∀ p, (f p).id = p.id) (huser : ∀ p, (f p).userId = p.userId) :
    ((db.updateProject id f).findOwnedProject id' userId).isSome =
      (db.findOwnedProject id' userId).isSome := by
  rw [Database.findOwnedProject, Database.findOwnedProject, List.isSome_find?,
    List.isSome_find?, Database.updateProject, List.any_map]
  congr 1
  funext p
  rw [Function.comp_apply]
  split
  · rw [hid, huser]
  · rfl

/-- A command of the sweep leaves an expired deployment among those that are found, unless it
writes its status. -/
theorem mem_expiredIds_exec (cfg : Config) {c : Command} (hc : c.sweeping = true)
    (hid : ∀ x, c ≠ .writeStatus id x) (h : id ∈ expiredIds w) :
    id ∈ expiredIds (w.exec cfg c) := by
  obtain ⟨config, hconfig, d, hd, rfl, hp, hready, hexpired⟩ := mem_expiredIds.mp h
  cases c with
  | skip | stopStreaming | delete => exact h
  | setOnlineStatus id' status =>
    refine mem_expiredIds.mpr ⟨config, hconfig, d, hd, rfl, ?_, hready, hexpired⟩
    rw [← hp]
    exact isSome_findOwnedProject_update _ _ _ _ _ (fun _ => rfl) fun _ => rfl
  | writeStatus id' x =>
    have hne : d.id ≠ id' := by
      rintro rfl
      exact hid x rfl
    refine mem_expiredIds.mpr ⟨config, hconfig, d, ?_, rfl, hp, hready, hexpired⟩
    exact List.mem_map.mpr ⟨d, hd, if_neg hne⟩
  | _ => cases hc

/-! ## The turns of the sweep -/

theorem sweeping_query (o : Outcome) (ok err : CleanupWorker) :
    (query o (.pure ok) (.pure err) : Turn CleanupWorker).command.sweeping = true := by
  unfold query
  split <;> rfl

theorem sweeping_issue (w : World) (o : Outcome) {c : Command} (hc : c.sweeping = true)
    (ok err : CleanupWorker) : (issue w o c ok err).command.sweeping = true := by
  rcases command_issue w o c ok err [] [] with h | h <;> rw [h]
  · exact hc
  · rfl

theorem sweeping_step (w : World) (r : Reply) (c : CleanupWorker) :
    (c.step w r).command.sweeping = true := by
  cases c with
  | idle => exact sweeping_query _ _ _
  | fetching configs found => cases configs <;> exact sweeping_query _ _ _
  | stopStreaming d rest => rfl
  | cleanup d left rest =>
    cases left with
    | nil => rfl
    | cons kind left => exact sweeping_issue w _ rfl _ _
  | markExpired d rest | projectInactive d rest => exact sweeping_issue w _ rfl _ _

/-- A step of the sweep, or of a request it gave up on, issues a command of the sweep. -/
theorem State.sweeping_turn {t : Turn Processes} (ht : s.turn cfg e = some t)
    (hsweeps : s.sweeps e = true) : t.command.sweeping = true := by
  cases e with
  | sweep r =>
    cases ht
    exact sweeping_step s.world r s.procs.sweep
  | call i r =>
    rw [State.turn, Option.map_eq_some_iff] at ht
    obtain ⟨c, hcall, rfl⟩ := ht
    rw [State.sweeps, hcall, Option.any_some] at hsweeps
    unfold Call.expires at hsweeps
    split at hsweeps
    · rename_i id x
      rcases command_issue s.world r.outcome (.writeStatus id x) (none : Option Call) none [] []
        with hc | hc
      · exact congrArg Command.sweeping hc
      · exact congrArg Command.sweeping hc
    · cases hsweeps
  | _ => cases hsweeps

/-- The sweep is in a cleanup after a step that begins one or is one of it. -/
theorem CleanupWorker.cleaning_next {r : Reply} {c : CleanupWorker} {d : ExpiredDeployment}
    {left : List Kind} (h : (c.step w r).next.cleaning = some (d, left)) :
    (∃ rest, c = stopStreaming d rest ∧ left = Client.cleanupStages) ∨
      (∃ rest, c = cleanup d [] rest ∧ left = []) ∨
        ∃ kind rest, c = cleanup d (kind :: left) rest := by
  have hloop : ∀ rest, (loop rest).cleaning = none := by
    rintro (_ | _) <;> rfl
  cases c with
  | idle =>
    rw [step, query] at h
    split at h <;> cases h
  | fetching configs found =>
    cases configs with
    | nil =>
      rw [step, query] at h
      split at h
      · rw [Turn.pure, hloop] at h
        cases h
      · cases h
    | cons config configs =>
      rw [step, query] at h
      split at h <;> cases h
  | stopStreaming d' rest =>
    cases h
    exact Or.inl ⟨rest, rfl, rfl⟩
  | cleanup d' left' rest =>
    cases left' with
    | nil =>
      cases h
      exact Or.inr (Or.inl ⟨rest, rfl, rfl⟩)
    | cons kind left' =>
      have hnext : (issue w r.outcome (.delete kind (Client.deleteName kind (cleanupOptions d')))
          (cleanup d' left' rest) (cleanup d' left' rest)).next = cleanup d' left' rest := by
        rcases next_issue w r.outcome
          (.delete kind (Client.deleteName kind (cleanupOptions d'))) (cleanup d' left' rest)
          (cleanup d' left' rest) [] [] with hn | hn <;> exact hn
      rw [step, hnext] at h
      cases h
      exact Or.inr (Or.inr ⟨kind, rest, rfl⟩)
  | markExpired d' rest =>
    have hnext := next_issue w r.outcome
      (.writeStatus d'.id (.updateDeploymentStatus { status := .expired }))
      (projectInactive d' rest) (loop rest) [] []
    rw [step, request] at h
    rcases hnext with hn | hn
    · simp only [InternalRequest.command, hn] at h
      cases h
    · simp only [InternalRequest.command, hn, hloop] at h
      cases h
  | projectInactive d' rest =>
    have hnext := next_issue w r.outcome (.setOnlineStatus d'.projectId .inactive) (loop rest)
      (loop rest) [] []
    rw [or_self] at hnext
    rw [step, request] at h
    simp only [InternalRequest.command, hnext, hloop] at h
    cases h

theorem BuildWorker.writes_ne_expired (b : BuildWorker) (id : DeploymentId) :
    b.writes ≠ some (id, .expired) := by
  cases b with
  | processing b pc => cases pc <;> simp [writes]
  | cancelling job pc => cases pc <;> simp [writes]
  | failing job pc => cases pc <;> simp [writes]
  | idle => rintro ⟨⟩

/-! ## Rollouts -/

theorem deployedNames_append (log : List Entry) {entries : List Entry}
    (h : id ∉ deployedIn entries) : deployedNames id (log ++ entries) = deployedNames id log := by
  have hnone : deployedNames id entries = [] := by
    refine List.filterMap_eq_nil_iff.mpr fun x hx => ?_
    cases x with
    | deployed id' name =>
      refine if_neg ?_
      rintro rfl
      exact h (List.mem_filterMap.mpr ⟨_, hx, rfl⟩)
    | _ => rfl
  calc deployedNames id (log ++ entries)
      = deployedNames id log ++ deployedNames id entries := List.filterMap_append
    _ = deployedNames id log := by rw [hnone, List.append_nil]

theorem deployedIn_recorded (w : World) (c : Command) : deployedIn (w.recorded c) = [] := by
  cases c with
  | popBuildJob =>
    rw [World.recorded]
    cases w.redis.toQueues.waitForJob <;> rfl
  | apply o => cases o <;> rfl
  | _ => rfl

theorem deployedNames_after {t : Turn Processes} (h : id ∉ deployedIn t.entries) :
    deployedNames id (s.after cfg t).world.log = deployedNames id s.world.log := by
  rw [State.after, World.log_turn]
  refine deployedNames_append _ ?_
  rw [deployedIn, List.filterMap_append]
  intro hmem
  rcases List.mem_append.mp hmem with hmem | hmem
  · have hnone := deployedIn_recorded s.world t.command
    rw [deployedIn] at hnone
    rw [hnone] at hmem
    cases hmem
  · exact h hmem

/-! ## The ledger of a run -/

theorem sweep_step (h : s.step cfg e = some s') (he : ∀ r, e ≠ .sweep r) :
    s'.procs.sweep = s.procs.sweep ∨ s'.procs.sweep = .idle := by
  cases e with
  | tick milliseconds => exact Or.inl (by rw [State.step_tick h])
  | request r => exact Or.inl (by rw [State.step_request h])
  | edit edit => exact Or.inl (by rw [(State.step_edit h).2])
  | call i r =>
    obtain ⟨_, _, _, _, _, _, rfl⟩ := State.step_call h
    exact Or.inl rfl
  | worker r =>
    rw [State.step_worker h]
    cases (s.procs.worker.step cfg s.world r).next with
    | none => exact Or.inr rfl
    | some b => exact Or.inl rfl
  | sweep r => exact absurd rfl (he r)
  | projectCleanup r => exact Or.inl (by rw [State.step_projectCleanup h])
  | domainWorker r => exact Or.inl (by rw [State.step_domainWorker h])
  | restart => exact Or.inr (by rw [State.step_restart h]; rfl)

structure Accounted (s : State) (l : Ledger) : Prop where
  asked : ∀ id ∈ l.asked, l.Full s.world.log id
  marked : ∀ id ∈ l.marked, id ∈ l.asked
  dropped : ∀ id ∈ l.dropped, id ∈ l.asked
  late : ∀ id x, .late (.writeStatus id x) ∈ s.procs.calls → x.status = .expired → id ∈ l.asked
  cleaning : ∀ d left, s.procs.sweep.cleaning = some (d, left) → ∀ kind ∈ Client.cleanupStages,
    kind ∈ left ∨ kind ∈ l.errs ∨
      (d.id, kind, Client.deleteName kind (CleanupWorker.cleanupOptions d)) ∈ l.released

namespace Accounted

variable {l : Ledger} {t : Turn Processes}

/-- A deployment that the sweep asks to mark is cleaned up. -/
theorem full_request (h : Accounted s l) (hok : Releases cfg (s, l) e)
    (hid : id ∈ l.asked ++ Ledger.request s e) : l.Full s.world.log id := by
  rcases List.mem_append.mp hid with hid | hid
  · exact h.asked id hid
  · unfold Ledger.request at hid
    split at hid
    · rename_i d rest hsweep _
      have hclean := hok.1
      simp only [Cleans, hsweep] at hclean
      rw [List.mem_singleton] at hid
      subst hid
      intro name hname kind hkind
      have hdeleted := h.cleaning d [] (by rw [hsweep]; rfl) kind hkind
      rw [hclean.1, hclean.2 name hname kind hkind] at hdeleted
      simpa using hdeleted
    · cases hid

theorem request_not_deployed (hok : Releases cfg (s, l) e) (ht : s.turn cfg e = some t)
    (hid : id ∈ l.asked ++ Ledger.request s e) : id ∉ deployedIn t.entries := by
  intro hdeployed
  obtain ⟨hasked, hcleaning⟩ := hok.2 t ht id hdeployed
  rcases List.mem_append.mp hid with hid | hid
  · exact hasked hid
  · unfold Ledger.request at hid
    split at hid
    · rename_i d rest hsweep _
      rw [List.mem_singleton] at hid
      exact hcleaning (d, []) (by rw [hsweep]; rfl) hid.symm
    · cases hid

/-- A step of the sweep that writes a status writes that of a deployment it asked to mark. -/
theorem asked_of_mark (h : Accounted s l) (ht : s.turn cfg e = some t)
    (hsweeps : s.sweeps e = true) {x : StatusWrite} (hc : t.command = .writeStatus id x) :
    id ∈ l.asked ++ Ledger.request s e := by
  cases e with
  | sweep r =>
    cases ht
    obtain ⟨d, rest, hsweep, rfl, _⟩ :=
      (writes_sweep s.world r s.procs.sweep).command id x hc
    refine List.mem_append_right _ ?_
    unfold Ledger.request
    rw [hsweep]
    exact List.mem_singleton_self _
  | call i r =>
    rw [State.turn, Option.map_eq_some_iff] at ht
    obtain ⟨c, hcall, rfl⟩ := ht
    rw [State.sweeps, hcall, Option.any_some] at hsweeps
    refine List.mem_append_left _ ?_
    unfold Call.expires at hsweeps
    split at hsweeps
    · rename_i id' x'
      have hcommand : (issue s.world r.outcome (.writeStatus id' x') none none :
          Turn (Option Call)).command = .writeStatus id x := hc
      rcases command_issue s.world r.outcome (.writeStatus id' x') (none : Option Call) none [] []
        with hw | hw <;> rw [hw] at hcommand <;> cases hcommand
      exact h.late id x (List.mem_of_getElem? hcall) (eq_of_beq hsweeps)
    · cases hsweeps
  | _ => cases hsweeps

theorem late_step (h : Accounted s l) (hstep : s.step cfg e = some s') {x : StatusWrite}
    (hx : .late (.writeStatus id x) ∈ s'.procs.calls) (hexpired : x.status = .expired) :
    id ∈ l.asked ++ Ledger.request s e := by
  rcases State.late_step hstep hx with hold | ⟨t, ht, hdeferred⟩
  · exact List.mem_append_left _ (h.late id x hold hexpired)
  · cases e with
    | tick | request | restart =>
      cases ht
      cases hdeferred
    | edit edit =>
      rw [State.turn] at ht
      split at ht <;> cases ht
      cases hdeferred
    | call i r =>
      rw [State.turn, Option.map_eq_some_iff] at ht
      obtain ⟨c, _, rfl⟩ := ht
      have hforeground := (foreground_call cfg s.world r c).deferred
      rw [Turn.map, hforeground] at hdeferred
      cases hdeferred
    | worker r =>
      cases ht
      have hworker := (s.procs.worker.writes_step cfg s.world r).deferred id x hdeferred
      rw [hexpired] at hworker
      exact absurd hworker (BuildWorker.writes_ne_expired _ _)
    | sweep r =>
      cases ht
      obtain ⟨d, rest, hsweep, rfl, _⟩ :=
        (writes_sweep s.world r s.procs.sweep).deferred id x hdeferred
      refine List.mem_append_right _ ?_
      unfold Ledger.request
      rw [hsweep]
      exact List.mem_singleton_self _
    | projectCleanup r =>
      cases ht
      exact ((writes_projectCleanup _ _ _).deferred id x hdeferred).elim
    | domainWorker r =>
      cases ht
      exact ((writes_domainWorker _ _ _).deferred id x hdeferred).elim

/-- What the sweep has cleaned up so far, after a step of its own. -/
theorem cleaning_sweep (h : Accounted s l) {r : Reply} {d : ExpiredDeployment} {left : List Kind}
    (hd : (s.procs.sweep.step s.world r).next.cleaning = some (d, left)) {kind : Kind}
    (hkind : kind ∈ Client.cleanupStages) :
    kind ∈ left ∨ kind ∈ l.nextErrs s (.sweep r) ∨
      (d.id, kind, Client.deleteName kind (CleanupWorker.cleanupOptions d)) ∈
        l.released ++ Ledger.deletion s (.sweep r)
          ((s.procs.sweep.step s.world r).map fun sweep => { s.procs with sweep }) := by
  rcases CleanupWorker.cleaning_next hd with ⟨rest, hsweep, rfl⟩ | ⟨rest, hsweep, rfl⟩ |
    ⟨kind', rest, hsweep⟩
  · exact Or.inl hkind
  · have herrs : l.nextErrs s (.sweep r) = l.errs := by
      unfold Ledger.nextErrs
      rw [hsweep]
    rw [herrs]
    rcases h.cleaning d [] (by rw [hsweep]; rfl) kind hkind with hleft | herr | hreleased
    · cases hleft
    · exact Or.inr (Or.inl herr)
    · exact Or.inr (Or.inr (List.mem_append_left _ hreleased))
  · have herrs : l.nextErrs s (.sweep r) =
        if r.outcome = .ok then l.errs else l.errs ++ [kind'] := by
      unfold Ledger.nextErrs
      rw [hsweep]
    rcases h.cleaning d (kind' :: left) (by rw [hsweep]; rfl) kind hkind with
      hleft | herr | hreleased
    · rcases List.mem_cons.mp hleft with rfl | hleft
      · by_cases ho : r.outcome = .ok
        · refine Or.inr (Or.inr (List.mem_append_right _ ?_))
          have hcommand : (s.procs.sweep.step s.world r).command =
              .delete kind (Client.deleteName kind (CleanupWorker.cleanupOptions d)) := by
            rw [hsweep, CleanupWorker.step, ho]
            rfl
          rw [hsweep] at hcommand
          unfold Ledger.deletion
          rw [hsweep, Turn.command_map, hcommand]
          exact List.mem_singleton_self _
        · rw [herrs, if_neg ho]
          exact Or.inr (Or.inl (List.mem_append_right _ (List.mem_singleton_self _)))
      · exact Or.inl hleft
    · rw [herrs]
      refine Or.inr (Or.inl ?_)
      split
      · exact herr
      · exact List.mem_append_left _ herr
    · exact Or.inr (Or.inr (List.mem_append_left _ hreleased))

/-- What the sweep has cleaned up so far, after a step of another process. -/
theorem cleaning_other (h : Accounted s l) (hok : Releases cfg (s, l) e)
    (ht : s.turn cfg e = some t) (hstep : s.step cfg e = some s') (he : ∀ r, e ≠ .sweep r)
    {d : ExpiredDeployment} {left : List Kind} (hd : s'.procs.sweep.cleaning = some (d, left))
    {kind : Kind} (hkind : kind ∈ Client.cleanupStages) :
    kind ∈ left ∨ kind ∈ l.nextErrs s e ∨
      (d.id, kind, Client.deleteName kind (CleanupWorker.cleanupOptions d)) ∈
        l.released.filter fun x => !(deployedIn t.entries).contains x.1 := by
  have herrs : l.nextErrs s e = l.errs := by
    cases e with
    | sweep r => exact absurd rfl (he r)
    | _ => rfl
  rw [herrs]
  rcases sweep_step hstep he with hsame | hidle
  · rw [hsame] at hd
    rcases h.cleaning d left hd kind hkind with hleft | herr | hreleased
    · exact Or.inl hleft
    · exact Or.inr (Or.inl herr)
    · refine Or.inr (Or.inr (List.mem_filter.mpr ⟨hreleased, ?_⟩))
      rw [Bool.not_eq_true', ← Bool.not_eq_true, List.contains_iff_mem]
      intro hdeployed
      exact (hok.2 t ht d.id hdeployed).2 (d, left) hd rfl
  · rw [hidle] at hd
    cases hd

theorem step (h : Accounted s l) (hok : Releases cfg (s, l) e) (hstep : s.step cfg e = some s') :
    Accounted s' (Ledger.note cfg s e s' l) := by
  obtain ⟨t, ht, _, hs'⟩ := State.step_eq_some_iff.mp hstep
  rw [Ledger.note, ht]
  have hasked (id) (hid : id ∈ l.asked ++ Ledger.request s e) := request_not_deployed hok ht hid
  exact
    { asked := by
        intro id hid name hname kind hkind
        rw [hs', deployedNames_after (hasked id hid)] at hname
        refine List.mem_append_left _ (List.mem_filter.mpr
          ⟨h.full_request hok hid name hname kind hkind, ?_⟩)
        rw [Bool.not_eq_true', ← Bool.not_eq_true, List.contains_iff_mem]
        exact hasked id hid
      marked := by
        intro id hid
        rcases List.mem_append.mp hid with hid | hid
        · exact List.mem_append_left _ (h.marked id hid)
        · unfold Ledger.mark at hid
          split at hid
          · rename_i id' x hc
            split at hid
            · rename_i hsweeps
              rw [List.mem_singleton] at hid
              exact hid ▸ h.asked_of_mark ht hsweeps hc
            · cases hid
          · cases hid
      dropped := by
        intro id hid
        rcases List.mem_append.mp hid with hid | hid
        · exact List.mem_append_left _ (h.dropped id hid)
        · unfold Ledger.drop at hid
          split at hid
          · rename_i hsweeps
            obtain ⟨hfound, hgone⟩ := List.mem_filter.mp hid
            rw [Bool.not_eq_true', ← Bool.not_eq_true, List.contains_iff_mem] at hgone
            by_contra hnot
            refine hgone ?_
            have hkept := mem_expiredIds_exec cfg (State.sweeping_turn ht hsweeps)
              (fun x hc => hnot (h.asked_of_mark ht hsweeps hc)) hfound
            rw [hs']
            exact hkept
          · cases hid
      late := fun id x hx hexpired => h.late_step hstep hx hexpired
      cleaning := by
        intro d left hd kind hkind
        by_cases he : ∃ r, e = .sweep r
        · obtain ⟨r, rfl⟩ := he
          have hentries := (quiet_sweep s.world r s.procs.sweep).entries
          rw [State.step_sweep hstep] at hd
          cases ht
          refine (h.cleaning_sweep hd hkind).imp_right (Or.imp_right fun hmem => ?_)
          rcases List.mem_append.mp hmem with hmem | hmem
          · refine List.mem_append_left _ (List.mem_filter.mpr ⟨hmem, ?_⟩)
            show (!(deployedIn (s.procs.sweep.step s.world r).entries).contains d.id) = true
            rw [hentries]
            rfl
          · exact List.mem_append_right _ hmem
        · rcases h.cleaning_other hok ht hstep (fun r hr => he ⟨r, hr⟩) hd hkind with
            hleft | herr | hreleased
          · exact Or.inl hleft
          · exact Or.inr (Or.inl herr)
          · exact Or.inr (Or.inr (List.mem_append_left _ hreleased)) }

end Accounted

theorem accounted_empty : Accounted State.initial Ledger.empty where
  asked := nofun
  marked := nofun
  dropped := nofun
  late := nofun
  cleaning := nofun

/-- A deployment that the sweep marked, or that its steps took out of those that
`getExpiredDeployments` returns, has had every object it was rolled out with deleted, if the
sweep asks to mark a deployment only after a cleanup without an error. -/
theorem expired_is_released {s : State} {l : Ledger}
    (h : Reaches (stepNoting (State.step cfg) (Ledger.note cfg)) (Releases cfg)
      (State.initial, Ledger.empty) (s, l)) :
    ∀ id, id ∈ l.marked ∨ id ∈ l.dropped → ∀ name ∈ deployedNames id s.world.log,
      ∀ kind ∈ Client.cleanupStages,
        (id, kind, Client.objectName kind (utf8 name.val)) ∈ l.released := by
  have hinv := h.invariant (fun x => Accounted x.1 x.2) accounted_empty ?_
  · rintro id (hid | hid)
    · exact hinv.asked id (hinv.marked id hid)
    · exact hinv.asked id (hinv.dropped id hid)
  · rintro x e y hx hok hstep
    obtain ⟨hs', hl'⟩ := stepNoting_eq_some_iff.mp hstep
    rw [hl']
    exact hx.step hok hs'

/-! ## A shop that expires -/

def shopExpired (o : Outcome) : List Event :=
  shopCreated ++ shopWorker 21 ++
    [.edit (.systemConfigs [{ userId := 1, globalTTLMinutes := 60 }]), .tick 3600001] ++
    List.replicate 4 (.sweep shopReply) ++ [.sweep { shopReply with outcome := o }] ++
    List.replicate 6 (.sweep shopReply)

theorem expired_is_released_shop :
    ∃ s l, Reaches (stepNoting (State.step Config.clear) (Ledger.note Config.clear))
        (Releases Config.clear) (State.initial, Ledger.empty) (s, l) ∧
      2 ∈ l.marked ∧ ⟨"shop", by decide⟩ ∈ deployedNames 2 s.world.log ∧
        (2, .ingress, Client.objectName .ingress (utf8 "shop")) ∈ l.released := by
  obtain ⟨⟨s, l⟩, h, hend⟩ := Reaches.exists_of_runEvents
    (stepNoting (State.step Config.clear) (Ledger.note Config.clear)) (Releases Config.clear)
    (State.initial, Ledger.empty) (shopExpired .ok)
    (fun x => x.2.marked.contains 2 &&
      (deployedNames 2 x.1.world.log).contains ⟨"shop", by decide⟩)
    (by decide) (by decide)
  rw [Bool.and_eq_true, List.contains_iff_mem, List.contains_iff_mem] at hend
  exact ⟨s, l, h, hend.1, hend.2,
    expired_is_released h 2 (Or.inl hend.1) _ hend.2 .ingress (by decide)⟩

/-- The ingress is not deleted, and the deployment is marked. -/
theorem not_expired_is_released :
    ¬∀ (cfg : Config) (s : State) (l : Ledger),
      Reaches (stepNoting (State.step cfg) (Ledger.note cfg)) (fun _ _ => True)
        (State.initial, Ledger.empty) (s, l) →
        ∀ id, id ∈ l.marked ∨ id ∈ l.dropped → ∀ name ∈ deployedNames id s.world.log,
          ∀ kind ∈ Client.cleanupStages,
            (id, kind, Client.objectName kind (utf8 name.val)) ∈ l.released := by
  intro h
  obtain ⟨⟨s, l⟩, hs, hend⟩ := Reaches.exists_of_runEvents
    (stepNoting (State.step Config.clear) (Ledger.note Config.clear)) (fun _ _ => True)
    (State.initial, Ledger.empty) (shopExpired .fail)
    (fun x => x.2.marked.contains 2 &&
      (deployedNames 2 x.1.world.log).contains ⟨"shop", by decide⟩ &&
        !x.2.released.contains (2, .ingress, Client.objectName .ingress (utf8 "shop")))
    (by decide) (runsUnder_true _ _ _)
  simp only [Bool.and_eq_true, List.contains_iff_mem, Bool.not_eq_true', ← Bool.not_eq_true] at hend
  obtain ⟨⟨hmarked, hname⟩, hkept⟩ := hend
  exact hkept (h Config.clear s l hs 2 (Or.inl hmarked) _ hname .ingress (by decide))

end System
end Code2Cloud
