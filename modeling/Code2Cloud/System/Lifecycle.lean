import Code2Cloud.System.Writes
import Mathlib.Logic.Relation

/-!
# The status lifecycle

The moves a deployment's status is meant to make, the status each writer takes the row
to be in, and the runs in which no writer is mistaken.
-/

namespace Code2Cloud

namespace Api
namespace DeploymentStatus

def moves : DeploymentStatus → DeploymentStatus → Bool
  | queued, building | building, deploying | deploying, ready => true
  | ready, expired | ready, superseded => true
  | st, failed | st, canceled => st.inProgress
  | _, _ => false

def ended : DeploymentStatus → Bool
  | failed | canceled | expired | superseded => true
  | _ => false

def rank : DeploymentStatus → Nat
  | queued => 0
  | building => 1
  | deploying => 2
  | ready => 3
  | failed | canceled | expired | superseded => 4

theorem rank_le_of_moves {a b : DeploymentStatus} (h : a.moves b = true) : a.rank ≤ b.rank := by
  cases a <;> cases b <;> first | decide | exact absurd h (by decide)

/-- A deployment's status after any number of moves. -/
abbrev Leads (a b : DeploymentStatus) : Prop :=
  Relation.ReflTransGen (fun a b => a.moves b = true) a b

theorem eq_of_leads_ended {a b : DeploymentStatus} (h : Leads a b) (ha : a.ended = true) :
    b = a := by
  induction h with
  | refl => rfl
  | @tail b c _ hmove ih =>
    subst ih
    cases b <;> cases c <;> first | exact absurd ha (by decide) | exact absurd hmove (by decide)

theorem leads_ready {b : DeploymentStatus} (h : Leads .ready b) :
    b = .ready ∨ b = .expired ∨ b = .superseded := by
  induction h with
  | refl => exact Or.inl rfl
  | @tail b c _ hmove ih =>
    rcases ih with rfl | rfl | rfl <;> cases c <;> first | exact absurd hmove (by decide) | simp

/-- The status a writer takes the row to be in: a build that starts finds it queued, a build
that goes on or ends finds it in progress, and only a live deployment expires or is
superseded. -/
def expects : DeploymentStatus → DeploymentStatus → Bool
  | building, stored => stored == queued
  | deploying, stored | ready, stored | failed, stored | canceled, stored => stored.inProgress
  | expired, stored | superseded, stored => stored == ready
  | queued, _ => false

/-- How far a deployment has come before a build writes a status. -/
def floor : DeploymentStatus → Nat
  | deploying => 1
  | ready => 2
  | _ => 0

theorem moves_of_expects {written stored : DeploymentStatus} (h : written.expects stored = true)
    (hfloor : written.floor ≤ stored.rank) :
    written = stored ∨ stored.moves written = true := by
  cases written <;> cases stored <;>
    first | exact Or.inl rfl | exact Or.inr rfl | exact absurd h (by decide)
          | exact absurd hfloor (by decide)

theorem expects_of_moves {written stored : DeploymentStatus} (h : stored.moves written = true) :
    written.expects stored = true := by
  cases written <;> cases stored <;> first | rfl | exact absurd h (by decide)

end DeploymentStatus

/-- The write finds the status it sets, or one that its writer takes the row to be in.  The
users' own `updateStatus` writes any status: it must follow the lifecycle itself. -/
def StatusWrite.finds (x : StatusWrite) (stored : DeploymentStatus) : Bool :=
  stored == x.status ||
    match x with
    | .updateStatus status => stored.moves status
    | _ => x.status.expects stored

/-- A write that finds what its writer expects moves the row along the lifecycle, if the row
has come as far as the writer needs it to have. -/
theorem StatusWrite.moves_of_finds {x : StatusWrite} {stored : DeploymentStatus}
    (h : x.finds stored = true)
    (hfloor : x.status.floor ≤ stored.rank ∨ ∃ st, x = .updateStatus st) :
    x.status = stored ∨ stored.moves x.status = true := by
  unfold finds at h
  rw [Bool.or_eq_true, beq_iff_eq] at h
  rcases h with hsame | h
  · exact Or.inl hsame.symm
  · cases x with
    | updateStatus st => exact Or.inr h
    | _ =>
      rcases hfloor with hfloor | ⟨_, hx⟩
      · exact DeploymentStatus.moves_of_expects h hfloor
      · cases hx

theorem StatusWrite.finds_of_moves {x : StatusWrite} {stored : DeploymentStatus}
    (h : x.status = stored ∨ stored.moves x.status = true) : x.finds stored = true := by
  rcases h with rfl | h
  · simp [finds]
  · cases x <;>
      simp only [finds, Bool.or_eq_true]
    case updateStatus => exact Or.inr h
    all_goals exact Or.inr (DeploymentStatus.expects_of_moves h)

end Api

namespace System

open Api Worker

variable {cfg : Config} {w : World} {s s' : State} {e : Event} {id : DeploymentId}

/-! ## Steps that find what they expect -/

/-- The condition on a step: a status it writes finds a row its writer takes it for. -/
def Orderly (cfg : Config) (s : State) (e : Event) : Prop :=
  ∀ p ∈ (s.turn cfg e).bind (·.command.statusWrite), ∀ d ∈ s.world.db.deployments,
    d.id = p.1 → p.2.finds d.status = true

instance (cfg : Config) (s : State) (e : Event) : Decidable (Orderly cfg s e) :=
  Option.decidableForallMem _

theorem Orderly.finds (he : Orderly cfg s e) {t : Turn Processes} (ht : s.turn cfg e = some t)
    {d : Deployment} (hd : d ∈ s.world.db.deployments) {x : StatusWrite}
    (hc : t.command = .writeStatus d.id x) : x.finds d.status = true := by
  refine he (d.id, x) ?_ d hd rfl
  rw [ht, Option.mem_def, Option.bind_some, hc]
  rfl

/-! ## How far a build has come -/

/-- How far the row has come when `processJob` is at a request. -/
def Pc.floor : Pc → Nat
  | checkQueued | projectPending | markBuilding => 0
  | checkSettings | getSettings | getToken | checkClone | clone | checkBuild | build | recordImage
  | checkDeploy | markDeploying => 1
  | deploy _ | markReady => 2
  | projectActive | stopPrevious | supersede | startStreaming => 3

namespace BuildWorker

/-- How far a deployment's row has come, as far as the worker's state tells. -/
def floor (id : DeploymentId) : BuildWorker → Nat
  | processing b pc => if b.job.deploymentId = id then pc.floor else 0
  | _ => 0

theorem floor_writes {b : BuildWorker} {st : DeploymentStatus} (h : b.writes = some (id, st)) :
    st.floor ≤ b.floor id := by
  cases b with
  | processing b pc =>
    cases pc <;> simp only [writes, Option.some.injEq, Prod.mk.injEq, Option.map_eq_some_iff,
      reduceCtorEq] at h
    case markBuilding | recordImage | markDeploying | markReady =>
      obtain ⟨rfl, rfl⟩ := h
      rw [floor, if_pos rfl]
      decide
    case supersede =>
      obtain ⟨_, _, _, rfl⟩ := h
      exact Nat.zero_le _
  | cancelling job pc =>
    cases pc <;> simp only [writes, Option.some.injEq, Prod.mk.injEq, reduceCtorEq] at h
    all_goals
      obtain ⟨rfl, rfl⟩ := h
      exact Nat.zero_le _
  | failing job pc =>
    cases pc <;> simp only [writes, Option.some.injEq, Prod.mk.injEq, reduceCtorEq] at h
    obtain ⟨rfl, rfl⟩ := h
    exact Nat.zero_le _
  | idle => cases h

/-- What the worker knows of a row after a step: no more than before, or what it has just
written. -/
def Advances (w : World) (id : DeploymentId) (b : BuildWorker) (t : Turn (Option BuildWorker)) :
    Prop :=
  (t.next.getD .idle).floor id ≤ b.floor id ∨
    ∃ x, t.command = .writeStatus id x ∧ w.admits t.command = true ∧
      (t.next.getD .idle).floor id ≤ x.status.rank

theorem advances_processing {b b' : Build} (h : b'.job = b.job) {pc pc' : Pc}
    (hpc : pc'.floor ≤ pc.floor) {t : Turn (Option BuildWorker)}
    (ht : t.next = some (processing b' pc')) : Advances w id (processing b pc) t := by
  refine Or.inl ?_
  rw [ht, Option.getD_some, floor, floor, h]
  split
  · exact hpc
  · exact Nat.le_refl _

theorem advances_lost {b : BuildWorker} {t : Turn (Option BuildWorker)}
    (ht : (t.next.getD .idle).floor id = 0) : Advances w id b t := by
  refine Or.inl ?_
  rw [ht]
  exact Nat.zero_le _

theorem advances_check (w : World) (r : Reply) (b : Build) {pc next : Pc}
    (hpc : next.floor ≤ pc.floor) : Advances w id (processing b pc) (check w r b next) := by
  unfold check
  split
  · exact advances_lost rfl
  · exact advances_processing rfl hpc rfl

theorem advances_request (w : World) (o : Outcome) (c : InternalRequest) (b : Build) {pc next : Pc}
    (hpc : next.floor ≤ pc.floor) :
    Advances w id (processing b pc)
      (request w o c (some (processing b next)) (some (processing b next))) := by
  refine advances_processing (show b.job = b.job from rfl) hpc ?_
  rcases next_issue w o c.command (some (processing b next)) (some (processing b next)) [] []
    with h | h <;> exact h

/-- A write of the build's own status, after which it goes on only if it was done. -/
theorem advances_write (w : World) (o : Outcome) {x : StatusWrite} {b : Build} {pc next : Pc}
    {ok : Option BuildWorker} (hok : ok = none ∨ ok = some (processing b next))
    (hx : next.floor ≤ x.status.rank) (entries errors : List Entry) :
    Advances w id (processing b pc)
      (request w o (.writeStatus b.job.deploymentId x) ok (some (failing b.job .markFailed))
        entries errors) := by
  simp only [Advances, request]
  rcases issue_cases w o (.writeStatus b.job.deploymentId x) ok
    (some (failing b.job .markFailed)) entries errors with ⟨hadmits, h⟩ | ⟨_, h⟩ | h
  · simp only [InternalRequest.command, h]
    rcases hok with rfl | rfl
    · exact Or.inl (Nat.zero_le _)
    · by_cases hid : b.job.deploymentId = id
      · refine Or.inr ⟨x, by rw [hid], hadmits, ?_⟩
        rw [Option.getD_some, floor, if_pos hid]
        exact hx
      · refine Or.inl ?_
        rw [Option.getD_some, floor, if_neg hid]
        exact Nat.zero_le _
  · simp only [InternalRequest.command, h]
    exact Or.inl (Nat.zero_le _)
  · simp only [InternalRequest.command, h]
    exact Or.inl (Nat.zero_le _)

theorem advances_issue {w' : World} {o : Outcome} {c : Command} {b : BuildWorker}
    {ok err : Option BuildWorker} {entries errors : List Entry}
    (hok : (ok.getD .idle).floor id ≤ b.floor id) (herr : (err.getD .idle).floor id ≤ b.floor id) :
    Advances w id b (issue w' o c ok err entries errors) :=
  Or.inl (next_issue_of (P := fun next : Option BuildWorker =>
    (next.getD .idle).floor id ≤ b.floor id) hok herr w' o c entries errors)

theorem advances_query {o : Outcome} {b : Build} {pc : Pc} {ok : Option BuildWorker}
    {entries : List Entry} (hok : (ok.getD .idle).floor id ≤ (processing b pc).floor id) :
    Advances w id (processing b pc)
      (query o (.pure ok) (.pure (some (failing b.job .markFailed)) entries)) :=
  Or.inl (next_query_of
    (P := fun next : Option BuildWorker => (next.getD .idle).floor id ≤ (processing b pc).floor id)
    hok (Nat.zero_le _) o)

theorem floor_processing_le {b b' : Build} (h : b'.job = b.job) {pc pc' : Pc}
    (hpc : pc'.floor ≤ pc.floor) : (processing b' pc').floor id ≤ (processing b pc).floor id := by
  rw [floor, floor, h]
  split
  · exact hpc
  · exact Nat.le_refl _

theorem advances_process (cfg : Config) (w : World) (r : Reply) (b : Build) (pc : Pc) :
    Advances w id (processing b pc) (processStep cfg w r b pc) := by
  cases pc with
  | checkQueued | checkSettings | checkClone | checkBuild | checkDeploy =>
    exact advances_check w r b (by decide)
  | projectPending | recordImage => exact advances_request w _ _ b (by decide)
  | projectActive =>
    refine advances_request w _ _ b ?_
    split <;> decide
  | markBuilding =>
    have hok : (if (utf8 b.job.commitHash).length < 8 then none
        else some (processing b .checkSettings)) = none ∨
        (if (utf8 b.job.commitHash).length < 8 then none
          else some (processing b .checkSettings)) = some (processing b .checkSettings) := by
      split
      · exact Or.inl rfl
      · exact Or.inr rfl
    have hrank : Pc.checkSettings.floor ≤ (statusUpdate .building).status.rank := Nat.le_refl 1
    exact advances_write w _ hok hrank _ _
  | markDeploying =>
    have hrank : (Pc.deploy .serviceAccount).floor ≤ (statusUpdate .deploying).status.rank :=
      Nat.le_refl 2
    exact advances_write w _ (Or.inr rfl) hrank _ _
  | markReady =>
    have hrank : Pc.projectActive.floor ≤ (StatusWrite.updateDeploymentStatus
        { status := .ready, deploymentUrl := deploymentUrl b }).status.rank := Nat.le_refl 3
    exact advances_write w _ (Or.inr rfl) hrank _ _
  | getSettings => exact Or.inl (floor_processing_le rfl (by decide))
  | getToken | build => exact advances_query (floor_processing_le rfl (by decide))
  | clone =>
    refine advances_query ?_
    generalize (if b.job.commitHash.isEmpty then r.head else b.job.commitHash) = commitHash
    split
    · exact Nat.zero_le _
    · exact floor_processing_le (show b.job = b.job from rfl) (by decide)
  | deploy stage =>
    rw [processStep]
    split
    · exact advances_issue (floor_processing_le rfl (Nat.le_refl 2)) (Nat.zero_le _)
    · refine Or.inl ?_
      simp only [Turn.pure, afterDeploy]
      split
      · exact floor_processing_le rfl (Nat.le_refl 2)
      · exact Nat.zero_le _
  | stopPrevious =>
    rw [processStep]
    split <;> exact Or.inl (floor_processing_le rfl (by decide))
  | supersede =>
    rw [processStep]
    split
    · exact advances_request w _ _ b (by decide)
    · exact Or.inl (floor_processing_le rfl (by decide))
  | startStreaming => exact Or.inl (Nat.zero_le _)

theorem floor_of_not_processes {b : BuildWorker} (h : ¬b.processes id) : b.floor id = 0 := by
  cases b with
  | processing b pc => exact if_neg h
  | _ => rfl

/-- Only a build knows anything of its row, and none starts past its first request. -/
theorem advances_rest (cfg : Config) (w : World) (r : Reply) {b : BuildWorker}
    (hb : ∀ id, ¬b.processes id) : Advances w id b (b.step cfg w r) := by
  refine advances_lost ?_
  rcases b.next_step cfg w r with hcontinues | ⟨job, _, hnext, _⟩
  · cases hnext : (b.step cfg w r).next with
    | none => rfl
    | some b' =>
      rw [Option.getD_some]
      rcases hcontinues b' hnext with rfl | ⟨_, hsame⟩
      · rfl
      · exact floor_of_not_processes fun hid => hb id (hsame id hid)
  · rw [hnext, Option.getD_some, floor]
    split <;> rfl

theorem advances_step (cfg : Config) (w : World) (r : Reply) (b : BuildWorker)
    (id : DeploymentId) :
    Advances w id b (b.step cfg w r) := by
  cases b with
  | processing b pc => exact advances_process cfg w r b pc
  | idle => exact advances_rest cfg w r fun _ => not_false
  | cancelling => exact advances_rest cfg w r fun _ => not_false
  | failing => exact advances_rest cfg w r fun _ => not_false

end BuildWorker

/-! ## Orderly runs -/

theorem eq_of_rowsOf_le {ds : List Deployment} (h : rowsOf id ds ≤ 1) {d d' : Deployment}
    (hd : d ∈ ds) (hd' : d' ∈ ds) (hid : d.id = id) (hid' : d'.id = id) : d' = d :=
  Table.eq_of_countP_le h hd' hd (beq_iff_eq.mpr hid') (beq_iff_eq.mpr hid)

namespace State

def Settled (s : State) (id : DeploymentId) : Prop :=
  id < s.world.db.nextId ∧ ∀ c ∈ s.procs.calls, c.drafts id = false

theorem Tabled.settled (hs : s.Tabled) {d : Deployment} (hd : d ∈ s.world.db.deployments) :
    s.Settled d.id := by
  have hrow : 0 < rowsOf d.id s.world.db.deployments :=
    List.countP_pos_iff.mpr ⟨d, hd, by simp⟩
  have hone := (hs d.id).1
  rw [rows] at hone
  refine ⟨hs.lt (by rw [rows]; omega), fun c hc => ?_⟩
  by_contra hdrafts
  have hdraft : 0 < s.procs.calls.countP (Call.drafts d.id) :=
    List.countP_pos_iff.mpr ⟨c, hc, by simpa using hdrafts⟩
  omega

theorem Tabled.eq_of_id (hs : s.Tabled) {d d' : Deployment} (hd : d ∈ s.world.db.deployments)
    (hd' : d' ∈ s.world.db.deployments) (hid : d'.id = d.id) : d' = d := by
  have hone : rowsOf d.id s.world.db.deployments ≤ 1 := by
    have hrows := (hs d.id).1
    rw [rows] at hrows
    omega
  exact eq_of_rowsOf_le hone hd hd' rfl hid

theorem settled_step (hid : s.Settled id) (h : s.step cfg e = some s') : s'.Settled id := by
  obtain ⟨t, _, _, hs'⟩ := step_eq_some_iff.mp h
  have hnext : s.world.db.nextId ≤ s'.world.db.nextId := by
    rw [hs', after, World.record_db, World.nextId_exec]
    exact Nat.le_add_right _ _
  refine ⟨Nat.lt_of_lt_of_le hid.1 hnext, fun c hc => ?_⟩
  by_contra hdraft
  rw [Bool.not_eq_false] at hdraft
  rcases drafts_step h hc hdraft with ⟨c₀, hc₀, hdraft₀⟩ | hge
  · rw [hid.2 c₀ hc₀] at hdraft₀
    cases hdraft₀
  · exact absurd hge (Nat.not_le.mpr hid.1)

theorem Settled.rows_step (hid : s.Settled id) (h : s.step cfg e = some s') {d' : Deployment}
    (hd' : d' ∈ s'.world.db.deployments) (hd'id : d'.id = id) :
    ∃ d ∈ s.world.db.deployments, d.id = id ∧ (d' = d ∨
      ∃ t x, s.turn cfg e = some t ∧ t.command = .writeStatus d.id x ∧
        d' = x.apply s.world.now d) := by
  rcases State.rows_step h hd' with ⟨_, hnew | ⟨c, hc, hdraft⟩⟩ | ⟨d, hd, hrow⟩
  · rw [hd'id] at hnew
    exact absurd hnew (Nat.not_le.mpr hid.1)
  · rw [hd'id, hid.2 c hc] at hdraft
    cases hdraft
  · refine ⟨d, hd, ?_, hrow⟩
    rw [← hd'id]
    rcases hrow with rfl | ⟨_, _, _, _, rfl⟩
    · rfl
    · rw [StatusWrite.apply_id]

/-- A deployment's row has come as far as `k`, and will not be inserted again. -/
def Stands (s : State) (id : DeploymentId) (k : Nat) : Prop :=
  (∀ d ∈ s.world.db.deployments, d.id = id → k ≤ d.status.rank) ∧ (0 < k → s.Settled id)

theorem stands_zero (s : State) (id : DeploymentId) : s.Stands id 0 :=
  ⟨fun _ _ _ => Nat.zero_le _, fun h => absurd h (Nat.lt_irrefl 0)⟩

theorem Stands.mono {k k' : Nat} (h : s.Stands id k) (hk : k' ≤ k) : s.Stands id k' :=
  ⟨fun d hd hid => Nat.le_trans hk (h.1 d hd hid), fun hpos => h.2 (Nat.lt_of_lt_of_le hpos hk)⟩

/-- What is known of the rows: by the worker of its own, and by each request it gave up on. -/
structure Staged (s : State) : Prop where
  worker : ∀ id, s.Stands id (s.procs.worker.floor id)
  late : ∀ id x, .late (.writeStatus id x) ∈ s.procs.calls → s.Stands id x.status.floor

/-- A write that finds what its writer expects moves the row along the lifecycle. -/
theorem moves_of_finds (hs : s.Staged) {t : Turn Processes} (ht : s.turn cfg e = some t)
    {d : Deployment} (hd : d ∈ s.world.db.deployments) {x : StatusWrite}
    (hc : t.command = .writeStatus d.id x) (hfinds : x.finds d.status = true) :
    x.status = d.status ∨ d.status.moves x.status = true := by
  refine StatusWrite.moves_of_finds hfinds ?_
  cases (writes_turn ht).command d.id x hc with
  | sweep hx =>
    rw [hx]
    exact Or.inl (Nat.zero_le _)
  | worker hw => exact Or.inl (((hs.worker d.id).mono (BuildWorker.floor_writes hw)).1 d hd rfl)
  | @call _ _ c hc hw =>
    cases c with
    | cancel c =>
      cases c <;> cases hw
      exact Or.inl (Nat.zero_le _)
    | updateStatus c =>
      cases c <;> cases hw
      exact Or.inr ⟨_, rfl⟩
    | push c =>
      cases c <;> cases hw
      exact Or.inl (Nat.zero_le _)
    | late c =>
      cases c <;> cases hw
      exact Or.inl ((hs.late _ _ hc).1 d hd rfl)
    | _ => cases hw

/-- In an orderly step a row keeps its status or moves along the lifecycle. -/
theorem moves_step (hs : s.Staged) (ht : s.Tabled) (he : Orderly cfg s e)
    (h : s.step cfg e = some s') {d d' : Deployment} (hd : d ∈ s.world.db.deployments)
    (hd' : d' ∈ s'.world.db.deployments) (hid : d'.id = d.id) :
    d'.status = d.status ∨ d.status.moves d'.status = true := by
  obtain ⟨d₀, hd₀, hid₀, hrow⟩ := (ht.settled hd).rows_step h hd' hid
  rw [ht.eq_of_id hd hd₀ hid₀] at hrow
  rcases hrow with rfl | ⟨t, x, hturn, hc, rfl⟩
  · exact Or.inl rfl
  · rw [StatusWrite.apply_status]
    exact moves_of_finds hs hturn hd hc (he.finds hturn hd hc)

theorem stands_step {k : Nat} (hk : s.Stands id k) (hs : s.Staged) (ht : s.Tabled)
    (he : Orderly cfg s e) (h : s.step cfg e = some s') : s'.Stands id k := by
  rcases Nat.eq_zero_or_pos k with rfl | hpos
  · exact stands_zero s' id
  have hsettled := hk.2 hpos
  refine ⟨fun d' hd' hid => ?_, fun _ => settled_step hsettled h⟩
  obtain ⟨d, hd, hdid, _⟩ := hsettled.rows_step h hd' hid
  have hrank := hk.1 d hd hdid
  rcases moves_step hs ht he h hd hd' (hid.trans hdid.symm) with hstatus | hmove
  · rw [hstatus]
    exact hrank
  · exact Nat.le_trans hrank (DeploymentStatus.rank_le_of_moves hmove)

/-- A row that the worker has just written has the status it wrote. -/
theorem stands_written {r : Reply} {x : StatusWrite}
    (hc : (s.procs.worker.step cfg s.world r).command = .writeStatus id x)
    (hadmits : s.world.admits (s.procs.worker.step cfg s.world r).command = true)
    (ht' : s'.Tabled) (hworld : s'.world =
      (s.world.exec cfg (s.procs.worker.step cfg s.world r).command).record
        (s.procs.worker.step cfg s.world r).entries) : s'.Stands id x.status.rank := by
  have hrows : s'.world.db.deployments =
      s.world.db.deployments.map fun d => if d.id = id then x.apply s.world.now d else d := by
    rw [hworld, hc]
    rfl
  constructor
  · intro d' hd' hid
    rw [hrows] at hd'
    obtain ⟨d, _, rfl⟩ := List.mem_map.mp hd'
    by_cases hsame : d.id = id
    · rw [if_pos hsame, StatusWrite.apply_status]
    · rw [if_neg hsame] at hid
      exact absurd hid hsame
  · intro _
    rw [hc] at hadmits
    obtain ⟨d, hd⟩ := Option.isSome_iff_exists.mp hadmits
    have hmem := List.mem_of_find?_eq_some hd
    have hid : d.id = id := by simpa using List.find?_some hd
    have hmem' : x.apply s.world.now d ∈ s'.world.db.deployments := by
      rw [hrows]
      exact List.mem_map.mpr ⟨d, hmem, if_pos hid⟩
    have hsettled := ht'.settled hmem'
    rw [StatusWrite.apply_id, hid] at hsettled
    exact hsettled

theorem staged_step (hs : s.Staged) (ht : s.Tabled) (he : Orderly cfg s e)
    (h : s.step cfg e = some s') : s'.Staged := by
  constructor
  · intro id
    have hold := stands_step (hs.worker id) hs ht he h
    rcases step_cases h with ⟨i, r, before, c, later, rfl, hcalls, hs'⟩ | ⟨r, rfl, hs'⟩ |
      ⟨command, new, hb⟩
    · have hworker : s'.procs.worker = s.procs.worker := by rw [hs']
      rw [hworker]
      exact hold
    · have hworker : s'.procs.worker = ((s.procs.worker.step cfg s.world r).next).getD .idle := by
        rw [hs']
        exact s.procs.setWorker_worker _
      rw [hworker]
      rcases BuildWorker.advances_step cfg s.world r s.procs.worker id with
        hle | ⟨x, hc, hadmits, hle⟩
      · exact hold.mono hle
      · exact (stands_written hc hadmits (tabled_step ht h) (congrArg State.world hs')).mono hle
    · rcases hb.worker with hworker | hworker <;> rw [hworker]
      · exact hold
      · exact stands_zero s' id
  · intro id x hx
    rcases late_step h hx with hold | ⟨t, hturn, hdeferred⟩
    · exact stands_step (hs.late id x hold) hs ht he h
    · rcases deferred_turn hturn hdeferred with hw | hexpired
      · exact (stands_step (hs.worker id) hs ht he h).mono (BuildWorker.floor_writes hw)
      · rw [hexpired]
        exact stands_zero s' id

theorem staged_of_reaches (h : Reaches (State.step cfg) (Orderly cfg) initial s) :
    s.Staged ∧ s.Tabled := by
  refine h.invariant (fun s => s.Staged ∧ s.Tabled) ?_ ?_
  · refine ⟨⟨fun id => stands_zero _ id, ?_⟩, fun _ => ⟨Nat.zero_le _, fun _ => rfl⟩⟩
    intro id x hx
    exact absurd hx List.not_mem_nil
  · rintro s e s' ⟨hs, ht⟩ he hstep
    exact ⟨staged_step hs ht he hstep, tabled_step ht hstep⟩

/-- An orderly run moves a row along the lifecycle. -/
theorem leads_of_reaches (hs : s.Staged) (ht : s.Tabled) {d : Deployment}
    (hd : d ∈ s.world.db.deployments) (h : Reaches (State.step cfg) (Orderly cfg) s s') :
    ∀ d' ∈ s'.world.db.deployments, d'.id = d.id →
      DeploymentStatus.Leads d.status d'.status := by
  have hinv := h.invariant
    (fun t => (t.Staged ∧ t.Tabled) ∧ t.Settled d.id ∧
      ∀ d' ∈ t.world.db.deployments, d'.id = d.id → DeploymentStatus.Leads d.status d'.status)
    ⟨⟨hs, ht⟩, ht.settled hd, fun d' hd' hid => by rw [ht.eq_of_id hd hd' hid]⟩ ?_
  · exact hinv.2.2
  · rintro t e t' ⟨⟨hst, htt⟩, hsettled, hleads⟩ he hstep
    refine ⟨⟨staged_step hst htt he hstep, tabled_step htt hstep⟩, settled_step hsettled hstep,
      fun d' hd' hid => ?_⟩
    obtain ⟨d₀, hd₀, hid₀, _⟩ := hsettled.rows_step hstep hd' hid
    have hold := hleads d₀ hd₀ hid₀
    rcases moves_step hst htt he hstep hd₀ hd' (hid.trans hid₀.symm) with hsame | hmove
    · rw [hsame]
      exact hold
    · exact hold.tail hmove

end State

/-- In an orderly run every further step keeps to the lifecycle, each row keeping its status
or making one of its moves, if and only if it is orderly; and over any further orderly run a
row's status only moves along the lifecycle: one that ended never changes, and a live
deployment stays live, expires or is superseded. -/
theorem status_one_way (h : Reaches (State.step cfg) (Orderly cfg) State.initial s) :
    (∀ e s', s.step cfg e = some s' →
      ((∀ d ∈ s.world.db.deployments, ∀ d' ∈ s'.world.db.deployments, d'.id = d.id →
        d'.status = d.status ∨ d.status.moves d'.status = true) ↔ Orderly cfg s e)) ∧
    ∀ s', Reaches (State.step cfg) (Orderly cfg) s s' →
      ∀ d ∈ s.world.db.deployments, ∀ d' ∈ s'.world.db.deployments, d'.id = d.id →
        DeploymentStatus.Leads d.status d'.status ∧
          (d.status.ended = true → d'.status = d.status) ∧
          (d.status = .ready → d'.status = .ready ∨ d'.status = .expired ∨
            d'.status = .superseded) := by
  obtain ⟨hs, ht⟩ := State.staged_of_reaches h
  refine ⟨fun e s' hstep => ⟨fun hmoves p hp d hd hid => ?_, fun he d hd d' hd' hid => ?_⟩,
    fun s' hrun d hd d' hd' hid => ?_⟩
  · -- the row after the write shows what the write did
    obtain ⟨t, hturn, _, hs'⟩ := State.step_eq_some_iff.mp hstep
    rw [hturn, Option.mem_def, Option.bind_some] at hp
    obtain ⟨id, x⟩ := p
    have hc : t.command = .writeStatus d.id x := by
      cases hcommand : t.command with
      | writeStatus id' x' =>
        rw [hcommand] at hp
        cases hp
        exact congrArg (Command.writeStatus · x) hid.symm
      | _ =>
        rw [hcommand] at hp
        cases hp
    have hd' : x.apply s.world.now d ∈ s'.world.db.deployments := by
      rw [hs', State.after, World.record_db, hc]
      exact List.mem_map.mpr ⟨d, hd, if_pos rfl⟩
    have hmove := hmoves d hd _ hd' (StatusWrite.apply_id _ _ _)
    rw [StatusWrite.apply_status] at hmove
    exact StatusWrite.finds_of_moves hmove
  · exact State.moves_step hs ht he hstep hd hd' hid
  · have hleads := State.leads_of_reaches hs ht hd hrun d' hd' hid
    refine ⟨hleads, DeploymentStatus.eq_of_leads_ended hleads, fun hready => ?_⟩
    rw [hready] at hleads
    exact DeploymentStatus.leads_ready hleads

/-- The first deployment of a project, from the queue until it is live. -/
theorem status_one_way_shop :
    ∃ s s', Reaches (State.step Config.clear) (Orderly Config.clear) State.initial s ∧
      Reaches (State.step Config.clear) (Orderly Config.clear) s s' ∧
      ∃ d ∈ s.world.db.deployments, ∃ d' ∈ s'.world.db.deployments,
        d.status = .queued ∧ d'.status = .ready ∧
          DeploymentStatus.Leads d.status d'.status := by
  obtain ⟨s, hs, hend⟩ := Reaches.exists_of_runEvents (State.step Config.clear)
    (Orderly Config.clear) State.initial shopCreated
    (fun s => decide (RunsUnder (State.step Config.clear) (Orderly Config.clear) s
        (shopWorker 21)) &&
      (runEvents (State.step Config.clear) s (shopWorker 21)).any fun s' =>
        s.world.db.deployments.any fun d => s'.world.db.deployments.any fun d' =>
          d'.id == d.id && d.status == .queued && d'.status == .ready)
    (by decide) (by decide)
  rw [Bool.and_eq_true, decide_eq_true_eq, Option.any_eq_true] at hend
  obtain ⟨horderly, s', hrun, hend⟩ := hend
  obtain ⟨d, hd, hend⟩ := List.any_eq_true.mp hend
  obtain ⟨d', hd', hend⟩ := List.any_eq_true.mp hend
  simp only [Bool.and_eq_true, beq_iff_eq] at hend
  obtain ⟨⟨hid, hqueued⟩, hready⟩ := hend
  have hs' := Reaches.of_runEvents hrun horderly
  exact ⟨s, s', hs, hs', d, hd, d', hd', hqueued, hready,
    ((status_one_way hs).2 s' hs' d hd d' hd' hid).1⟩

/-- Users do not set statuses themselves: the writers are those of the lifecycle. -/
def Event.putsStatus : Event → Bool
  | .request (.updateStatus _ _ _) => true
  | _ => false

/-- A cancellation between the worker's check and its write: the deployment is built after it
was cancelled. -/
theorem not_status_one_way :
    ¬∀ (cfg : Config) (s : State),
      Reaches (State.step cfg) (fun _ e => e.putsStatus = false) State.initial s →
        ∀ e s', e.putsStatus = false → s.step cfg e = some s' →
          ∀ d ∈ s.world.db.deployments, ∀ d' ∈ s'.world.db.deployments, d'.id = d.id →
            d'.status = d.status ∨ d.status.moves d'.status = true := by
  intro h
  obtain ⟨s, hs, hend⟩ := Reaches.exists_of_runEvents (State.step Config.clear)
    (fun _ e => e.putsStatus = false) State.initial
    (shopCreated ++ shopWorker 3 ++ shopRequest (.cancel 1 2) 3)
    (fun s => (s.step Config.clear (.worker shopReply)).any fun s' =>
      s.world.db.deployments.any fun d => s'.world.db.deployments.any fun d' =>
        d'.id == d.id && d.status == .canceled && d'.status == .building)
    (by decide) (by decide)
  rw [Option.any_eq_true] at hend
  obtain ⟨s', hstep, hend⟩ := hend
  obtain ⟨d, hd, hend⟩ := List.any_eq_true.mp hend
  obtain ⟨d', hd', hend⟩ := List.any_eq_true.mp hend
  simp only [Bool.and_eq_true, beq_iff_eq] at hend
  obtain ⟨⟨hid, hcanceled⟩, hbuilding⟩ := hend
  have hmove := h Config.clear s hs (.worker shopReply) s' rfl hstep d hd d' hd' hid
  rw [hcanceled, hbuilding] at hmove
  exact absurd hmove (by decide)

end System
end Code2Cloud
