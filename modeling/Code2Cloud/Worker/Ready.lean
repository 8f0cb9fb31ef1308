import Code2Cloud.Base.Reach
import Mathlib.Tactic.ByContra

/-!
# Waiting for a rollout

What `WaitForDeploymentReady` sees of a Deployment that was given a new template, while the pods
are replaced under it, and when it may take the old pods for the new ones.
-/

namespace Code2Cloud
namespace Worker
namespace Rollout

/-- The pods of a template. -/
structure ReplicaSet where
  pods : Nat
  ready : Nat
  ready_le : ready ≤ pods

def ReplicaSet.empty : ReplicaSet := ⟨0, 0, Nat.le_refl 0⟩

/-- The ready pods that a status counts: those of older templates and those of the new one. -/
structure Status where
  old : Nat
  new : Nat
  deriving DecidableEq

/-- `Status.ReadyReplicas` counts the pods that match the selector. -/
def Status.readyReplicas (status : Status) : Nat := status.old + status.new

/-- A Deployment that exists before it is given a new template. -/
structure Deployed where
  replicaSet : ReplicaSet
  readyReplicas : Nat

structure State where
  old : ReplicaSet
  new : ReplicaSet
  /-- As the controller wrote it last. -/
  status : Status
  /-- What the ticks of `WaitForDeploymentReady` got; nothing if the request failed. -/
  observed : List (Option Status)

/-- `CreateOrUpdateDeployment` replaces the specification and keeps the status. -/
def applied (prior : Option Deployed) : State where
  old := prior.elim .empty (·.replicaSet)
  new := .empty
  status := { old := prior.elim 0 (·.readyReplicas), new := 0 }
  observed := []

/-- The loop of `WaitForDeploymentReady`: the status at which it returns nil.  It returns an error
if the time is over before. -/
def waitForDeploymentReady (replicas : Nat) : List (Option Status) → Option Status
  | [] => none
  | none :: rest => waitForDeploymentReady replicas rest
  | some status :: rest =>
    if replicas ≤ status.readyReplicas then some status else waitForDeploymentReady replicas rest

inductive Event
  /-- The controller creates a pod of the new template. -/
  | create
  /-- It removes a pod of an older template. -/
  | remove (ready : Bool)
  | becomeReady (new : Bool)
  | becomeUnready (new : Bool)
  /-- It writes the status. -/
  | sync
  /-- A tick of the loop, and whether the request is answered. -/
  | tick (answered : Bool)

def ReplicaSet.becomeReady (r : ReplicaSet) : Option ReplicaSet :=
  if h : r.ready < r.pods then some ⟨r.pods, r.ready + 1, h⟩ else none

def ReplicaSet.becomeUnready (r : ReplicaSet) : Option ReplicaSet :=
  if 0 < r.ready then some ⟨r.pods, r.ready - 1, Nat.le_trans (Nat.sub_le _ _) r.ready_le⟩ else none

def ReplicaSet.create (r : ReplicaSet) : ReplicaSet :=
  ⟨r.pods + 1, r.ready, Nat.le_succ_of_le r.ready_le⟩

def ReplicaSet.remove (r : ReplicaSet) (ready : Bool) : Option ReplicaSet :=
  if ready then
    if 0 < r.ready then some ⟨r.pods - 1, r.ready - 1, Nat.sub_le_sub_right r.ready_le 1⟩ else none
  else if h : r.ready < r.pods then some ⟨r.pods - 1, r.ready, Nat.le_sub_one_of_lt h⟩ else none

/-- A rolling update with `maxSurge` 1 and `maxUnavailable` 0: at most one pod more than there
shall be, and a ready pod goes only if enough others are ready. -/
def step (replicas : Nat) (s : State) : Event → Option State
  | .create =>
    if s.old.pods + s.new.pods < replicas + 1 ∧ s.new.pods < replicas then
      some { s with new := s.new.create }
    else none
  | .remove ready =>
    if ready = true → replicas < s.old.ready + s.new.ready then
      (s.old.remove ready).map fun old => { s with old }
    else none
  | .becomeReady new =>
    if new then s.new.becomeReady.map fun new => { s with new }
    else s.old.becomeReady.map fun old => { s with old }
  | .becomeUnready new =>
    if new then s.new.becomeUnready.map fun new => { s with new }
    else s.old.becomeUnready.map fun old => { s with old }
  | .sync => some { s with status := { old := s.old.ready, new := s.new.ready } }
  | .tick answered =>
    some { s with observed := s.observed ++ [if answered then some s.status else none] }

/-- The states of the rollout that follow the new template. -/
abbrev Follows (replicas : Nat) (prior : Option Deployed) (s : State) : Prop :=
  Reaches (step replicas) (fun _ _ => True) (applied prior) s

/-- Whenever the loop returns nil, enough pods of the new template are ready. -/
def ReadyOnlyForOwn (replicas : Nat) (prior : Option Deployed) : Prop :=
  ∀ s, Follows replicas prior s → ∀ status,
    waitForDeploymentReady replicas s.observed = some status → replicas ≤ status.new

/-- No pod is left of an older template, and the status shows it. -/
def Fresh (replicas : Nat) (prior : Option Deployed) : Prop :=
  ∀ d, prior = some d → d.replicaSet.pods = 0 ∧ d.readyReplicas < replicas

/-! ## Rollouts without old pods -/

variable {replicas : Nat} {prior : Option Deployed} {s s' : State}

theorem waitForDeploymentReady_eq_some {observed : List (Option Status)} {status : Status}
    (h : waitForDeploymentReady replicas observed = some status) :
    some status ∈ observed ∧ replicas ≤ status.readyReplicas := by
  induction observed with
  | nil => cases h
  | cons o observed ih =>
    cases o with
    | none => exact ⟨List.mem_cons_of_mem _ (ih h).1, (ih h).2⟩
    | some st =>
      rw [waitForDeploymentReady] at h
      split at h
      · rename_i hready
        cases h
        exact ⟨List.mem_cons_self, hready⟩
      · exact ⟨List.mem_cons_of_mem _ (ih h).1, (ih h).2⟩

/-- A status that is not taken for ready, or counts pods of the new template only. -/
def Honest (replicas : Nat) (status : Status) : Prop :=
  status.readyReplicas < replicas ∨ status.old = 0

/-- There are no old pods, and no status counts one. -/
structure NoneLeft (replicas : Nat) (s : State) : Prop where
  old : s.old.pods = 0
  status : Honest replicas s.status
  observed : ∀ status, some status ∈ s.observed → Honest replicas status

theorem noneLeft_applied (h : Fresh replicas prior) : NoneLeft replicas (applied prior) := by
  cases prior with
  | none => exact ⟨rfl, Or.inr rfl, fun _ hmem => absurd hmem List.not_mem_nil⟩
  | some d =>
    obtain ⟨hpods, hstatus⟩ := h d rfl
    exact ⟨hpods, Or.inl hstatus, fun _ hmem => absurd hmem List.not_mem_nil⟩

theorem noneLeft_step {e : Event} (h : NoneLeft replicas s) (hs : step replicas s e = some s') :
    NoneLeft replicas s' := by
  have hready : s.old.ready = 0 := Nat.le_zero.mp (h.old ▸ s.old.ready_le)
  cases e with
  | create =>
    rw [step] at hs
    split at hs
    · cases hs
      exact ⟨h.old, h.status, h.observed⟩
    · cases hs
  | remove ready =>
    rw [step] at hs
    split at hs
    · obtain ⟨old, hold, rfl⟩ := Option.map_eq_some_iff.mp hs
      rw [ReplicaSet.remove] at hold
      split at hold
      · rw [if_neg (by omega)] at hold
        cases hold
      · rw [dif_neg (by rw [h.old]; exact Nat.not_lt_zero _)] at hold
        cases hold
    · cases hs
  | becomeReady new =>
    rw [step] at hs
    split at hs
    · obtain ⟨_, _, rfl⟩ := Option.map_eq_some_iff.mp hs
      exact ⟨h.old, h.status, h.observed⟩
    · obtain ⟨old, hold, rfl⟩ := Option.map_eq_some_iff.mp hs
      rw [ReplicaSet.becomeReady, dif_neg (by rw [h.old]; exact Nat.not_lt_zero _)] at hold
      cases hold
  | becomeUnready new =>
    rw [step] at hs
    split at hs
    · obtain ⟨_, _, rfl⟩ := Option.map_eq_some_iff.mp hs
      exact ⟨h.old, h.status, h.observed⟩
    · obtain ⟨old, hold, rfl⟩ := Option.map_eq_some_iff.mp hs
      rw [ReplicaSet.becomeUnready, if_neg (by omega)] at hold
      cases hold
  | sync =>
    cases hs
    exact ⟨h.old, Or.inr hready, h.observed⟩
  | tick answered =>
    cases hs
    refine ⟨h.old, h.status, fun status hmem => ?_⟩
    rcases List.mem_append.mp hmem with hmem | hmem
    · exact h.observed status hmem
    · cases answered with
      | true =>
        rw [List.mem_singleton.mp hmem |> Option.some.inj]
        exact h.status
      | false => cases List.mem_singleton.mp hmem

theorem readyOnlyForOwn_of_fresh (h : Fresh replicas prior) : ReadyOnlyForOwn replicas prior := by
  intro s hs status hstatus
  have hnone := hs.invariant (NoneLeft replicas) (noneLeft_applied h)
    fun _ _ _ hnone _ hstep => noneLeft_step hnone hstep
  obtain ⟨hmem, hready⟩ := waitForDeploymentReady_eq_some hstatus
  rcases hnone.observed status hmem with hless | hold
  · omega
  · rw [Status.readyReplicas, hold] at hready
    omega

/-! ## Old pods that count as ready -/

/-- All pods of older templates may become ready. -/
theorem exists_allReady (replicas k : Nat) {s : State} (h : s.old.ready + k = s.old.pods) :
    ∃ s', Reaches (step replicas) (fun _ _ => True) s s' ∧ s'.old.ready = s.old.pods ∧
      s'.old.pods = s.old.pods ∧ s'.new = s.new ∧ s'.observed = s.observed := by
  induction k generalizing s with
  | zero => exact ⟨s, .refl, h, rfl, rfl, rfl⟩
  | succ k ih =>
    have hlt : s.old.ready < s.old.pods := by omega
    let next : State := { s with old := ⟨s.old.pods, s.old.ready + 1, hlt⟩ }
    have hstep : step replicas s (.becomeReady false) = some next := by
      simp only [step, ReplicaSet.becomeReady, dif_pos hlt, Bool.false_eq_true, if_false,
        Option.map_some, next]
    obtain ⟨s', hs', hold, hpods, hnew, hobserved⟩ := ih (s := next) (by simp only [next]; omega)
    exact ⟨s', (Reaches.step .refl trivial hstep).trans hs', hold, hpods, hnew, hobserved⟩

/-- As many new pods as are missing may be created and become ready. -/
theorem exists_created (replicas k : Nat) {s : State} (hready : s.new.ready = s.new.pods)
    (hroom : s.old.pods + s.new.pods + k ≤ replicas) :
    ∃ s', Reaches (step replicas) (fun _ _ => True) s s' ∧ s'.old = s.old ∧
      s'.new.ready = s.new.ready + k ∧ s'.observed = s.observed := by
  induction k generalizing s with
  | zero => exact ⟨s, .refl, rfl, rfl, rfl⟩
  | succ k ih =>
    have hlt : s.new.create.ready < s.new.create.pods := by
      simp only [ReplicaSet.create]
      omega
    let created : State := { s with new := s.new.create }
    let next : State :=
      { created with new := ⟨s.new.create.pods, s.new.create.ready + 1, hlt⟩ }
    have hcreate : step replicas s .create = some created := by
      rw [step, if_pos (by omega)]
    have hbecome : step replicas created (.becomeReady true) = some next := by
      simp only [step, ReplicaSet.becomeReady, created, dif_pos hlt, if_true, Option.map_some, next]
    have hall : next.new.ready = next.new.pods := by
      simp only [next, ReplicaSet.create]
      omega
    have hrest : next.old.pods + next.new.pods + k ≤ replicas := by
      simp only [next, created, ReplicaSet.create]
      omega
    obtain ⟨s', hs', hold, hnew, hobserved⟩ := ih hall hrest
    refine ⟨s', ((Reaches.step .refl trivial hcreate).step trivial hbecome).trans hs', hold, ?_,
      hobserved⟩
    rw [hnew]
    simp only [next, ReplicaSet.create]
    omega

/-- The loop takes the status that it gets at its next tick. -/
theorem not_readyOnlyForOwn_of_status (h : Follows replicas prior s) (hobserved : s.observed = [])
    (hready : replicas ≤ s.status.readyReplicas) (hnew : s.status.new < replicas) :
    ¬ReadyOnlyForOwn replicas prior := by
  intro hall
  have hreturns : waitForDeploymentReady replicas (s.observed ++ [some s.status]) =
      some s.status := by
    rw [hobserved, List.nil_append, waitForDeploymentReady, if_pos hready]
  have htick : step replicas s (.tick true) =
      some { s with observed := s.observed ++ [some s.status] } := rfl
  have hown := hall _ (h.step trivial htick) s.status hreturns
  omega

theorem not_readyOnlyForOwn_of_old (hzero : 0 < replicas) {d : Deployed}
    (hpods : d.replicaSet.pods ≠ 0) : ¬ReadyOnlyForOwn replicas (some d) := by
  obtain ⟨s, hs, hold, hpodsEq, hnew, hobserved⟩ := exists_allReady replicas
    (d.replicaSet.pods - d.replicaSet.ready) (s := applied (some d))
    (Nat.add_sub_cancel' d.replicaSet.ready_le)
  have hpods' : s.old.pods = d.replicaSet.pods := hpodsEq
  obtain ⟨t, ht, hold', hnew', hobserved'⟩ : ∃ t, Reaches (step replicas) (fun _ _ => True) s t ∧
      t.old = s.old ∧ t.new.ready = replicas - s.old.pods ∧ t.observed = s.observed := by
    by_cases henough : replicas ≤ s.old.pods
    · refine ⟨s, .refl, rfl, ?_, rfl⟩
      rw [hnew, Nat.sub_eq_zero_of_le henough]
      rfl
    · obtain ⟨t, ht, hold', hnew', hobserved'⟩ := exists_created replicas (replicas - s.old.pods)
        (s := s) (by rw [hnew]; rfl) (by rw [hnew]; simp only [applied, ReplicaSet.empty]; omega)
      refine ⟨t, ht, hold', ?_, hobserved'⟩
      rw [hnew', hnew]
      exact Nat.zero_add _
  have hsync : step replicas t .sync =
      some { t with status := { old := t.old.ready, new := t.new.ready } } := rfl
  have hfollows : Follows replicas (some d)
      { t with status := { old := t.old.ready, new := t.new.ready } } :=
    (hs.trans ht).step trivial hsync
  have hready : t.old.ready = s.old.pods := by
    rw [hold', hold, hpodsEq]
  refine not_readyOnlyForOwn_of_status hfollows (hobserved'.trans hobserved) ?_ ?_
  · simp only [Status.readyReplicas]
    omega
  · simp only
    omega

/-- The loop never takes old pods for new ones, in any run of the rollout, exactly if none was left
when the template was applied, or none is asked for. -/
theorem readyOnlyForOwn_iff (replicas : Nat) (prior : Option Deployed) :
    ReadyOnlyForOwn replicas prior ↔ replicas = 0 ∨ Fresh replicas prior := by
  constructor
  · intro hall
    by_contra hnot
    rw [not_or] at hnot
    obtain ⟨hzero, hfresh⟩ := hnot
    have hpos : 0 < replicas := Nat.pos_of_ne_zero hzero
    simp only [Fresh, not_forall] at hfresh
    obtain ⟨d, rfl, hd⟩ := hfresh
    by_cases hpods : d.replicaSet.pods = 0
    · have hstale : replicas ≤ d.readyReplicas := by
        by_contra hless
        exact hd ⟨hpods, by omega⟩
      exact not_readyOnlyForOwn_of_status .refl rfl (Nat.le_trans hstale (Nat.le_add_right _ _))
        hpos hall
    · exact not_readyOnlyForOwn_of_old hpos hpods hall
  · rintro (rfl | hfresh)
    · exact fun _ _ _ _ => Nat.zero_le _
    · exact readyOnlyForOwn_of_fresh hfresh

/-- One ready pod of the template before. -/
theorem not_readyOnlyForOwn :
    ¬∀ (replicas : Nat) (prior : Option Deployed), ReadyOnlyForOwn replicas prior := by
  intro hall
  have hown := hall 1 (some ⟨⟨1, 1, Nat.le_refl 1⟩, 1⟩)
    { applied (some ⟨⟨1, 1, Nat.le_refl 1⟩, 1⟩) with observed := [some ⟨1, 0⟩] }
    (.step (e := .tick true) .refl trivial rfl) ⟨1, 0⟩ rfl
  exact absurd hown (by decide)

end Rollout
end Worker
end Code2Cloud
