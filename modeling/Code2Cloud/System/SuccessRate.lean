import Code2Cloud.System.Live
import Code2Cloud.System.Tenants

/-!
# The success rate

The overviews divide the deployments that succeeded by those whose status counts as finished, and a
deployment that succeeded does not keep such a status.
-/

namespace Code2Cloud
namespace System

open Api AnalyticsService Rounding
open Methods.AnalyticsService Resumption

/-! ## The arithmetic -/

/-- The rate is rounded twice as a double and once to an integer. -/
theorem round_rate_le_iff {q : ℚ} (hq : 0 ≤ q) :
    (round (roundTo 53 (roundTo 53 q * 100))).toNat ≤ 100 ↔
      q ≤ (201 * 2 ^ 50 + 1) / (200 * 2 ^ 50) := by
  have hy : 0 ≤ roundTo 53 q := roundTo_nonneg 53 hq
  have hround : (round (roundTo 53 (roundTo 53 q * 100))).toNat ≤ 100 ↔
      roundTo 53 (roundTo 53 q * 100) < 201 / 2 := by
    rw [Int.toNat_le, round_eq, ← Int.lt_add_one_iff, Int.floor_lt]
    norm_num
    constructor <;> intro h <;> linarith
  -- the last double below 100.5, and the last one whose hundredfold is rounded to it
  have hprod : roundTo 53 (roundTo 53 q * 100) < 201 / 2 ↔
      roundTo 53 q * 100 < (7072058789855231 + 1 / 2) / 2 ^ 46 := by
    have h := (roundTo_le_iff (p := 53) (q := roundTo 53 q * 100) (n := 7072058789855231)
      (e := -46) (by norm_num) (by positivity) (by norm_num) (by norm_num)).2
    rw [roundsUpTo_iff_of_odd (by decide)] at h
    norm_num at h ⊢
    rw [h]
    constructor <;> intro h <;> linarith
  obtain ⟨hle, hlt⟩ := roundTo_le_iff (p := 53) (n := 4526117625507348) (e := -52) (by norm_num)
    hq (by norm_num) (by norm_num)
  rw [roundsUpTo_iff_of_even (by decide)] at hle hlt
  norm_num at hle hlt
  rw [hround, hprod]
  constructor
  · intro h
    have hquot := hlt.mp (by norm_num at h; linarith)
    norm_num
    linarith
  · intro h
    have hquot := hle.mpr (by norm_num at h; linarith)
    norm_num
    linarith

/-! ## The rows -/

/-- Deployments that succeeded and whose status no longer counts as finished. -/
def movedOn (ds : List Deployment) : List Deployment :=
  ds.filter fun d => d.isSuccess && !finished d.status

/-- Finished deployments that never succeeded. -/
def unsuccessful (ds : List Deployment) : List Deployment :=
  ds.filter fun d => finished d.status && !d.isSuccess

/-- No deployment has finished, or those that moved on are at most as many as the unsuccessful ones,
up to half a per cent of the finished ones and what doubles cannot tell from it. -/
def Balanced (ds : List Deployment) : Prop :=
  (∀ d ∈ ds, finished d.status = false) ∨
    200 * 2 ^ 50 * (movedOn ds).length ≤ 200 * 2 ^ 50 * (unsuccessful ds).length +
      (2 ^ 50 + 1) * (ds.filter fun d => finished d.status).length

instance (ds : List Deployment) : Decidable (Balanced ds) :=
  inferInstanceAs (Decidable (_ ∨ _))

/-- Those that succeeded and those that finished, but for the ones that did both. -/
theorem length_successes (ds : List Deployment) :
    (ds.filter (·.isSuccess)).length + (unsuccessful ds).length =
      (ds.filter fun d => finished d.status).length + (movedOn ds).length := by
  induction ds with
  | nil => rfl
  | cons d ds ih =>
    rw [unsuccessful, movedOn] at ih ⊢
    cases hs : d.isSuccess <;> cases hf : finished d.status <;>
      simp only [List.filter_cons, hs, hf, Bool.and_true, Bool.and_false,
        Bool.not_true, Bool.not_false, if_true, Bool.false_eq_true, if_false,
        List.length_cons] <;> omega

theorem successRate_le_iff (ds : List Deployment) : successRate ds ≤ 100 ↔ Balanced ds := by
  have hcount := length_successes ds
  have hnone : (ds.filter fun d => finished d.status).length = 0 ↔
      ∀ d ∈ ds, finished d.status = false := by
    rw [List.length_eq_zero_iff, List.filter_eq_nil_iff]
    simp only [Bool.not_eq_true]
  rw [successRate, Balanced, ← hnone]
  generalize (ds.filter fun d => finished d.status).length = total at *
  generalize (ds.filter (·.isSuccess)).length = successes at *
  by_cases htotal : total = 0
  · rw [if_pos htotal]
    exact iff_of_true (le_refl 100) (Or.inl htotal)
  · have hpos : (0 : ℚ) < total := by exact_mod_cast Nat.pos_of_ne_zero htotal
    rw [if_neg htotal, or_iff_right htotal, round_rate_le_iff (by positivity),
      div_le_div_iff₀ hpos (by norm_num)]
    norm_cast
    constructor <;> intro h <;> omega

/-- As long as what succeeded counts as finished, the rates are percentages. -/
theorem balanced_of_finished {ds : List Deployment}
    (h : ∀ d ∈ ds, d.isSuccess = true → finished d.status = true) : Balanced ds := by
  have hnone : movedOn ds = [] := by
    refine List.filter_eq_nil_iff.mpr fun d hd hmoved => ?_
    rw [Bool.and_eq_true, Bool.not_eq_true'] at hmoved
    rw [h d hd hmoved.1] at hmoved
    exact absurd hmoved.2 (by decide)
  refine Or.inr ?_
  rw [hnone, List.length_nil]
  omega

/-! ## The overviews -/

/-- Whatever the two methods find, the rate they return is at most 100 if and only if the rows of
the last thirty days were balanced when they were read. -/
theorem successRates_iff (zone : Zone) (now : Nat) (userId : UserId) (projectId : ProjectId)
    (stores : Nat → Store) :
    (∀ o, (getOverview zone now userId).result stores = .ok (.overview o) →
      (o.successRate ≤ 100 ↔ Balanced
        (recentDeployments ((stores 4).db.deploymentsOfUser userId) (daysBefore now 30)))) ∧
    ∀ a, (getProjectAnalytics zone now userId projectId).result stores =
        .ok (.projectAnalytics a) →
      (a.successRate ≤ 100 ↔ Balanced
        (recentDeployments ((stores 4).db.deploymentsOf projectId) (daysBefore now 30))) := by
  constructor
  · intro o ho
    cases ho
    exact successRate_le_iff _
  · intro a ha
    obtain ⟨p, _, hrest⟩ := result_read_eq_ok ha
    cases hrest
    exact successRate_le_iff _

/-- The first deployment of a shop is ready. -/
theorem successRates_shop :
    ∃ s, Reaches (State.step Config.clear) (fun _ _ => True) State.initial s ∧
      (∃ o, (getOverview Zone.utc s.world.now 1).result (fun _ => storeOf s.world []) =
        .ok (.overview o) ∧ o.successRate ≤ 100) ∧
      ∃ a, (getProjectAnalytics Zone.utc s.world.now 1 1).result (fun _ => storeOf s.world []) =
        .ok (.projectAnalytics a) ∧ a.successRate ≤ 100 := by
  obtain ⟨s, hs, hend⟩ := Reaches.exists_of_runEvents (State.step Config.clear)
    (fun _ _ => True) State.initial (shopCreated ++ shopWorker 23)
    (fun s => (s.world.db.findOwnedProject 1 1).isSome &&
      decide (Balanced (recentDeployments (s.world.db.deploymentsOfUser 1)
        (daysBefore s.world.now 30))) &&
      decide (Balanced (recentDeployments (s.world.db.deploymentsOf 1)
        (daysBefore s.world.now 30))))
    (by decide) (runsUnder_true _ _ _)
  simp only [Bool.and_eq_true, decide_eq_true_eq] at hend
  obtain ⟨⟨howned, huser⟩, hproject⟩ := hend
  obtain ⟨p, hp⟩ := Option.isSome_iff_exists.mp howned
  have hrates := successRates_iff Zone.utc s.world.now 1 1 fun _ => storeOf s.world []
  have hresult : ∃ a, (getProjectAnalytics Zone.utc s.world.now 1 1).result
      (fun _ => storeOf s.world []) = .ok (.projectAnalytics a) := by
    have hfound : ownedProject 1 1 (storeOf s.world []) = .ok p := by
      rw [ownedProject]
      exact hp ▸ rfl
    rw [getProjectAnalytics, Resumption.read, Resumption.result, hfound]
    exact ⟨_, rfl⟩
  obtain ⟨a, ha⟩ := hresult
  exact ⟨s, hs, ⟨_, rfl, (hrates.1 _ rfl).mpr huser⟩, a, ha, (hrates.2 a ha).mpr hproject⟩

/-- After a push the first deployment is superseded: two succeeded, and one of them counts as
finished. -/
theorem not_successRates : ¬∀ (s : State) (o : Overview),
    Reaches (State.step Config.clear) (fun _ _ => True) State.initial s →
      (getOverview Zone.utc s.world.now 1).result (fun _ => storeOf s.world []) =
        .ok (.overview o) →
      o.successRate ≤ 100 := by
  intro h
  obtain ⟨s, hs, hend⟩ := Reaches.exists_of_runEvents (State.step Config.clear)
    (fun _ _ => True) State.initial
    (shopCreated ++ shopWorker 23 ++ shopRequest (.push WebhooksService.shopPush) 4 ++
      shopWorker 25)
    (fun s => !decide (Balanced (recentDeployments (s.world.db.deploymentsOfUser 1)
      (daysBefore s.world.now 30))))
    (by decide) (runsUnder_true _ _ _)
  rw [Bool.not_eq_true', decide_eq_false_iff_not, ← successRate_le_iff] at hend
  exact hend (h s _ hs rfl)

end System
end Code2Cloud
