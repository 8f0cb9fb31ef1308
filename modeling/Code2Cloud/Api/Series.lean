import Code2Cloud.Api.Analytics

/-!
# Series by day

The dates that the loops of `groupByDay` and `computeBuildTimeTrend` set, and what becomes of the
deployments of the other dates.
-/

namespace Code2Cloud
namespace Api
namespace AnalyticsService

open OrderedMap

variable (zone : Zone) (ds : List Deployment) (start stop : Nat)

/-! ## The loop -/

def Zone.instant (zone : Zone) (start n : Nat) : Nat := zone.nextDay^[n] start

variable {zone ds start stop}

theorem Zone.instant_succ (n : Nat) :
    zone.instant start (n + 1) = zone.nextDay (zone.instant start n) :=
  Function.iterate_succ_apply' zone.nextDay n start

theorem Zone.instant_nextDay (n : Nat) :
    zone.instant (zone.nextDay start) n = zone.instant start (n + 1) :=
  (Function.iterate_succ_apply zone.nextDay n start).symm

theorem Zone.nextDay_bounds (zone : Zone) (t : Nat) :
    t + 23 * hourMs ≤ zone.nextDay t ∧ zone.nextDay t ≤ t + 25 * hourMs := by
  rcases zone.hours t with h | h | h <;> rw [h] <;> omega

theorem Zone.instant_add_le (n : Nat) : start + n * (23 * hourMs) ≤ zone.instant start n := by
  induction n with
  | zero => exact (Nat.add_zero start).le.trans' (by omega)
  | succ n ih =>
    rw [instant_succ]
    have := (zone.nextDay_bounds (zone.instant start n)).1
    rw [Nat.succ_mul]
    omega

theorem Zone.instant_mono {m n : Nat} (h : m ≤ n) :
    zone.instant start m ≤ zone.instant start n := by
  induction n, h using Nat.le_induction with
  | base => exact le_rfl
  | succ n _ ih =>
    rw [instant_succ]
    have := (zone.nextDay_bounds (zone.instant start n)).1
    omega

/-- The loop visits the instants up to the end of the range. -/
theorem mem_visits_iff {fuel t : Nat} : t ∈ visits zone stop fuel start ↔
    ∃ n < fuel, zone.instant start n = t ∧ t ≤ stop := by
  induction fuel generalizing start with
  | zero => simp [visits]
  | succ fuel ih =>
    rw [visits]
    by_cases hstart : start ≤ stop
    · rw [if_pos hstart, List.mem_cons, ih]
      constructor
      · rintro (rfl | ⟨n, hn, ht, hle⟩)
        · exact ⟨0, Nat.succ_pos fuel, rfl, hstart⟩
        · exact ⟨n + 1, Nat.succ_lt_succ hn, (zone.instant_nextDay n).symm.trans ht, hle⟩
      · rintro ⟨n, hn, ht, hle⟩
        cases n with
        | zero => exact Or.inl ht.symm
        | succ n =>
          exact Or.inr ⟨n, Nat.lt_of_succ_lt_succ hn, (zone.instant_nextDay n).trans ht, hle⟩
    · rw [if_neg hstart]
      refine iff_of_false List.not_mem_nil ?_
      rintro ⟨n, _, rfl, hle⟩
      exact hstart ((zone.instant_mono (Nat.zero_le n)).trans hle)

/-- The dates the loop sets are those of all instants in the range. -/
theorem mem_daysFrom_iff {day : Nat} : day ∈ daysFrom zone start stop ↔
    ∃ n, zone.instant start n ≤ stop ∧ zone.instant start n / dayMs = day := by
  rw [daysFrom, List.mem_map]
  constructor
  · rintro ⟨t, ht, rfl⟩
    obtain ⟨n, _, rfl, hle⟩ := mem_visits_iff.mp ht
    exact ⟨n, hle, rfl⟩
  · rintro ⟨n, hle, rfl⟩
    refine ⟨_, mem_visits_iff.mpr ⟨n, ?_, rfl, hle⟩, rfl⟩
    have hn : start + n * (23 * hourMs) ≤ stop := (zone.instant_add_le n).trans hle
    rw [Nat.lt_succ_iff, Nat.le_div_iff_mul_le (by decide)]
    omega

/-! ## The series -/

def dates (zone : Zone) (start stop : Nat) : List Nat :=
  (firsts (daysFrom zone start stop)).insertionSort (· ≤ ·)

theorem mem_dates_iff {day : Nat} : day ∈ dates zone start stop ↔
    ∃ n, zone.instant start n ≤ stop ∧ zone.instant start n / dayMs = day := by
  rw [dates, List.mem_insertionSort, mem_firsts, mem_daysFrom_iff]

theorem pairwise_dates (zone : Zone) (start stop : Nat) :
    (dates zone start stop).Pairwise (· < ·) := by
  have hnodup : (dates zone start stop).Nodup :=
    (List.perm_insertionSort _ _).nodup_iff.mpr (nodup_firsts _)
  refine (List.pairwise_insertionSort (· ≤ ·) _).imp₂ (fun a b hle hne => ?_) hnodup
  exact Nat.lt_of_le_of_ne hle hne

/-- Entries that are sorted by their dates are those of the sorted dates. -/
theorem map_dates {β : Type} (entry : Nat → β) (date : β → Nat) (h : ∀ k, date (entry k) = k) :
    ((firsts (daysFrom zone start stop)).map entry).insertionSort (fun a b => date a ≤ date b) =
      (dates zone start stop).map entry := by
  refine (List.map_insertionSort _ _ entry _ fun a _ b _ => ?_).symm
  rw [h, h]

theorem foldl_count (l : List Deployment) (v : DayCount) :
    l.foldl (fun v d => v.count d) v =
      { date := v.date
        total := v.total + l.length
        success := v.success + (l.filter (·.isSuccess)).length
        failed := v.failed + (l.filter fun d => d.status = .failed).length } := by
  induction l generalizing v with
  | nil => rfl
  | cons d l ih =>
    rw [List.foldl_cons, ih]
    by_cases hs : d.isSuccess = true <;> by_cases hf : d.status = .failed <;>
      simp only [DayCount.count, List.filter_cons, hs, hf, List.length_cons, if_true, if_false,
        decide_true, decide_false, Bool.false_eq_true, Nat.add_assoc, Nat.add_comm 1]

/-- What is counted under a date: the deployments that started on it. -/
theorem groupByDay_eq : groupByDay zone ds start stop =
    (dates zone start stop).map fun date =>
      { date
        total := (startedOn date ds).length
        success := ((startedOn date ds).filter (·.isSuccess)).length
        failed := ((startedOn date ds).filter fun d => d.status = .failed).length } := by
  rw [groupByDay, foldl_alter_layOut, List.map_map]
  rw [← map_dates _ DayCount.date fun _ => rfl]
  refine congrArg (List.insertionSort _) (List.map_congr_left fun date _ => ?_)
  refine (foldl_count _ _).trans ?_
  simp only [DayCount.empty, Nat.zero_add, startedOn]

theorem foldl_add (l : List Deployment) (v : DayDurations)
    (hv : v.avgDuration = roundedAverage v.totalDuration v.count) :
    (l.foldl (fun v d => v.add d) v).toDayAverage =
      { date := v.date
        avgDuration :=
          roundedAverage (v.totalDuration + totalDuration l) (v.count + l.length) } := by
  induction l generalizing v with
  | nil => exact DayAverage.mk.injEq .. |>.mpr ⟨rfl, hv⟩
  | cons d l ih =>
    rw [List.foldl_cons, ih _ rfl, DayDurations.add, totalDuration, totalDuration, List.map_cons,
      List.sum_cons, List.length_cons, Nat.add_assoc, Nat.add_assoc, Nat.add_comm 1]

/-- What is averaged under a date: the completed deployments that started on it. -/
theorem computeBuildTimeTrend_eq : computeBuildTimeTrend zone ds start stop =
    (dates zone start stop).map fun date =>
      { date, avgDuration := avgBuildTime (startedOn date ds) } := by
  rw [computeBuildTimeTrend, foldl_alter_layOut, List.map_map]
  rw [← map_dates _ DayAverage.date fun _ => rfl]
  refine congrArg (List.insertionSort _) (List.map_congr_left fun date _ => ?_)
  refine (foldl_add _ _ rfl).trans ?_
  have hcomm : (completed ds).filter (fun d => d.startedAt / dayMs = date) =
      completed (startedOn date ds) := List.filter_comm _ _ ds
  simp only [DayDurations.empty, Nat.zero_add, avgBuildTime, hcomm]

/-! ## What the series lose -/

/-- The counts by date add up to all deployments, the dates follow each other, and a completed
deployment is averaged under its own date and no other. -/
structure LosesNothing (zone : Zone) (ds : List Deployment) (start stop : Nat) : Prop where
  total : ((groupByDay zone ds start stop).map (·.total)).sum = ds.length
  consecutive : ((groupByDay zone ds start stop).map (·.date)).IsChain fun a b => b = a + 1
  once : ∀ d ∈ completed ds,
    ((computeBuildTimeTrend zone ds start stop).map (·.date)).count (d.startedAt / dayMs) = 1
  averages : ∀ e ∈ computeBuildTimeTrend zone ds start stop,
    e.avgDuration = avgBuildTime (startedOn e.date ds)

/-- No step in the range is so long that it goes over a date, and there is a step to the date of the
last deployment. -/
structure Covers (zone : Zone) (ds : List Deployment) (start stop : Nat) : Prop where
  steps : ∀ n, zone.instant start (n + 1) ≤ stop →
    zone.instant start (n + 1) = zone.instant start n + 25 * hourMs →
      zone.instant start n % dayMs < 23 * hourMs
  reaches : ∀ d ∈ ds, ∃ n, zone.instant start n ≤ stop ∧
    d.startedAt / dayMs ≤ zone.instant start n / dayMs

theorem Zone.date_mono {m n : Nat} (h : m ≤ n) :
    zone.instant start m / dayMs ≤ zone.instant start n / dayMs :=
  Nat.div_le_div_right (zone.instant_mono h)

/-- A step goes over a date exactly if it takes 25 hours and starts in the last hour of a date. -/
theorem Zone.date_succ_le_iff (n : Nat) :
    zone.instant start (n + 1) / dayMs ≤ zone.instant start n / dayMs + 1 ↔
      (zone.instant start (n + 1) = zone.instant start n + 25 * hourMs →
        zone.instant start n % dayMs < 23 * hourMs) := by
  have hstep := zone.hours (zone.instant start n)
  rw [← instant_succ] at hstep
  generalize zone.instant start (n + 1) = t' at *
  generalize zone.instant start n = t at *
  rw [show dayMs = 86400000 from rfl, show hourMs = 3600000 from rfl] at *
  omega

/-- Where no step goes over a date, every date between two that are reached is reached. -/
theorem exists_date (hsteps : ∀ n, zone.instant start (n + 1) ≤ stop →
      zone.instant start (n + 1) / dayMs ≤ zone.instant start n / dayMs + 1)
    {m n k : Nat} (hmn : m ≤ n) (hn : zone.instant start n ≤ stop)
    (hm : zone.instant start m / dayMs ≤ k) (hk : k ≤ zone.instant start n / dayMs) :
    ∃ i, zone.instant start i ≤ stop ∧ zone.instant start i / dayMs = k := by
  induction n, hmn using Nat.le_induction with
  | base => exact ⟨m, hn, le_antisymm hm hk⟩
  | succ n _ ih =>
    by_cases hlt : k ≤ zone.instant start n / dayMs
    · exact ih ((zone.instant_mono (Nat.le_succ n)).trans hn) hlt
    · have := hsteps n hn
      exact ⟨n + 1, hn, by omega⟩

/-- The dates follow each other if and only if no step goes over one. -/
theorem isChain_dates_iff : (dates zone start stop).IsChain (fun a b => b = a + 1) ↔
    ∀ n, zone.instant start (n + 1) ≤ stop →
      zone.instant start (n + 1) / dayMs ≤ zone.instant start n / dayMs + 1 := by
  rw [isChain_succ_iff (pairwise_dates zone start stop)]
  constructor
  · intro hgaps n hn
    by_contra hover
    have hmem := hgaps _ (mem_dates_iff.mpr ⟨n, (zone.instant_mono (Nat.le_succ n)).trans hn, rfl⟩)
      _ (mem_dates_iff.mpr ⟨n + 1, hn, rfl⟩) (zone.instant start n / dayMs + 1) (by omega)
      (by omega)
    obtain ⟨i, _, hi⟩ := mem_dates_iff.mp hmem
    rcases Nat.lt_or_ge n i with h | h
    · have hle : zone.instant start (n + 1) / dayMs ≤ zone.instant start i / dayMs :=
        zone.date_mono h
      omega
    · have hle : zone.instant start i / dayMs ≤ zone.instant start n / dayMs := zone.date_mono h
      omega
  · intro hsteps a ha b hb k hak hkb
    obtain ⟨i, _, rfl⟩ := mem_dates_iff.mp ha
    obtain ⟨j, hj, rfl⟩ := mem_dates_iff.mp hb
    rcases Nat.lt_or_ge i j with h | h
    · exact mem_dates_iff.mpr (exists_date hsteps h.le hj hak.le hkb.le)
    · have hle : zone.instant start j / dayMs ≤ zone.instant start i / dayMs := zone.date_mono h
      omega

/-- The counts add up to all deployments if and only if there is a count for each of them. -/
theorem sum_total_eq_iff :
    ((groupByDay zone ds start stop).map (·.total)).sum = ds.length ↔
      ∀ d ∈ ds, d.startedAt / dayMs ∈ dates zone start stop := by
  have hsum := sum_length_filter (fun d : Deployment => d.startedAt / dayMs) ds
    (pairwise_dates zone start stop).nodup
  rw [groupByDay_eq, List.map_map]
  refine (Eq.congr_left hsum).trans ?_
  rw [List.length_filter_eq_length_iff]
  simp only [decide_eq_true_eq]

/-- The series of a range lose nothing if and only if the loop goes over no date and gets as far as
the deployments do. -/
theorem losesNothing_iff (h : ∀ d ∈ ds, start ≤ d.startedAt) :
    LosesNothing zone ds start stop ↔ Covers zone ds start stop := by
  have hdates : (groupByDay zone ds start stop).map (·.date) = dates zone start stop := by
    rw [groupByDay_eq, List.map_map]
    exact List.map_id _
  have htrend : (computeBuildTimeTrend zone ds start stop).map (·.date) =
      dates zone start stop := by
    rw [computeBuildTimeTrend_eq, List.map_map]
    exact List.map_id _
  have hnodup : (dates zone start stop).Nodup :=
    (pairwise_dates zone start stop).nodup
  constructor
  · intro hl
    have hconsecutive := hdates ▸ hl.consecutive
    refine ⟨fun n hn => (zone.date_succ_le_iff n).mp (isChain_dates_iff.mp hconsecutive n hn),
      fun d hd => ?_⟩
    obtain ⟨n, hn, hday⟩ := mem_dates_iff.mp (sum_total_eq_iff.mp hl.total d hd)
    exact ⟨n, hn, hday.ge⟩
  · intro hc
    have hsteps : ∀ n, zone.instant start (n + 1) ≤ stop →
        zone.instant start (n + 1) / dayMs ≤ zone.instant start n / dayMs + 1 :=
      fun n hn => (zone.date_succ_le_iff n).mpr (hc.steps n hn)
    have hmem : ∀ d ∈ ds, d.startedAt / dayMs ∈ dates zone start stop := by
      intro d hd
      obtain ⟨n, hn, hday⟩ := hc.reaches d hd
      exact mem_dates_iff.mpr (exists_date hsteps (Nat.zero_le n) hn
        (Nat.div_le_div_right (h d hd)) hday)
    refine ⟨sum_total_eq_iff.mpr hmem, ?_, fun d hd => ?_, fun e he => ?_⟩
    · rw [hdates]
      exact isChain_dates_iff.mpr hsteps
    · rw [htrend]
      exact List.count_eq_one_of_mem hnodup (hmem d (List.mem_filter.mp hd).1)
    · rw [computeBuildTimeTrend_eq] at he
      obtain ⟨date, _, rfl⟩ := List.mem_map.mp he
      rfl

/-- Where every day has 24 hours, the loop reaches the end of a range of whole days. -/
theorem covers_of_even (heven : ∀ t, zone.nextDay t = t + 24 * hourMs) {k : Nat}
    (hstop : stop = start + k * dayMs) (h : ∀ d ∈ ds, d.startedAt ≤ stop) :
    Covers zone ds start stop where
  steps n _ hlong := by
    rw [Zone.instant_succ, heven] at hlong
    exact absurd hlong (by rw [show hourMs = 3600000 from rfl]; omega)
  reaches d hd := by
    have hinstant : ∀ n, zone.instant start n = start + n * dayMs := by
      intro n
      induction n with
      | zero => exact (Nat.add_zero start).symm.trans (by rw [Nat.zero_mul])
      | succ n ih =>
        have hday : dayMs = 24 * hourMs := by decide
        rw [Zone.instant_succ, heven, ih, hday, Nat.add_assoc, ← Nat.succ_mul]
    refine ⟨k, (hinstant k).trans_le hstop.ge, ?_⟩
    rw [hinstant, ← hstop]
    exact Nat.div_le_div_right (h d hd)

def startingAt (t : Nat) : Deployment where
  id := 1
  isSuccess := true
  commitHash := "0123456789abcdef0123456789abcdef01234567"
  commitMessage := "first"
  commitAuthor := "ada"
  branch := "main"
  startedAt := t
  duration := some 60
  projectId := 1
  initiatorId := some 1

/-- On a clock of UTC, the last thirty days up to a deployment. -/
theorem losesNothing_utc :
    LosesNothing Zone.utc [startingAt (30 * dayMs)] 0 (30 * dayMs) :=
  (losesNothing_iff (by decide)).mpr
    (covers_of_even (fun _ => rfl) (Nat.zero_add _).symm (by decide))

/-- Clocks go back by an hour at a time, and the local day before it has 25 hours. -/
def Zone.backAt (change : Nat) : Zone where
  nextDay t := if t < change ∧ change ≤ t + 24 * hourMs then t + 25 * hourMs else t + 24 * hourMs
  hours t := by
    split
    · exact Or.inr (Or.inr rfl)
    · exact Or.inr (Or.inl rfl)

/-- Clocks went back during the thirty days: the last date the loop reaches is yesterday's, and
what started today is not counted. -/
theorem not_losesNothing : ¬∀ (zone : Zone) (ds : List Deployment) (now : Nat),
    (∀ d ∈ ds, now - 30 * dayMs ≤ d.startedAt ∧ d.startedAt ≤ now) →
      LosesNothing zone ds (now - 30 * dayMs) now := by
  intro h
  have htotal := (h (Zone.backAt (12 * hourMs)) [startingAt (30 * dayMs)] (30 * dayMs)
    (by decide)).total
  exact absurd htotal (by decide +kernel)

end AnalyticsService
end Api
end Code2Cloud
