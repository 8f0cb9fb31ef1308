import Code2Cloud.Api.Database
import Code2Cloud.Base.OrderedMap
import Code2Cloud.Base.Rounding
import Mathlib.Algebra.Order.Round

/-!
# Analytics

What `AnalyticsService` computes from the rows it reads: counts, averages and series by day.  Times
are milliseconds.  The days of a series are dates of UTC, and the server's own time zone says how
far apart they are looked up.
-/

namespace Code2Cloud
namespace Api
namespace AnalyticsService

def dayMs : Nat := 24 * 60 * 60 * 1000

/-- `Math.round(total / count)`, and 0 for none. -/
def roundedAverage (total count : Nat) : Nat :=
  if count = 0 then 0 else (2 * total + count) / (2 * count)

def totalDuration (ds : List Deployment) : Nat := (ds.map fun d => d.duration.getD 0).sum

/-- The deployments that count as completed: a duration, and a success. -/
def completed (ds : List Deployment) : List Deployment :=
  ds.filter fun d => d.duration.isSome && d.isSuccess

def avgBuildTime (ds : List Deployment) : Nat :=
  roundedAverage (totalDuration (completed ds)) (completed ds).length

def finished : DeploymentStatus → Bool
  | .ready | .expired | .failed => true
  | _ => false

/-- In per cent, and 100 where nothing has finished.  The quotient and its hundredfold are doubles;
`Math.round` takes the upper of two integers that are equally near. -/
def successRate (ds : List Deployment) : Nat :=
  let total := (ds.filter fun d => finished d.status).length
  let successes := (ds.filter (·.isSuccess)).length
  if total = 0 then 100
  else (round (Rounding.roundTo 53 (Rounding.roundTo 53 (successes / total) * 100))).toNat

/-- `groupBy({ by: ["status"] })`: the statuses that occur, with how often. -/
def statusDistribution (ds : List Deployment) : List (DeploymentStatus × Nat) :=
  ([.queued, .building, .deploying, .ready, .failed, .canceled, .expired, .superseded].map
    fun status => (status, (ds.filter fun d => d.status == status).length)).filter
      fun group => group.2 != 0

/-! ## Series -/

def hourMs : Nat := 60 * 60 * 1000

/-- A time zone, by the instant at which an instant's local time comes round on the next day. -/
structure Zone where
  nextDay : Nat → Nat
  hours : ∀ t, nextDay t = t + 23 * hourMs ∨ nextDay t = t + 24 * hourMs ∨
    nextDay t = t + 25 * hourMs

def Zone.utc : Zone where
  nextDay t := t + 24 * hourMs
  hours _ := Or.inr (Or.inl rfl)

/-- The instants that `current` takes until it is past the end or the fuel is used up. -/
def visits (zone : Zone) (stop : Nat) : Nat → Nat → List Nat
  | 0, _ => []
  | fuel + 1, current =>
    if current ≤ stop then current :: visits zone stop fuel (zone.nextDay current) else []

/-- `while (current <= endDate)`: the dates that are set, with fuel for steps of 23 hours. -/
def daysFrom (zone : Zone) (start stop : Nat) : List Nat :=
  (visits zone stop ((stop - start) / (23 * hourMs) + 1) start).map (· / dayMs)

def startedOn (day : Nat) (ds : List Deployment) : List Deployment :=
  ds.filter fun d => d.startedAt / dayMs = day

structure DayCount where
  date : Nat
  total : Nat
  success : Nat
  failed : Nat
  deriving DecidableEq

def DayCount.empty (date : Nat) : DayCount := { date, total := 0, success := 0, failed := 0 }

def DayCount.count (d : Deployment) (entry : DayCount) : DayCount :=
  { entry with
    total := entry.total + 1
    success := if d.isSuccess then entry.success + 1 else entry.success
    failed := if d.status = .failed then entry.failed + 1 else entry.failed }

def groupByDay (zone : Zone) (ds : List Deployment) (start stop : Nat) : List DayCount :=
  let dayMap := OrderedMap.layOut DayCount.empty (daysFrom zone start stop)
  let dayMap := ds.foldl (fun m d => OrderedMap.alter m (d.startedAt / dayMs) (.count d)) dayMap
  (dayMap.map (·.2)).insertionSort fun a b => a.date ≤ b.date

structure DayAverage where
  date : Nat
  avgDuration : Nat
  deriving DecidableEq

structure DayDurations extends DayAverage where
  count : Nat
  totalDuration : Nat

def DayDurations.empty (date : Nat) : DayDurations :=
  { date, avgDuration := 0, count := 0, totalDuration := 0 }

def DayDurations.add (d : Deployment) (entry : DayDurations) : DayDurations :=
  { entry with
    count := entry.count + 1
    totalDuration := entry.totalDuration + d.duration.getD 0
    avgDuration :=
      roundedAverage (entry.totalDuration + d.duration.getD 0) (entry.count + 1) }

def computeBuildTimeTrend (zone : Zone) (ds : List Deployment) (start stop : Nat) :
    List DayAverage :=
  let dayMap := OrderedMap.layOut DayDurations.empty (daysFrom zone start stop)
  let dayMap := (completed ds).foldl
    (fun m d => OrderedMap.alter m (d.startedAt / dayMs) (.add d)) dayMap
  (dayMap.map (·.2.toDayAverage)).insertionSort fun a b => a.date ≤ b.date

/-- `startedAt: { gte: start }`, the latest first. -/
def recentDeployments (ds : List Deployment) (start : Nat) : List Deployment :=
  (ds.filter fun d => start ≤ d.startedAt).insertionSort fun a b => b.startedAt ≤ a.startedAt

/-! ## The overview -/

/-- `groupBy({ by: ["projectId"] })`: the ten projects with the most deployments. -/
def projectDeploymentCounts (ds : List Deployment) : List (ProjectId × Nat) :=
  (((ds.map (·.projectId)).dedup.map fun id =>
    (id, (ds.filter fun d => d.projectId == id).length)).insertionSort
      fun a b => b.2 ≤ a.2).take 10

structure ProjectCount where
  projectId : ProjectId
  projectName : String
  framework : String
  count : Nat
  deriving DecidableEq

def deploymentsByProject (projects : List Project) (counts : List (ProjectId × Nat)) :
    List ProjectCount :=
  counts.map fun group =>
    match projects.find? fun p => p.id == group.1 with
    | none =>
      { projectId := group.1, projectName := "Unknown", framework := "unknown", count := group.2 }
    | some p =>
      { projectId := group.1
        projectName := p.name.val
        framework := if p.framework.isEmpty then "unknown" else p.framework
        count := group.2 }

structure Overview where
  totalDeployments : Nat
  totalProjects : Nat
  deploymentsThisWeek : Nat
  avgBuildTime : Nat
  successRate : Nat
  deploymentsOverTime : List DayCount
  statusDistribution : List (DeploymentStatus × Nat)
  deploymentsByProject : List ProjectCount
  buildTimeTrend : List DayAverage
  deriving DecidableEq

/-! ## One project -/

def buildTimes (ds : List Deployment) : List Nat :=
  ((completed ds).filterMap (·.duration)).filter fun n => 0 < n

structure Activity where
  id : DeploymentId
  status : DeploymentStatus
  startedAt : Nat
  finishedAt : Option Nat
  duration : Option Nat
  commitHash : String
  commitMessage : String
  branch : String
  deriving DecidableEq

def activityOf (d : Deployment) : Activity :=
  { id := d.id
    status := d.status
    startedAt := d.startedAt
    finishedAt := d.finishedAt
    duration := d.duration
    commitHash := d.commitHash
    commitMessage := d.commitMessage
    branch := d.branch }

structure ProjectAnalytics where
  projectId : ProjectId
  projectName : ProjectName
  framework : String
  totalDeployments : Nat
  deploymentsThisWeek : Nat
  avgBuildTime : Nat
  successRate : Nat
  fastestBuild : Nat
  slowestBuild : Nat
  statusDistribution : List (DeploymentStatus × Nat)
  deploymentsOverTime : List DayCount
  buildTimeTrend : List DayAverage
  recentActivity : List Activity
  deriving DecidableEq

end AnalyticsService
end Api
end Code2Cloud
