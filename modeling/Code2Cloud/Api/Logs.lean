import Code2Cloud.Api.Schema
import Code2Cloud.Base.Reach

/-!
# Logs

The batches of log lines the worker saves, the table they are stored in, and the pages
that a client polls with a timestamp as its cursor.
-/

namespace Code2Cloud
namespace Api
namespace Logs

/-! ## Saving -/

inductive LogSource
  | build | runtime | system
  deriving DecidableEq

structure SaveLogEntry where
  source : LogSource
  message : String
  timestamp : Option Nat
  deriving DecidableEq

def isSpace (c : Char) : Bool :=
  let n := c.toNat
  (0x09 ≤ n && n ≤ 0x0d) || (0x2000 ≤ n && n ≤ 0x200a) ||
    [0x20, 0x85, 0xa0, 0x1680, 0x2028, 0x2029, 0x202f, 0x205f, 0x3000].contains n

/-- `strings.TrimSpace(msg) == ""` -/
def isBlank (msg : String) : Bool := msg.toList.all isSpace

/-- `Format(time.RFC3339)`, in milliseconds: the fraction of the second is dropped. -/
def stampOf (now : Nat) : Nat := now / 1000 * 1000

/-- The request of `Client.SaveLogsRaw`: every line gets the same timestamp. -/
def saveLogsRaw (now : Nat) (source : LogSource) (messages : List String) : List SaveLogEntry :=
  (messages.filter fun msg => !isBlank msg).map fun message =>
    { source, message, timestamp := some (stampOf now) }

structure LogEntry where
  id : Nat
  deploymentId : DeploymentId
  source : LogSource
  timestamp : Nat
  message : String
  deriving DecidableEq

/-- `InternalService.createLogs`: the rows it inserts. -/
def createLogs (now nextId : Nat) (deploymentId : DeploymentId) (logs : List SaveLogEntry) :
    List LogEntry :=
  logs.mapIdx fun i log =>
    { id := nextId + i, deploymentId, source := log.source, message := log.message
      timestamp := log.timestamp.getD now }

/-! ## Polling -/

/-- What a client follows: a deployment, and one source or all of them. -/
structure Viewer where
  deploymentId : DeploymentId
  source : Option LogSource
  deriving DecidableEq

def Viewer.follows (v : Viewer) (x : LogEntry) : Bool :=
  x.deploymentId == v.deploymentId && v.source.all fun source => x.source == source

/-- `timestamp: { gt: after }` -/
def later (after : Option Nat) (x : LogEntry) : Bool := after.all fun time => time < x.timestamp

/-- `Math.min(options.limit || 200, 500)` -/
def takeOf (limit : Nat) : Nat := min (if limit = 0 then 200 else limit) 500

structure LogsPage where
  logs : List LogEntry
  nextCursor : Option Nat
  hasMore : Bool
  status : DeploymentStatus
  isLive : Bool

/-- An answer of the database to the query of `getLogs` without its limit: the rows it asks for
by time; rows with one timestamp come in any order. -/
def Answers (v : Viewer) (after : Option Nat) (rows order : List LogEntry) : Prop :=
  order.Perm (rows.filter fun x => v.follows x && later after x) ∧
    order.Pairwise fun x y => x.timestamp ≤ y.timestamp

instance (v : Viewer) (after : Option Nat) (rows order : List LogEntry) :
    Decidable (Answers v after rows order) := instDecidableAnd

/-- `DeploymentsService.getLogs` for an owned deployment. -/
def getLogs (deployment : Deployment) (limit : Nat) (order : List LogEntry) : LogsPage :=
  let logs := order.take (takeOf limit)
  { logs
    nextCursor := logs.getLast?.map (·.timestamp)
    hasMore := logs.length == takeOf limit
    status := deployment.status
    isLive := deployment.status.inProgress }

/-! ## Runs -/

/-- A request of the worker that is on its way. -/
structure SaveLogs where
  deploymentId : DeploymentId
  logs : List SaveLogEntry
  deriving DecidableEq

structure State where
  now : Nat
  inFlight : List SaveLogs
  rows : List LogEntry
  nextId : Nat
  /-- The client's `after`: the last `nextCursor` that was not null. -/
  cursor : Option Nat
  /-- The pages the client got, one after the other. -/
  seen : List LogEntry

inductive Event
  | tick (milliseconds : Nat)
  /-- The worker saves a batch. -/
  | save (deploymentId : DeploymentId) (source : LogSource) (messages : List String)
  /-- A batch reaches the API; without its deployment it is refused. -/
  | arrive (i : Nat) (found : Bool)
  /-- The client polls; without an owned deployment it gets an error. -/
  | poll (deployment : Option Deployment) (limit : Nat) (order : List LogEntry)

def State.initial : State where
  now := 0
  inFlight := []
  rows := []
  nextId := 0
  cursor := none
  seen := []

variable (v : Viewer)

def step (s : State) : Event → Option State
  | .tick milliseconds => some { s with now := s.now + milliseconds }
  | .save deploymentId source messages =>
    some { s with
      inFlight := s.inFlight ++ [{ deploymentId, logs := saveLogsRaw s.now source messages }] }
  | .arrive i found =>
    (s.inFlight[i]?).map fun batch =>
      if found then
        { s with
          inFlight := s.inFlight.eraseIdx i
          rows := s.rows ++ createLogs s.now s.nextId batch.deploymentId batch.logs
          nextId := s.nextId + batch.logs.length }
      else { s with inFlight := s.inFlight.eraseIdx i }
  | .poll none _ _ => some s
  | .poll (some deployment) limit order =>
    if Answers v s.cursor s.rows order then
      let page := getLogs deployment limit order
      some { s with
        seen := s.seen ++ page.logs
        cursor := page.nextCursor <|> s.cursor }
    else none

/-- The condition on a step: a batch that arrives is later than the client's cursor, and a page
does not end between rows of one timestamp. -/
def Keeps (s : State) : Event → Prop
  | .arrive i true =>
    ∀ batch ∈ s.inFlight[i]?, ∀ x ∈ createLogs s.now s.nextId batch.deploymentId batch.logs,
      v.follows x = true → later s.cursor x = true
  | .poll (some _) limit order =>
    ∀ last ∈ (order.take (takeOf limit)).getLast?, ∀ x ∈ order.drop (takeOf limit),
      x.timestamp ≠ last.timestamp
  | _ => True

instance (s : State) : (e : Event) → Decidable (Keeps v s e)
  | .arrive i true =>
    inferInstanceAs (Decidable (∀ batch ∈ s.inFlight[i]?, ∀ x ∈ createLogs s.now s.nextId
      batch.deploymentId batch.logs, v.follows x = true → later s.cursor x = true))
  | .poll (some _) limit order =>
    inferInstanceAs (Decidable (∀ last ∈ (order.take (takeOf limit)).getLast?,
      ∀ x ∈ order.drop (takeOf limit), x.timestamp ≠ last.timestamp))
  | .tick _ | .save _ _ _ | .arrive _ false | .poll none _ _ => isTrue trivial

/-! ## What a client has seen -/

/-- The stored rows the client follows. -/
def State.stored (s : State) : List LogEntry := s.rows.filter fun x => v.follows x

/-- The stored rows that are not later than the cursor: no poll will return them again. -/
def State.past (s : State) : List LogEntry :=
  (s.stored v).filter fun x => !later s.cursor x

/-- The client has seen rows up to its cursor, each at most once. -/
def State.Sees (s : State) : Prop := ∃ lost, (s.seen ++ lost).Perm (s.past v)

variable {v} {s s' : State}

theorem perm_iff_of_sees {lost : List LogEntry} (h : (s.seen ++ lost).Perm (s.past v)) :
    s.seen.Perm (s.past v) ↔ lost = [] := by
  constructor
  · intro hseen
    have hlength := h.length_eq
    rw [List.length_append, ← hseen.length_eq] at hlength
    exact List.eq_nil_of_length_eq_zero (by omega)
  · rintro rfl
    rwa [List.append_nil] at h

/-- Going on with more rows behind the cursor loses them, and nothing else. -/
theorem sees_of_past {seen lost past more : List LogEntry} {t : State}
    (h : (s.seen ++ lost).Perm (s.past v)) (hpast : s.past v = past)
    (hseen : t.seen = s.seen ++ seen) (ht : (t.past v).Perm (past ++ (seen ++ more))) :
    t.Sees v ∧ (t.seen.Perm (t.past v) ↔ s.seen.Perm (s.past v) ∧ more = []) := by
  have hall : (t.seen ++ (lost ++ more)).Perm (t.past v) := by
    rw [hpast] at h
    have hswap : (t.seen ++ (lost ++ more)).Perm ((s.seen ++ lost) ++ (seen ++ more)) := by
      rw [hseen]
      simp only [List.append_assoc]
      refine List.Perm.append_left _ ?_
      rw [← List.append_assoc, ← List.append_assoc]
      exact List.perm_append_comm.append_right _
    exact hswap.trans ((h.append_right _).trans ht.symm)
  refine ⟨⟨_, hall⟩, ?_⟩
  rw [perm_iff_of_sees hall, perm_iff_of_sees h, List.append_eq_nil_iff]

/-- Moving the cursor forward leaves behind what was behind it and what it passes. -/
theorem perm_filter_later {rows order : List LogEntry} {a b : Option Nat}
    (h : ∀ x, later b x = true → later a x = true)
    (horder : order.Perm (rows.filter fun x => later a x)) :
    (rows.filter fun x => !later b x).Perm
      ((rows.filter fun x => !later a x) ++ order.filter fun x => !later b x) := by
  have hsplit := List.filter_append_perm (fun x => !later a x) (rows.filter fun x => !later b x)
  rw [List.filter_filter, List.filter_filter] at hsplit
  have hbehind : (rows.filter fun x => !later a x && !later b x) =
      rows.filter fun x => !later a x := by
    refine List.filter_congr fun x _ => ?_
    by_cases hb : later b x = true
    · simp [hb, h x hb]
    · simp [hb]
  have hpassed : ((rows.filter fun x => later a x).filter fun x => !later b x) =
      rows.filter fun x => !(!later a x) && !later b x := by
    rw [List.filter_filter]
    refine List.filter_congr fun x _ => ?_
    rw [Bool.not_not, Bool.and_comm]
  have hfilter := horder.filter fun x => !later b x
  rw [hpassed] at hfilter
  rw [hbehind] at hsplit
  exact hsplit.symm.trans (hfilter.symm.append_left _)

theorem takeOf_pos (limit : Nat) : 0 < takeOf limit := by
  unfold takeOf
  split <;> omega

theorem sees_poll {deployment : Deployment} {limit : Nat} {order : List LogEntry}
    (hs : s.Sees v) (h : step v s (.poll (some deployment) limit order) = some s') :
    s'.Sees v ∧ (s'.seen.Perm (s'.past v) ↔
      s.seen.Perm (s.past v) ∧ Keeps v s (.poll (some deployment) limit order)) := by
  obtain ⟨lost, hlost⟩ := hs
  rw [step] at h
  split at h
  · rename_i hanswers
    obtain ⟨hperm, hsorted⟩ := hanswers
    rw [Option.some.injEq] at h
    have hnewer : order.Perm ((s.stored v).filter fun x => later s.cursor x) := by
      refine hperm.trans (List.Perm.of_eq ?_)
      rw [State.stored, List.filter_filter]
      exact List.filter_congr fun x _ => Bool.and_comm _ _
    have hparts : order = order.take (takeOf limit) ++ order.drop (takeOf limit) :=
      (List.take_append_drop _ _).symm
    cases hlast : (order.take (takeOf limit)).getLast? with
    | none =>
      -- an empty page: there was nothing to return, and nothing changes
      have hpage : order.take (takeOf limit) = [] := List.getLast?_eq_none_iff.mp hlast
      have horder : order = [] := by
        rcases List.take_eq_nil_iff.mp hpage with hzero | hnil
        · exact absurd hzero (Nat.pos_iff_ne_zero.mp (takeOf_pos limit))
        · exact hnil
      have hsame : s' = s := by
        rw [← h]
        simp [getLogs, horder]
      subst hsame
      refine ⟨⟨lost, hlost⟩, ?_⟩
      simp [Keeps, horder]
    | some last =>
      have hcursor : s'.cursor = some last.timestamp := by
        rw [← h]
        simp [getLogs, hlast]
      have hseen : s'.seen = s.seen ++ order.take (takeOf limit) := by
        rw [← h]
        rfl
      have hstored : s'.stored v = s.stored v := by
        rw [← h]
        rfl
      have hmem : last ∈ order := List.mem_of_mem_take (List.mem_of_getLast? hlast)
      have hforward : ∀ x, later (some last.timestamp) x = true → later s.cursor x = true := by
        have hnew := (List.mem_filter.mp (hnewer.mem_iff.mp hmem)).2
        intro x hx
        rw [later, Option.all_eq_true] at hnew ⊢
        intro time htime
        have hlt := hnew time htime
        simp only [later, Option.all_some, decide_eq_true_eq] at hx hlt ⊢
        omega
      rw [hparts, List.pairwise_append] at hsorted
      obtain ⟨hpage, _, hrest⟩ := hsorted
      have hupto : ∀ x ∈ order.take (takeOf limit), x.timestamp ≤ last.timestamp := by
        obtain ⟨before, hbefore⟩ := List.getLast?_eq_some_iff.mp hlast
        intro x hx
        rw [hbefore] at hx hpage
        rcases List.mem_append.mp hx with hx | hx
        · exact (List.pairwise_append.mp hpage).2.2 x hx last (List.mem_singleton_self last)
        · exact Nat.le_of_eq (congrArg LogEntry.timestamp (List.mem_singleton.mp hx))
      have hall : (order.take (takeOf limit)).filter (fun x => !later (some last.timestamp) x) =
          order.take (takeOf limit) := by
        refine List.filter_eq_self.mpr fun x hx => ?_
        have hle := hupto x hx
        simp only [later, Option.all_some, Bool.not_eq_true', decide_eq_false_iff_not]
        omega
      have hpast : (s'.past v).Perm (s.past v ++ (order.take (takeOf limit) ++
          (order.drop (takeOf limit)).filter fun x => !later (some last.timestamp) x)) := by
        have hmove := perm_filter_later hforward hnewer
        rw [State.past, hstored, hcursor]
        refine hmove.trans (List.Perm.of_eq ?_)
        conv_lhs => rw [hparts, List.filter_append, hall]
        rfl
      obtain ⟨hsees, hiff⟩ := sees_of_past hlost rfl hseen hpast
      refine ⟨hsees, hiff.trans (and_congr_right fun _ => ?_)⟩
      rw [List.filter_eq_nil_iff]
      have hlater : ∀ x ∈ order.drop (takeOf limit), last.timestamp ≤ x.timestamp :=
        fun x hx => hrest last (List.mem_of_getLast? hlast) x hx
      constructor
      · intro hnone y hy x hx
        rw [hlast, Option.mem_some_iff] at hy
        subst hy
        have hx' := hnone x hx
        simp only [later, Option.all_some, Bool.not_eq_true', decide_eq_false_iff_not] at hx'
        omega
      · intro hkeeps x hx
        have hne := hkeeps last hlast x hx
        have hle := hlater x hx
        simp only [later, Option.all_some, Bool.not_eq_true', decide_eq_false_iff_not]
        omega
  · cases h

theorem sees_arrive {i : Nat} (hs : s.Sees v) (h : step v s (.arrive i true) = some s') :
    s'.Sees v ∧ (s'.seen.Perm (s'.past v) ↔
      s.seen.Perm (s.past v) ∧ Keeps v s (.arrive i true)) := by
  obtain ⟨lost, hlost⟩ := hs
  rw [step, Option.map_eq_some_iff] at h
  obtain ⟨batch, hbatch, h⟩ := h
  rw [if_pos rfl] at h
  have hpast : (s'.past v).Perm
      (s.past v ++ ([] ++ ((createLogs s.now s.nextId batch.deploymentId batch.logs).filter
        fun x => v.follows x).filter fun x => !later s.cursor x)) := by
    refine List.Perm.of_eq ?_
    rw [← h]
    simp only [State.past, State.stored, List.filter_append, List.nil_append]
  have hseen : s'.seen = s.seen ++ [] := by
    rw [← h, List.append_nil]
  obtain ⟨hsees, hiff⟩ := sees_of_past hlost rfl hseen hpast
  refine ⟨hsees, hiff.trans (and_congr_right fun _ => ?_)⟩
  rw [List.filter_eq_nil_iff]
  constructor
  · intro hnone batch' hbatch' x hx hfollows
    rw [hbatch, Option.mem_some_iff] at hbatch'
    subst hbatch'
    simpa using hnone x (List.mem_filter.mpr ⟨hx, hfollows⟩)
  · intro hkeeps x hx
    obtain ⟨hx, hfollows⟩ := List.mem_filter.mp hx
    simpa using hkeeps batch hbatch x hx hfollows

/-- A step loses no row of the client if and only if it meets the condition; a row that is lost
stays lost. -/
theorem sees_step {e : Event} (hs : s.Sees v) (h : step v s e = some s') :
    s'.Sees v ∧ (s'.seen.Perm (s'.past v) ↔ s.seen.Perm (s.past v) ∧ Keeps v s e) := by
  cases e with
  | tick milliseconds =>
    cases h
    exact ⟨hs, (and_iff_left trivial).symm⟩
  | save deploymentId source messages =>
    cases h
    exact ⟨hs, (and_iff_left trivial).symm⟩
  | arrive i found =>
    cases found with
    | true => exact sees_arrive hs h
    | false =>
      rw [step, Option.map_eq_some_iff] at h
      obtain ⟨batch, _, h⟩ := h
      rw [if_neg Bool.false_ne_true] at h
      subst h
      exact ⟨hs, (and_iff_left trivial).symm⟩
  | poll deployment limit order =>
    cases deployment with
    | none =>
      cases h
      exact ⟨hs, (and_iff_left trivial).symm⟩
    | some deployment => exact sees_poll hs h

/-- A run after which a poll returns nothing: the client has seen every stored row of the
deployment and source exactly once if and only if every batch that arrived was later than the
cursor and no page ended between rows of one timestamp. -/
theorem polled_exactly_once_iff {es : List Event}
    (h : runEvents (step v) State.initial es = some s) {limit : Nat} {order : List LogEntry}
    {deployment : Deployment} (horder : Answers v s.cursor s.rows order)
    (hempty : (getLogs deployment limit order).logs = []) :
    s.seen.Perm (s.stored v) ↔ RunsUnder (step v) (Keeps v) State.initial es := by
  have hnone : order = [] := by
    rcases List.take_eq_nil_iff.mp hempty with hzero | hnil
    · exact absurd hzero (Nat.pos_iff_ne_zero.mp (takeOf_pos limit))
    · exact hnil
  have hpast : s.past v = s.stored v := by
    have hperm := horder.1
    rw [hnone, List.nil_perm, List.filter_eq_nil_iff] at hperm
    refine List.filter_eq_self.mpr fun x hx => ?_
    obtain ⟨hx, hfollows⟩ := List.mem_filter.mp hx
    simpa [hfollows] using hperm x hx
  have hinitial : State.initial.Sees v := ⟨[], List.Perm.refl _⟩
  obtain ⟨_, hiff⟩ := good_iff_runsUnder (Keeps v) (State.Sees v)
    (fun s => s.seen.Perm (s.past v)) (fun _ _ _ hs hstep => sees_step hs hstep) h hinitial
  rw [← hpast, hiff]
  exact and_iff_right (List.Perm.refl _)

/-! ## A page of one line -/

def shopDeployment : Deployment where
  id := 2
  status := .building
  commitHash := "0123456789abcdef0123456789abcdef01234567"
  commitMessage := "first"
  commitAuthor := "ada"
  branch := "main"
  startedAt := 0
  projectId := 1
  initiatorId := some 1

def shopViewer : Viewer where
  deploymentId := 2
  source := none

def shopLine (id : Nat) (message : String) : LogEntry :=
  { id, deploymentId := 2, source := .build, timestamp := 0, message }

theorem polled_exactly_once_shop :
    ∃ s, runEvents (step shopViewer) State.initial
        [.save 2 .build ["one"], .arrive 0 true, .poll (some shopDeployment) 1 [shopLine 0 "one"]] =
        some s ∧
      s.seen.Perm (s.stored shopViewer) := by
  have hrun : (runEvents (step shopViewer) State.initial
      [.save 2 .build ["one"], .arrive 0 true,
        .poll (some shopDeployment) 1 [shopLine 0 "one"]]).any (fun s =>
      decide (Answers shopViewer s.cursor s.rows [])) = true := by decide
  rw [Option.any_eq_true] at hrun
  obtain ⟨s, hs, hend⟩ := hrun
  have hempty : (getLogs shopDeployment 1 []).logs = [] := rfl
  exact ⟨s, hs, (polled_exactly_once_iff hs (of_decide_eq_true hend) hempty).mpr
    (by decide)⟩

/-- Two lines of one second and a page of one line: the second line is never returned. -/
theorem not_polled_exactly_once :
    ¬∀ (v : Viewer) (es : List Event) (s : State),
      runEvents (step v) State.initial es = some s →
        ∀ (deployment : Deployment) (limit : Nat) (order : List LogEntry),
          Answers v s.cursor s.rows order → (getLogs deployment limit order).logs = [] →
            s.seen.Perm (s.stored v) := by
  intro h
  have hrun : (runEvents (step shopViewer) State.initial
      [.save 2 .build ["one", "two"], .arrive 0 true,
        .poll (some shopDeployment) 1 [shopLine 0 "one", shopLine 1 "two"]]).any (fun s =>
      decide (Answers shopViewer s.cursor s.rows []) &&
        !decide (s.seen.Perm (s.stored shopViewer))) = true := by decide
  rw [Option.any_eq_true] at hrun
  obtain ⟨s, hs, hend⟩ := hrun
  rw [Bool.and_eq_true, decide_eq_true_eq, Bool.not_eq_true', decide_eq_false_iff_not] at hend
  exact hend.2 (h shopViewer _ s hs shopDeployment 1 [] hend.1 rfl)

end Logs
end Api
end Code2Cloud
