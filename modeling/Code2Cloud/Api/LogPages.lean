import Code2Cloud.Api.Methods

/-!
# Pages of logs

Which rows `DeploymentsController.getLogs` returns for a `limit` of any text.
-/

namespace Code2Cloud
namespace Api
namespace DeploymentsController

open Logs (LogEntry LogSource Viewer later Answers)
open Methods DeploymentsService

/-- White space and line ends, as `parseInt` skips them. -/
def isSpace (c : Char) : Bool :=
  [0x9, 0xa, 0xb, 0xc, 0xd, 0x20, 0xa0, 0x1680, 0x2028, 0x2029, 0x202f, 0x205f, 0x3000,
    0xfeff].contains c.toNat || 0x2000 ≤ c.toNat && c.toNat ≤ 0x200a

def digitsValue (ds : List Char) : Nat := ds.foldl (fun n d => n * 10 + (d.toNat - 0x30)) 0

def parseDigits (cs : List Char) : Option Nat :=
  match cs.takeWhile (·.isDigit) with
  | [] => none
  | d :: ds => some (digitsValue (d :: ds))

/-- `parseInt(text, 10)`, with `none` for `NaN`. -/
def parseInt (text : String) : Option Int :=
  match text.toList.dropWhile isSpace with
  | '-' :: cs => (parseDigits cs).map fun n => -(n : Int)
  | '+' :: cs => (parseDigits cs).map fun n => (n : Int)
  | cs => (parseDigits cs).map fun n => (n : Int)

/-- `limit ? parseInt(limit, 10) : undefined`; what is no number counts as 0 later on. -/
def limitOf (limit : Option String) : Int := (limit.bind parseInt).getD 0

/-- The query string, with the cursor as the instant it names. -/
structure LogsQuery where
  source : Option LogSource := none
  after : Option Nat := none
  limit : Option String := none

def LogsQuery.options (q : LogsQuery) : LogsOptions :=
  { source := q.source, after := q.after, limit := limitOf q.limit }

/-- At most 500 rows, in the order of time, and no row that is left out is earlier. -/
structure Front (rows matching : List LogEntry) : Prop where
  bound : rows.length ≤ 500
  sorted : rows.Pairwise fun x y => x.timestamp ≤ y.timestamp
  earliest : ∃ rest, (rows ++ rest).Perm matching ∧
    ∀ x ∈ rows, ∀ y ∈ rest, x.timestamp ≤ y.timestamp

/-- What a negative limit, which takes rows from the end, must not do: leave out rows, unless all
have one timestamp, or take more than 500. -/
def Spares (n : Nat) (rows : List LogEntry) : Prop :=
  min n rows.length ≤ 500 ∧ (rows.length ≤ n ∨ ∀ x ∈ rows, ∀ y ∈ rows, x.timestamp = y.timestamp)

theorem front_take {order matching : List LogEntry} {n : Nat} (hn : n ≤ 500)
    (hperm : order.Perm matching)
    (hsorted : order.Pairwise fun x y => x.timestamp ≤ y.timestamp) :
    Front (order.take n) matching := by
  have hsplit := List.take_append_drop n order
  rw [← hsplit, List.pairwise_append] at hsorted
  exact ⟨(List.length_take_le n order).trans hn, hsorted.1, order.drop n, by rwa [hsplit],
    hsorted.2.2⟩

theorem front_drop_iff {order matching : List LogEntry} {n : Nat} (hn : 0 < n)
    (hperm : order.Perm matching)
    (hsorted : order.Pairwise fun x y => x.timestamp ≤ y.timestamp) :
    Front (order.drop (order.length - n)) matching ↔ Spares n matching := by
  have hlength : (order.drop (order.length - n)).length = min n matching.length := by
    rw [List.length_drop, hperm.length_eq]
    omega
  have hsplit := List.take_append_drop (order.length - n) order
  rw [Spares, ← hlength]
  constructor
  · rintro ⟨hbound, _, rest, hrest, hle⟩
    refine ⟨hbound, or_iff_not_imp_left.mpr fun hall => ?_⟩
    rw [not_le, ← hperm.length_eq] at hall
    obtain ⟨t, ht⟩ := List.exists_mem_of_ne_nil (order.take (order.length - n)) (by
      rw [← List.length_pos_iff, List.length_take]
      omega)
    obtain ⟨d, hd⟩ := List.exists_mem_of_ne_nil (order.drop (order.length - n)) (by
      rw [← List.length_pos_iff, List.length_drop]
      omega)
    -- what is left out comes first, and by the property it comes last as well
    have hrest' : rest.Perm (order.take (order.length - n)) := by
      refine (List.perm_append_left_iff (order.drop (order.length - n))).mp ?_
      refine hrest.trans (hperm.symm.trans ?_)
      exact (List.Perm.of_eq hsplit.symm).trans List.perm_append_comm
    have hsame : ∀ x ∈ order.take (order.length - n), ∀ y ∈ order.drop (order.length - n),
        x.timestamp = y.timestamp := by
      intro x hx y hy
      rw [← hsplit, List.pairwise_append] at hsorted
      exact Nat.le_antisymm (hsorted.2.2 x hx y hy) (hle y hy x (hrest'.mem_iff.mpr hx))
    have hone : ∀ x ∈ matching, x.timestamp = t.timestamp := by
      intro x hx
      rw [← hperm.mem_iff, ← hsplit, List.mem_append] at hx
      rcases hx with hx | hx
      · exact (hsame x hx d hd).trans (hsame t ht d hd).symm
      · exact (hsame t ht x hx).symm
    exact fun x hx y hy => (hone x hx).trans (hone y hy).symm
  · rintro ⟨hbound, hall⟩
    have hdrop : (order.drop (order.length - n)).Pairwise fun x y => x.timestamp ≤ y.timestamp :=
      hsorted.sublist (List.drop_sublist _ _)
    rcases hall with hall | hsame
    · have hzero : order.length - n = 0 := by
        rw [hperm.length_eq]
        omega
      refine ⟨hbound, hdrop, [], ?_, fun _ _ _ h => by cases h⟩
      rw [hzero, List.drop_zero, List.append_nil]
      exact hperm
    · refine ⟨hbound, hdrop, order.take (order.length - n), ?_, fun x hx y hy => ?_⟩
      · refine List.perm_append_comm.trans ?_
        rw [hsplit]
        exact hperm
      · exact Nat.le_of_eq (hsame x (hperm.mem_iff.mp (List.mem_of_mem_drop hx)) y
          (hperm.mem_iff.mp (List.mem_of_mem_take hy)))

/-- The rows that match a query, in any order in which the database sorts them by time: a page is
the front of them unless the limit is negative, and then only where it leaves out nothing earlier
and is not too long. -/
theorem front_iff (q : LogsQuery) (id : DeploymentId) (rows order : List LogEntry)
    (horder : Answers ⟨id, q.source⟩ q.after rows order) :
    Front (takeRows (takeOf q.options) order)
        (rows.filter fun x => (Viewer.mk id q.source).follows x && later q.after x) ↔
      0 ≤ limitOf q.limit ∨ Spares (limitOf q.limit).natAbs
        (rows.filter fun x => (Viewer.mk id q.source).follows x && later q.after x) := by
  obtain ⟨hperm, hsorted⟩ := horder
  have hlimit : q.options.limit = limitOf q.limit := rfl
  by_cases hpos : 0 ≤ limitOf q.limit
  · have htake : 0 ≤ takeOf q.options ∧ (takeOf q.options).toNat ≤ 500 := by
      rw [takeOf, hlimit]
      split <;> omega
    refine iff_of_true ?_ (Or.inl hpos)
    rw [takeRows, if_pos htake.1]
    exact front_take htake.2 hperm hsorted
  · have htake : takeOf q.options = limitOf q.limit := by
      rw [takeOf, hlimit, if_neg (by omega)]
      omega
    rw [takeRows, htake, if_neg hpos, or_iff_right hpos]
    exact front_drop_iff (by omega) hperm hsorted

/-- The method's own rows are such a page. -/
theorem logRows_eq (options : LogsOptions) (id : DeploymentId) (st : Store) :
    ∃ order, Answers ⟨id, options.source⟩ options.after st.logs order ∧
      logRows id options st = takeRows (takeOf options) order := by
  let r : LogEntry → LogEntry → Prop := fun a b => a.timestamp ≤ b.timestamp
  have : Std.Total r := ⟨fun a b => le_total a.timestamp b.timestamp⟩
  have : IsTrans LogEntry r := ⟨fun _ _ _ hab hbc => le_trans hab hbc⟩
  exact ⟨_, ⟨List.perm_insertionSort r _, List.pairwise_insertionSort r _⟩, rfl⟩

theorem takeRows_natCast (limit : Nat) (options : LogsOptions) (hlimit : options.limit = limit) :
    takeOf options = Logs.takeOf limit ∧
      ∀ rows, takeRows (takeOf options) rows = rows.take (Logs.takeOf limit) := by
  have htake : takeOf options = Logs.takeOf limit := by
    rw [takeOf, Logs.takeOf, hlimit]
    by_cases hzero : limit = 0
    · subst hzero
      rfl
    · rw [if_neg hzero, if_neg (by omega)]
      omega
  refine ⟨htake, fun rows => ?_⟩
  rw [takeRows, htake, if_pos (Int.natCast_nonneg _), Int.toNat_natCast]

/-- For a limit that is not negative the method returns the page that a polling client gets. -/
theorem result_getLogs (userId : UserId) (id : DeploymentId) (options : LogsOptions) (limit : Nat)
    (hlimit : options.limit = limit) (stores : Nat → Store) :
    ∃ order, Answers ⟨id, options.source⟩ options.after (stores 1).logs order ∧
      (getLogs userId id options).result stores =
        (ownedDeployment id userId (stores 0)).map
          fun deployment => .logs (Logs.getLogs deployment limit order) := by
  obtain ⟨order, horder, hrows⟩ := logRows_eq options id (stores 1)
  obtain ⟨htake, htaken⟩ := takeRows_natCast limit options hlimit
  rw [htaken] at hrows
  refine ⟨order, horder, ?_⟩
  rw [getLogs, Resumption.read, Resumption.result]
  cases hd : ownedDeployment id userId (stores 0) with
  | error e => rfl
  | ok d =>
    simp only [Resumption.read, Resumption.result, hrows, htake, Int.natCast_inj]
    rfl

def twoLines : List LogEntry :=
  [{ id := 1, deploymentId := 2, source := .build, timestamp := 10, message := "first" },
    { id := 2, deploymentId := 2, source := .build, timestamp := 20, message := "second" }]

theorem front_two : Front (takeRows (takeOf (LogsQuery.options { limit := some "1" })) twoLines)
    (twoLines.filter fun x => (Viewer.mk 2 none).follows x && later none x) :=
  (front_iff { limit := some "1" } 2 twoLines twoLines (by decide)).mpr (Or.inl (by decide))

/-- `limit=-1` returns the last line and leaves out the first. -/
theorem not_front : ¬∀ (q : LogsQuery) (id : DeploymentId) (rows order : List LogEntry),
    Answers ⟨id, q.source⟩ q.after rows order →
      Front (takeRows (takeOf q.options) order)
        (rows.filter fun x => (Viewer.mk id q.source).follows x && later q.after x) := by
  intro h
  have hpage := h { limit := some "-1" } 2 twoLines twoLines (by decide)
  have hlast : takeRows (takeOf (LogsQuery.options { limit := some "-1" })) twoLines =
      twoLines.drop (twoLines.length - 1) := by decide
  rw [hlast] at hpage
  rcases ((front_drop_iff Nat.one_pos (.of_eq (by decide)) (by decide)).mp hpage).2 with
    hall | hsame
  · exact absurd hall (by decide)
  · exact absurd (hsame _ List.mem_cons_self _ (List.mem_cons_of_mem _ List.mem_cons_self))
      (by decide)

end DeploymentsController
end Api
end Code2Cloud
