import Mathlib.Data.List.Basic
import Mathlib.Data.List.Induction
import Mathlib.Data.List.Infix

/-!
# Lists with two ends

The list commands of a Redis server, and the order in which a list hands its
elements out.  Elements pushed on one end and popped from the other come out in the
order they went in.  Elements pushed and popped on the same end do so only if no
pop ever finds a second element waiting.
-/

namespace Code2Cloud
namespace Deque

variable {α : Type*}

def rpush (xs : List α) (x : α) : List α := xs ++ [x]

def lpush (xs : List α) (x : α) : List α := x :: xs

def rpop (xs : List α) : Option (α × List α) :=
  match xs.getLast? with
  | none => none
  | some x => some (x, xs.dropLast)

@[simp] theorem rpop_nil : rpop ([] : List α) = none := rfl

@[simp] theorem rpop_concat (xs : List α) (x : α) : rpop (xs ++ [x]) = some (x, xs) := by
  simp [rpop]

theorem rpop_eq_some_iff {xs rest : List α} {x : α} :
    rpop xs = some (x, rest) ↔ xs = rest ++ [x] := by
  rcases List.eq_nil_or_concat xs with rfl | ⟨ys, y, rfl⟩
  · simp [rpop]
  · rw [List.concat_eq_append, rpop_concat]
    constructor
    · intro h
      obtain ⟨rfl, rfl⟩ := Prod.mk.inj (Option.some.inj h)
      rfl
    · intro h
      obtain ⟨hys, hy⟩ := List.append_inj' h rfl
      rw [hys, List.singleton_inj.mp hy]

theorem rpop_eq_none_iff {xs : List α} : rpop xs = none ↔ xs = [] := by
  rcases List.eq_nil_or_concat xs with rfl | ⟨ys, y, rfl⟩
  · simp
  · rw [List.concat_eq_append, rpop_concat]
    simp

/-! ## Histories -/

inductive Op (α : Type*)
  | push (x : α)
  | pop

/-- A list with what went in and what came out so far.  Elements carry the number of
pushes before theirs, so that equal ones can be told apart. -/
structure History (α : Type*) where
  waiting : List (Nat × α)
  enqueued : List (Nat × α)
  handed : List (Nat × α)

namespace History

def empty : History α := { waiting := [], enqueued := [], handed := [] }

/-- One command; a pop of an empty list returns nothing. -/
def step (push : List (Nat × α) → Nat × α → List (Nat × α)) (h : History α) :
    Op α → History α
  | .push x =>
    let e := (h.enqueued.length, x)
    { h with waiting := push h.waiting e, enqueued := h.enqueued ++ [e] }
  | .pop =>
    match rpop h.waiting with
    | none => h
    | some (e, rest) => { h with waiting := rest, handed := h.handed ++ [e] }

def run (push : List (Nat × α) → Nat × α → List (Nat × α)) (ops : List (Op α)) : History α :=
  ops.foldl (step push) empty

variable {push : List (Nat × α) → Nat × α → List (Nat × α)}

theorem run_concat (ops : List (Op α)) (op : Op α) :
    run push (ops ++ [op]) = step push (run push ops) op := by
  rw [run, List.foldl_append, List.foldl_cons, List.foldl_nil, run]

variable (push) in
/-- The numbers of the pushed elements count up. -/
theorem enqueued_numbers (ops : List (Op α)) :
    (run push ops).enqueued.map Prod.fst = List.range (run push ops).enqueued.length := by
  induction ops using List.reverseRecOn with
  | nil => rfl
  | append_singleton ops op ih =>
    rw [run_concat]
    cases op with
    | push x => simp [step, ih, List.range_succ]
    | pop =>
      rw [step]
      cases rpop (run push ops).waiting with
      | none => exact ih
      | some er => exact ih

theorem handed_prefix_step (h : History α) (op : Op α) : h.handed <+: (step push h op).handed := by
  cases op with
  | push x => exact List.prefix_refl _
  | pop =>
    rw [step]
    cases rpop h.waiting with
    | none => exact List.prefix_refl _
    | some er => exact List.prefix_append _ _

theorem enqueued_prefix_step (h : History α) (op : Op α) :
    h.enqueued <+: (step push h op).enqueued := by
  cases op with
  | push x => exact List.prefix_append _ _
  | pop =>
    rw [step]
    cases rpop h.waiting with
    | none => exact List.prefix_refl _
    | some er => exact List.prefix_refl _

end History

/-! ## Opposite ends -/

open History

/-- Pushed at the head and popped from the tail: what went in is what came out, then
what waits, oldest last. -/
theorem enqueued_lpush (ops : List (Op α)) :
    (run lpush ops).enqueued = (run lpush ops).handed ++ (run lpush ops).waiting.reverse := by
  induction ops using List.reverseRecOn with
  | nil => rfl
  | append_singleton ops op ih =>
    rw [run_concat]
    cases op with
    | push x => simp [step, lpush, ih]
    | pop =>
      rw [step]
      cases hpop : rpop (run lpush ops).waiting with
      | none => exact ih
      | some er =>
        rw [rpop_eq_some_iff.mp hpop] at ih
        simpa using ih

theorem lpush_handed_prefix (ops : List (Op α)) :
    (run lpush ops).handed <+: (run lpush ops).enqueued :=
  ⟨_, (enqueued_lpush ops).symm⟩

/-! ## The same end -/

def backlog (ops : List (Op α)) : Nat :=
  ops.foldl (fun n op => match op with | .push _ => n + 1 | .pop => n - 1) 0

/-- No pop finds a second element waiting. -/
def Prompt (ops : List (Op α)) : Prop :=
  ∀ earlier later, ops = earlier ++ .pop :: later → backlog earlier ≤ 1

theorem backlog_concat (ops : List (Op α)) (op : Op α) :
    backlog (ops ++ [op]) =
      match op with | .push _ => backlog ops + 1 | .pop => backlog ops - 1 := by
  rw [backlog, List.foldl_append, List.foldl_cons, List.foldl_nil, ← backlog]

theorem length_waiting_rpush (ops : List (Op α)) :
    (run rpush ops).waiting.length = backlog ops := by
  induction ops using List.reverseRecOn with
  | nil => rfl
  | append_singleton ops op ih =>
    rw [run_concat, backlog_concat]
    cases op with
    | push x => simp [step, rpush, ih]
    | pop =>
      rw [step]
      cases hpop : rpop (run rpush ops).waiting with
      | none =>
        have hnil := rpop_eq_none_iff.mp hpop
        rw [hnil] at ih
        simp [hnil, ← ih]
      | some er =>
        rw [rpop_eq_some_iff.mp hpop] at ih
        simp [← ih]

theorem length_enqueued_rpush (ops : List (Op α)) :
    (run rpush ops).enqueued.length =
      (run rpush ops).handed.length + (run rpush ops).waiting.length := by
  induction ops using List.reverseRecOn with
  | nil => rfl
  | append_singleton ops op ih =>
    rw [run_concat]
    cases op with
    | push x =>
      simp only [step, rpush, List.length_append, List.length_singleton, ih]
      omega
    | pop =>
      rw [step]
      cases hpop : rpop (run rpush ops).waiting with
      | none => exact ih
      | some er =>
        rw [rpop_eq_some_iff.mp hpop] at ih
        simp only [List.length_append, List.length_singleton] at ih ⊢
        omega

theorem prompt_concat_push {ops : List (Op α)} {x : α} :
    Prompt (ops ++ [.push x]) ↔ Prompt ops := by
  constructor
  · intro h earlier later hops
    exact h earlier (later ++ [.push x]) (by simp [hops])
  · intro h earlier later hops
    rcases List.eq_nil_or_concat later with rfl | ⟨rest, last, rfl⟩
    · have := (List.append_inj' hops rfl).2
      simp at this
    · refine h earlier rest ?_
      have hsplit : ops ++ [.push x] = (earlier ++ .pop :: rest) ++ [last] := by
        simpa using hops
      exact (List.append_inj' hsplit rfl).1

theorem prompt_concat_pop {ops : List (Op α)} :
    Prompt (ops ++ [.pop]) ↔ Prompt ops ∧ backlog ops ≤ 1 := by
  constructor
  · intro h
    exact ⟨fun earlier later hops => h earlier (later ++ [.pop]) (by simp [hops]),
      h ops [] rfl⟩
  · rintro ⟨h, hlast⟩ earlier later hops
    rcases List.eq_nil_or_concat later with rfl | ⟨rest, last, rfl⟩
    · obtain ⟨rfl, _⟩ := List.append_inj' hops rfl
      exact hlast
    · have hsplit : ops ++ [.pop] = (earlier ++ .pop :: rest) ++ [last] := by simpa using hops
      exact h earlier rest (List.append_inj' hsplit rfl).1

/-- Pushed and popped at the tail, while no pop finds two elements. -/
theorem enqueued_rpush {ops : List (Op α)} (h : Prompt ops) :
    (run rpush ops).enqueued = (run rpush ops).handed ++ (run rpush ops).waiting := by
  induction ops using List.reverseRecOn with
  | nil => rfl
  | append_singleton ops op ih =>
    rw [run_concat]
    cases op with
    | push x =>
      have := ih (prompt_concat_push.mp h)
      simp [step, rpush, this]
    | pop =>
      obtain ⟨hops, hone⟩ := prompt_concat_pop.mp h
      have hinv := ih hops
      rw [← length_waiting_rpush] at hone
      rw [step]
      cases hpop : rpop (run rpush ops).waiting with
      | none => exact hinv
      | some er =>
        have hwait := rpop_eq_some_iff.mp hpop
        have hrest : er.2 = [] := by
          rw [hwait, List.length_append] at hone
          exact List.length_eq_zero_iff.mp (by simpa using hone)
        rw [hwait, hrest] at hinv
        simp [hinv, hrest]

/-- A pop that finds two elements hands out the younger one first. -/
theorem not_prefix_of_two_waiting {ops : List (Op α)} {er : (Nat × α) × List (Nat × α)}
    (hinv : (run rpush ops).enqueued = (run rpush ops).handed ++ (run rpush ops).waiting)
    (hpop : rpop (run rpush ops).waiting = some er) (htwo : 1 < (run rpush ops).waiting.length) :
    ¬(run rpush ops).handed ++ [er.1] <+: (run rpush ops).enqueued := by
  intro hpre
  have hwait := rpop_eq_some_iff.mp hpop
  obtain ⟨first, rest, hfirst⟩ : ∃ first rest, er.2 = first :: rest := by
    rw [hwait, List.length_append, List.length_singleton] at htwo
    exact List.exists_cons_of_length_pos (by omega)
  rw [hinv, List.prefix_append_right_inj, hwait, hfirst, List.cons_append,
    List.cons_prefix_cons] at hpre
  -- the numbers of the pushed elements differ, those of `first` and `er.1` included
  have hnodup := (congrArg List.Nodup (enqueued_numbers rpush ops)).mpr
    List.nodup_range
  rw [hinv, hwait, hfirst, hpre.1, List.map_append] at hnodup
  have := (List.nodup_append.mp hnodup).2.1
  simp at this

/-- Pushed and popped at the same end, the list hands its elements out in order
exactly when no pop finds a second one waiting. -/
theorem rpush_handed_prefix_iff (ops : List (Op α)) :
    (run rpush ops).handed <+: (run rpush ops).enqueued ↔ Prompt ops := by
  constructor
  · induction ops using List.reverseRecOn with
    | nil =>
      intro _ earlier later h
      simp at h
    | append_singleton ops op ih =>
      intro hpre
      have hshort : (run rpush ops).handed <+: (run rpush ops).enqueued := by
        rw [run_concat] at hpre
        have hlen := length_enqueued_rpush ops
        exact List.prefix_of_prefix_length_le
          ((handed_prefix_step _ op).trans hpre)
          (enqueued_prefix_step _ op) (by omega)
      have hops := ih hshort
      cases op with
      | push x => exact prompt_concat_push.mpr hops
      | pop =>
        refine prompt_concat_pop.mpr ⟨hops, ?_⟩
        by_contra hmany
        rw [← length_waiting_rpush] at hmany
        have hinv := enqueued_rpush hops
        cases hpop : rpop (run rpush ops).waiting with
        | none =>
          simp [rpop_eq_none_iff.mp hpop] at hmany
        | some er =>
          refine not_prefix_of_two_waiting hinv hpop (by omega) ?_
          rw [run_concat, step, hpop] at hpre
          exact hpre
  · intro h
    exact ⟨_, (enqueued_rpush h).symm⟩

end Deque
end Code2Cloud
