import Code2Cloud.Base.Deque
import Mathlib.Data.List.Perm.Basic

/-!
# Lists of texts

A list that carries texts between two programs, as the list of what the second one reads in
them: texts that mean nothing to it leave no trace.
-/

namespace Code2Cloud
namespace Deque

open History

/-- A command that appends at one end, for lists of anything, and so for what is read in them. -/
structure Push where
  push : {γ : Type} → List γ → γ → List γ
  filterMap_push : ∀ {γ δ : Type} (read : γ → Option δ) (xs : List γ) (x : γ),
    (push xs x).filterMap read = (read x).elim (xs.filterMap read) (push (xs.filterMap read))
  perm_push : ∀ {γ : Type} (xs : List γ) (x : γ), (push xs x).Perm (x :: xs)

def Push.right : Push where
  push := rpush
  filterMap_push read xs x := by
    cases hx : read x <;> simp [rpush, hx]
  perm_push xs x := List.perm_append_singleton x xs

def Push.left : Push where
  push := lpush
  filterMap_push read xs x := by
    cases hx : read x <;> simp [lpush, hx]
  perm_push xs x := .refl (x :: xs)

variable {α β : Type} (p : Push)

theorem enqueued_perm (ops : List (Op α)) :
    (run p.push ops).enqueued.Perm ((run p.push ops).handed ++ (run p.push ops).waiting) := by
  induction ops using List.reverseRecOn with
  | nil => exact .refl []
  | append_singleton ops op ih =>
    rw [run_concat]
    generalize run p.push ops = h at ih ⊢
    cases op with
    | push x =>
      have hmiddle : (h.enqueued ++ [(h.enqueued.length, x)]).Perm
          (h.handed ++ (h.enqueued.length, x) :: h.waiting) :=
        (ih.append_right _).trans (by
          rw [List.append_assoc]
          exact (List.perm_append_singleton _ _).append_left _)
      exact hmiddle.trans ((p.perm_push _ _).symm.append_left _)
    | pop =>
      rw [step]
      cases hpop : rpop h.waiting with
      | none => exact ih
      | some er =>
        rw [rpop_eq_some_iff.mp hpop] at ih
        refine ih.trans ?_
        rw [List.append_assoc, List.singleton_append]
        exact (List.perm_append_singleton _ _).append_left _

/-- The values of a history are what is read in the texts of another one. -/
structure Reads (read : α → Option β) (h : History α) (k : History β) : Prop where
  waiting : k.waiting.map (·.2) = h.waiting.filterMap fun e => read e.2
  enqueued : k.enqueued.map (·.2) = h.enqueued.filterMap fun e => read e.2
  handed : k.handed.map (·.2) = h.handed.filterMap fun e => read e.2

variable {p} {read : α → Option β} {h : History α} {k : History β}

theorem map_push (xs : List (Nat × β)) (x : Nat × β) :
    (p.push xs x).map (·.2) = p.push (xs.map (·.2)) x.2 := by
  have hsome := p.filterMap_push (fun e : Nat × β => some e.2) xs x
  simpa [List.filterMap_eq_map'] using hsome

theorem reads_push (hk : Reads read h k) (x : α) :
    Reads read (step p.push h (.push x))
      ((read x).elim k fun y => step p.push k (.push y)) := by
  have hpush := p.filterMap_push (fun e : Nat × α => read e.2) h.waiting (h.enqueued.length, x)
  cases hx : read x with
  | none =>
    simp only [hx, Option.elim_none] at hpush
    exact {
      waiting := hk.waiting.trans hpush.symm
      enqueued := by simp [step, hx, hk.enqueued]
      handed := hk.handed }
  | some y =>
    simp only [hx, Option.elim_some] at hpush
    exact {
      waiting := by
        refine (map_push _ _).trans ?_
        rw [hk.waiting]
        exact hpush.symm
      enqueued := by simp [step, hx, hk.enqueued]
      handed := hk.handed }

theorem reads_pop (hk : Reads read h k) :
    Reads read (step p.push h .pop) k ∨
      Reads read (step p.push h .pop) (step p.push k .pop) := by
  cases hpop : rpop h.waiting with
  | none =>
    left
    rw [step, hpop]
    exact hk
  | some r =>
    obtain ⟨⟨n, x⟩, rest⟩ := r
    have hwaiting := hk.waiting
    rw [rpop_eq_some_iff.mp hpop, List.filterMap_append] at hwaiting
    rw [step, hpop]
    cases hx : read x with
    | none =>
      left
      simp only [List.filterMap_cons, hx, List.filterMap_nil, List.append_nil] at hwaiting
      exact { hk with waiting := hwaiting, handed := by simp [hx, hk.handed] }
    | some y =>
      right
      simp only [List.filterMap_cons, hx, List.filterMap_nil] at hwaiting
      obtain ⟨before, last, hsplit, hbefore, hlast⟩ := List.map_eq_append_iff.mp hwaiting
      obtain ⟨e, rfl, he⟩ := List.map_eq_singleton_iff.mp hlast
      have hpopped : rpop k.waiting = some (e, before) := rpop_eq_some_iff.mpr hsplit
      rw [step, hpopped]
      exact { hk with
        waiting := hbefore
        handed := by simp [hx, hk.handed, he] }

end Deque
end Code2Cloud
