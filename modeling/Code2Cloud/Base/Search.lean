import Mathlib.Data.List.Infix

/-!
# The first occurrence of a pattern

Where a pattern occurs first in a list, and how that place depends on what stands before and
behind it.
-/

namespace Code2Cloud
namespace Search

variable {α : Type*} [DecidableEq α]

def indexOf (pattern : List α) : List α → Option Nat
  | [] => if pattern = [] then some 0 else none
  | c :: s => if pattern <+: c :: s then some 0 else (indexOf pattern s).map (· + 1)

variable {pattern s : List α} {n : Nat}

theorem indexOf_of_begins (h : pattern <+: s) : indexOf pattern s = some 0 := by
  cases s with
  | nil => rw [indexOf, if_pos (List.prefix_nil.mp h)]
  | cons c s => rw [indexOf, if_pos h]

theorem indexOf_cons_of_not_begins {c : α} (h : ¬pattern <+: c :: s) :
    indexOf pattern (c :: s) = (indexOf pattern s).map (· + 1) := by
  rw [indexOf, if_neg h]

/-- The pattern stands at its index, and at no place before. -/
theorem indexOf_eq_some_iff :
    indexOf pattern s = some n ↔
      n ≤ s.length ∧ pattern <+: s.drop n ∧ ∀ m < n, ¬pattern <+: s.drop m := by
  induction s generalizing n with
  | nil =>
    rw [indexOf, List.length_nil, Nat.le_zero]
    by_cases hpattern : pattern = []
    · rw [if_pos hpattern, Option.some_inj]
      constructor
      · rintro rfl
        exact ⟨rfl, hpattern ▸ List.nil_prefix, fun m hm => absurd hm (Nat.not_lt_zero m)⟩
      · exact fun h => h.1.symm
    · rw [if_neg hpattern]
      refine iff_of_false (Option.some_ne_none n).symm fun h => hpattern ?_
      rw [List.drop_nil] at h
      exact List.prefix_nil.mp h.2.1
  | cons c s ih =>
    by_cases hbegins : pattern <+: c :: s
    · rw [indexOf_of_begins hbegins, Option.some_inj]
      constructor
      · rintro rfl
        exact ⟨Nat.zero_le _, hbegins, fun m hm => absurd hm (Nat.not_lt_zero m)⟩
      · intro h
        by_contra hne
        exact h.2.2 0 (Nat.pos_of_ne_zero (Ne.symm hne)) hbegins
    · rw [indexOf_cons_of_not_begins hbegins, Option.map_eq_some_iff]
      constructor
      · rintro ⟨m, hm, rfl⟩
        obtain ⟨hlength, hat, hbefore⟩ := ih.mp hm
        refine ⟨Nat.succ_le_succ hlength, hat, fun k hk => ?_⟩
        cases k with
        | zero => exact hbegins
        | succ k => exact hbefore k (Nat.lt_of_succ_lt_succ hk)
      · rintro ⟨hlength, hat, hbefore⟩
        cases n with
        | zero => exact absurd hat hbegins
        | succ n =>
          exact ⟨n, ih.mpr ⟨Nat.le_of_succ_le_succ hlength, hat,
            fun m hm => hbefore (m + 1) (Nat.succ_lt_succ hm)⟩, rfl⟩

theorem indexOf_append {c : α} {before : List α} (hbefore : c ∉ before) (rest pattern : List α) :
    indexOf (c :: pattern) (before ++ (c :: pattern ++ rest)) = some before.length := by
  induction before with
  | nil => exact indexOf_of_begins (List.prefix_append _ _)
  | cons d before ih =>
    rw [List.mem_cons, not_or] at hbefore
    have hnot : ¬c :: pattern <+: d :: (before ++ (c :: pattern ++ rest)) := fun h =>
      hbefore.1 (List.cons_prefix_cons.mp h).1
    rw [List.cons_append, indexOf_cons_of_not_begins hnot, ih hbefore.2]
    rfl

theorem indexOf_append_congr {before rest : List α} (rest' : List α)
    (h : indexOf pattern (before ++ (pattern ++ rest)) = some before.length) :
    indexOf pattern (before ++ (pattern ++ rest')) = some before.length := by
  have hdrop (m : Nat) (hm : m ≤ before.length) (behind : List α) :
      pattern <+: (before ++ (pattern ++ behind)).drop m ↔
        pattern <+: (before ++ pattern).drop m := by
    rw [← List.append_assoc, List.drop_append_of_le_length (by simp; omega)]
    exact List.isPrefix_append_of_length (by simp; omega)
  obtain ⟨_, hat, hbefore⟩ := indexOf_eq_some_iff.mp h
  refine indexOf_eq_some_iff.mpr ⟨by simp, ?_, fun m hm => ?_⟩
  · rw [hdrop _ le_rfl] at hat ⊢
    exact hat
  · rw [hdrop m hm.le, ← hdrop m hm.le rest]
    exact hbefore m hm

/-- What stands before the pattern, and behind it. -/
theorem exists_of_indexOf (h : indexOf pattern s = some n) :
    ∃ rest, s = s.take n ++ (pattern ++ rest) ∧ (s.take n).length = n := by
  obtain ⟨hlength, ⟨rest, hrest⟩, _⟩ := indexOf_eq_some_iff.mp h
  exact ⟨rest, by rw [hrest, List.take_append_drop], List.length_take_of_le hlength⟩

theorem indexOf_singleton_eq_none_iff {c : α} : indexOf [c] s = none ↔ c ∉ s := by
  induction s with
  | nil => exact iff_of_true rfl List.not_mem_nil
  | cons d s ih =>
    by_cases hd : c = d
    · rw [indexOf_of_begins (List.cons_prefix_cons.mpr ⟨hd, List.nil_prefix⟩)]
      exact iff_of_false (Option.some_ne_none 0) fun h => h (hd ▸ List.mem_cons_self)
    · rw [indexOf_cons_of_not_begins fun h => hd (List.cons_prefix_cons.mp h).1,
        Option.map_eq_none_iff, ih, List.mem_cons, not_or, and_iff_right hd]

end Search
end Code2Cloud
