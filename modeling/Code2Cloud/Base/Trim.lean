import Mathlib.Data.List.DropRight
import Mathlib.Data.List.TakeWhile

/-!
# Trimming

A list without the elements of a class at its two ends.
-/

namespace Code2Cloud

variable {α : Type*} (p : α → Bool)

def trim (s : List α) : List α := (s.dropWhile p).rdropWhile p

structure Trimmed (s : List α) : Prop where
  head : ∀ c ∈ s.head?, p c = false
  last : ∀ c ∈ s.getLast?, p c = false

namespace Trim

variable {p} {s a z : List α}

theorem trim_of_trimmed (h : Trimmed p s) : trim p s = s := by
  have hhead : s.dropWhile p = s := by
    cases s with
    | nil => rfl
    | cons c s => exact List.dropWhile_cons_of_neg (by rw [h.head c rfl]; exact Bool.false_ne_true)
  rw [trim, hhead, List.rdropWhile_eq_self_iff]
  intro hne
  rw [h.last _ (List.getLast?_eq_some_getLast hne)]
  exact Bool.false_ne_true

theorem dropWhile_append_of_all (h : a.all p = true) (s : List α) :
    (a ++ s).dropWhile p = s.dropWhile p :=
  List.dropWhile_append_of_pos (List.all_eq_true.mp h)

theorem rdropWhile_append_of_all (h : z.all p = true) (s : List α) :
    (s ++ z).rdropWhile p = s.rdropWhile p := by
  rw [List.rdropWhile, List.rdropWhile, List.reverse_append, dropWhile_append_of_all]
  rwa [List.all_reverse]

theorem trim_append_right (h : z.all p = true) (s : List α) : trim p (s ++ z) = trim p s := by
  rw [trim, trim, List.dropWhile_append]
  split
  · rename_i hnil
    rw [List.isEmpty_iff.mp hnil, List.dropWhile_eq_nil_iff.mpr (List.all_eq_true.mp h)]
  · exact rdropWhile_append_of_all h _

theorem length_trim_le (s : List α) : (trim p s).length ≤ s.length :=
  (List.rdropWhile_prefix p _).length_le.trans (List.dropWhile_suffix p).length_le

theorem trimmed_trim (s : List α) : Trimmed p (trim p s) where
  head c hc := by
    obtain ⟨z, hz⟩ := List.rdropWhile_prefix p (s.dropWhile p)
    have hhead := List.head?_dropWhile_not p s
    rw [← hz, List.head?_append, ← trim, Option.mem_def.mp hc, Option.some_or] at hhead
    simpa using hhead
  last c hc := by
    have hne : trim p s ≠ [] := by
      intro hnil
      rw [hnil] at hc
      exact absurd hc (Option.not_mem_none c)
    have hlast : ¬p ((trim p s).getLast hne) = true := List.rdropWhile_last_not p _ hne
    rw [List.getLast?_eq_some_getLast hne] at hc
    cases hc
    simpa using hlast

theorem all_rtakeWhile (p : α → Bool) (s : List α) : (s.rtakeWhile p).all p = true :=
  List.all_eq_true.mpr fun _ hc => List.mem_rtakeWhile_imp hc

theorem rtakeWhile_dropWhile (h : trim p s ≠ []) :
    (s.dropWhile p).rtakeWhile p = s.rtakeWhile p := by
  have hshort : ¬((s.dropWhile p).reverse.takeWhile p).length = (s.dropWhile p).reverse.length := by
    intro hlength
    have hself := (List.takeWhile_prefix p).eq_of_length hlength
    refine h (List.rdropWhile_eq_nil_iff.mpr fun c hc => ?_)
    exact List.takeWhile_eq_self_iff.mp hself c (List.mem_reverse.mpr hc)
  conv_rhs => rw [← List.takeWhile_append_dropWhile (p := p) (l := s)]
  rw [List.rtakeWhile, List.rtakeWhile, List.reverse_append, List.takeWhile_append, if_neg hshort]

end Trim
end Code2Cloud
