import Mathlib.Data.List.Basic

/-!
# Lists of assignments

Entries that are cut at their first separator into a name and a value.  Of several entries of one
name the last one counts.
-/

namespace Code2Cloud
namespace Assignments

variable {α : Type*} [DecidableEq α] (sep : α)

/-- An entry without a separator assigns nothing. -/
def cut (entry : List α) : Option (List α × List α) :=
  if sep ∈ entry then
    some (entry.takeWhile (· ≠ sep), (entry.dropWhile (· ≠ sep)).tail)
  else none

def read (entries : List (List α)) (name : List α) : Option (List α) :=
  List.lookup name (entries.filterMap (cut sep)).reverse

variable {sep} {name value pre : List α}

theorem all_ne (h : sep ∉ name) : ∀ a ∈ name, decide (a ≠ sep) = true := by
  intro a ha
  rw [decide_eq_true_eq]
  rintro rfl
  exact h ha

theorem cut_assignment (h : sep ∉ name) : cut sep (name ++ sep :: value) = some (name, value) := by
  rw [cut, if_pos (List.mem_append_right _ List.mem_cons_self),
    List.takeWhile_append_of_pos (all_ne h), List.dropWhile_append_of_pos (all_ne h)]
  simp

/-- The name begins as the entry does, as long as no separator is met. -/
theorem prefix_of_cut {entry : List α} {nv : List α × List α} (hpre : sep ∉ pre)
    (h : pre <+: entry) (hcut : cut sep entry = some nv) : pre <+: nv.1 := by
  obtain ⟨rest, rfl⟩ := h
  rw [cut] at hcut
  split at hcut
  · cases hcut
    rw [List.takeWhile_append_of_pos (all_ne hpre)]
    exact List.prefix_append _ _
  · cases hcut

theorem read_append (entries entries' : List (List α)) (name : List α) :
    read sep (entries ++ entries') name = (read sep entries' name).or (read sep entries name) := by
  rw [read, List.filterMap_append, List.reverse_append, List.lookup_append]
  rfl

/-- Names without a separator are read as they were written. -/
theorem read_map {nvs : List (List α × List α)} (h : ∀ nv ∈ nvs, sep ∉ nv.1) (name : List α) :
    read sep (nvs.map fun nv => nv.1 ++ sep :: nv.2) name = List.lookup name nvs.reverse := by
  have hcut : (nvs.map fun nv => nv.1 ++ sep :: nv.2).filterMap (cut sep) = nvs := by
    rw [List.filterMap_map]
    refine (List.filterMap_congr fun nv hnv => ?_).trans List.filterMap_some
    exact cut_assignment (h nv hnv)
  rw [read, hcut]

theorem read_eq_none {entries : List (List α)}
    (h : ∀ entry ∈ entries, ∀ nv, cut sep entry = some nv → nv.1 ≠ name) :
    read sep entries name = none := by
  rw [read, List.lookup_eq_none_iff]
  intro nv hnv
  obtain ⟨entry, hentry, hcut⟩ := List.mem_filterMap.mp (List.mem_reverse.mp hnv)
  rw [bne_iff_ne]
  exact fun heq => h entry hentry nv hcut heq.symm

end Assignments
end Code2Cloud
