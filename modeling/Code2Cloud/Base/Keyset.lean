import Mathlib.Data.List.Sort
import Mathlib.Order.Defs.LinearOrder

/-!
# Keyset pages

A list that is read page by page, each page from the key of the last row of the one before.
-/

namespace Code2Cloud
namespace Keyset

variable {α κ : Type*} [LinearOrder κ] (key : α → κ)

def later (after : Option κ) (x : α) : Bool := after.all fun k => k < key x

def cursor (read : List α) : Option κ := read.getLast?.map key

def Ascending (rows : List α) : Prop := rows.Pairwise fun x y => key x < key y

variable {key} {rows order read rest : List α}

/-- Rows with keys of their own come in one order only. -/
theorem eq_of_perm (h : Ascending key rows) (hperm : order.Perm rows)
    (hsorted : order.Pairwise fun x y => key x ≤ key y) : order = rows := by
  refine hperm.eq_of_pairwise (fun x y hx hy hxy hyx => ?_) hsorted (h.imp le_of_lt)
  have hkey : key x = key y := le_antisymm hxy hyx
  have hinj := List.pairwise_iff_getElem.mp h
  obtain ⟨i, hi, rfl⟩ := List.getElem_of_mem (hperm.mem_iff.mp hx)
  obtain ⟨j, hj, rfl⟩ := List.getElem_of_mem hy
  rcases lt_trichotomy i j with hij | rfl | hij
  · exact absurd hkey (hinj i j hi hj hij).ne
  · rfl
  · exact absurd hkey (hinj j i hj hi hij).ne'

theorem ascending_insertionSort (rows : List α) (h : (rows.map key).Nodup) :
    Ascending key (rows.insertionSort fun x y => key x ≤ key y) := by
  have : Std.Total fun x y : α => key x ≤ key y := ⟨fun x y => le_total (key x) (key y)⟩
  have : IsTrans α fun x y => key x ≤ key y := ⟨fun _ _ _ hxy hyz => le_trans hxy hyz⟩
  have hsorted := List.pairwise_insertionSort (fun x y : α => key x ≤ key y) rows
  have hnodup := (List.perm_insertionSort (fun x y : α => key x ≤ key y) rows).map key
  have hne := List.pairwise_map.mp (hnodup.nodup_iff.mpr h)
  exact hsorted.imp₂ (fun _ _ hle hne => lt_of_le_of_ne hle hne) hne

/-- What is behind the cursor is what was not read. -/
theorem filter_later_cursor (h : Ascending key (read ++ rest)) :
    (read ++ rest).filter (later key (cursor key read)) = rest := by
  obtain ⟨hread, hrest, hlt⟩ := List.pairwise_append.mp h
  cases hlast : read.getLast? with
  | none =>
    rw [List.getLast?_eq_none_iff.mp hlast, List.nil_append]
    exact List.filter_eq_self.mpr fun x _ => rfl
  | some last =>
    obtain ⟨before, rfl⟩ := List.getLast?_eq_some_iff.mp hlast
    have hread : (before ++ [last]).filter (later key (some (key last))) = [] := by
      refine List.filter_eq_nil_iff.mpr fun x hx => ?_
      rw [later, Option.all_some, decide_eq_true_eq, not_lt]
      rcases List.mem_append.mp hx with hx | hx
      · exact ((List.pairwise_append.mp hread).2.2 x hx last (List.mem_singleton_self last)).le
      · exact (congrArg key (List.mem_singleton.mp hx)).le
    have hrest : rest.filter (later key (some (key last))) = rest := by
      refine List.filter_eq_self.mpr fun x hx => ?_
      rw [later, Option.all_some, decide_eq_true_eq]
      exact hlt last (List.mem_append_right before (List.mem_singleton_self last)) x hx
    rw [cursor, hlast, Option.map_some, List.filter_append, hread, hrest, List.nil_append]

omit [LinearOrder κ] in
theorem cursor_append (read : List α) {page : List α} (h : page ≠ []) :
    cursor key (read ++ page) = cursor key page := by
  rw [cursor, cursor, List.getLast?_append_of_ne_nil read h]

end Keyset
end Code2Cloud
