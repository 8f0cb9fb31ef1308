import Mathlib.Algebra.GroupWithZero.Nat
import Mathlib.Data.List.Basic

/-!
# Tables

Rows with a key that no two rows share.
-/

namespace Code2Cloud
namespace Table

variable {α κ : Type} [BEq κ] [LawfulBEq κ] {key : α → κ} {rows : List α}

theorem find?_of_nodup (h : (rows.map key).Nodup) {a : α} (ha : a ∈ rows) :
    rows.find? (fun b => key b == key a) = some a := by
  induction rows with
  | nil => simp at ha
  | cons b rows ih =>
    rw [List.map_cons, List.nodup_cons] at h
    rcases List.mem_cons.mp ha with rfl | ha
    · simp
    · have hne : key b ≠ key a := fun he => h.1 (he ▸ List.mem_map_of_mem ha)
      rw [List.find?_cons_of_neg (by simpa using hne)]
      exact ih h.2 ha

theorem eq_of_countP_le {q : α → Bool} (h : rows.countP q ≤ 1) {a b : α} (ha : a ∈ rows)
    (hb : b ∈ rows) (hqa : q a = true) (hqb : q b = true) : a = b := by
  rw [List.countP_eq_length_filter] at h
  have hmem : a ∈ rows.filter q := List.mem_filter.mpr ⟨ha, hqa⟩
  have hmem' : b ∈ rows.filter q := List.mem_filter.mpr ⟨hb, hqb⟩
  cases hfilter : rows.filter q with
  | nil =>
    rw [hfilter] at hmem
    exact absurd hmem List.not_mem_nil
  | cons c rest =>
    rw [hfilter] at h hmem hmem'
    have hrest : rest = [] := List.eq_nil_of_length_eq_zero (by
      rw [List.length_cons] at h
      omega)
    rw [hrest, List.mem_singleton] at hmem hmem'
    rw [hmem, hmem']

/-- A row of a selection is sought among all rows by asking for both. -/
theorem find?_filter_eq (q p : α → Bool) :
    (rows.filter q).find? p = rows.find? fun a => p a && q a := by
  rw [List.find?_filter]
  congr 1
  funext a
  cases p a <;> cases q a <;> rfl

/-- A search for selected rows finds them among the selected ones. -/
theorem find?_filter_and (q p : α → Bool) :
    ((rows.filter q).find? fun a => p a && q a) = rows.find? fun a => p a && q a := by
  rw [find?_filter_eq]
  simp only [Bool.and_assoc, Bool.and_self]

theorem filter_filter_self (q : α → Bool) : (rows.filter q).filter q = rows.filter q := by
  rw [List.filter_filter]
  simp only [Bool.and_self]

/-- An update that a selection does not see may be done before or after it. -/
theorem filter_map_comm {q : α → Bool} {g : α → α} (hq : ∀ a ∈ rows, q (g a) = q a) :
    (rows.map g).filter q = (rows.filter q).map g := by
  rw [List.filter_map]
  exact congrArg (List.map g) (List.filter_congr hq)

theorem filter_map_eq {q : α → Bool} {g : α → α} (hq : ∀ a ∈ rows, q (g a) = q a)
    (hg : ∀ a ∈ rows, q a = true → g a = a) : (rows.map g).filter q = rows.filter q := by
  rw [filter_map_comm hq]
  refine (List.map_congr_left fun a ha => ?_).trans (List.map_id _)
  exact hg a (List.mem_filter.mp ha).1 (List.mem_filter.mp ha).2

/-- Of the rows with a key, one at most, those with a property are counted. -/
theorem countP_key_and (h : (rows.map key).Nodup) (k : κ) (q : α → Bool) :
    rows.countP (fun a => key a == k && q a) =
      if (rows.find? fun a => key a == k).any q then 1 else 0 := by
  induction rows with
  | nil => rfl
  | cons a rows ih =>
    rw [List.map_cons, List.nodup_cons] at h
    by_cases ha : key a = k
    · have hrest : rows.countP (fun b => key b == k && q b) = 0 := by
        refine List.countP_eq_zero.mpr fun b hb hboth => ?_
        rw [Bool.and_eq_true, beq_iff_eq] at hboth
        exact h.1 (ha.trans hboth.1.symm ▸ List.mem_map_of_mem hb)
      rw [List.countP_cons, hrest, List.find?_cons_of_pos (by simpa using ha), Option.any_some]
      simp [ha]
    · have hne : (key a == k) = false := by simpa using ha
      rw [List.countP_cons_of_neg (by simp [hne]), List.find?_cons_of_neg (by simp [hne]), ih h.2]

/-- Counting by adding up ones. -/
theorem sum_map_ite (q : α → Bool) :
    (rows.map fun a => if q a then 1 else 0).sum = rows.countP q := by
  induction rows with
  | nil => rfl
  | cons a rows ih =>
    rw [List.map_cons, List.sum_cons, ih, List.countP_cons, Nat.add_comm]

theorem filter_eq_filter_iff {p q : α → Bool} :
    rows.filter p = rows.filter q ↔ ∀ a ∈ rows, p a = q a := by
  refine ⟨fun h a ha => ?_, List.filter_congr⟩
  rw [Bool.eq_iff_iff]
  constructor
  · intro hp
    exact (List.mem_filter.mp (h ▸ List.mem_filter.mpr ⟨ha, hp⟩)).2
  · intro hq
    exact (List.mem_filter.mp (h ▸ List.mem_filter.mpr ⟨ha, hq⟩)).2

/-- One selection takes from a list no more than one that accepts whatever it accepts. -/
theorem length_filterMap_le_filterMap {β : Type*} {f g : α → Option β}
    (h : ∀ a ∈ rows, f a ≠ none → g a ≠ none) :
    (rows.filterMap f).length ≤ (rows.filterMap g).length := by
  induction rows with
  | nil => exact Nat.le_refl 0
  | cons a rows ih =>
    have hrest := ih fun b hb => h b (List.mem_cons_of_mem a hb)
    cases hg : g a with
    | none =>
      have hf : f a = none := by
        by_contra hne
        exact h a List.mem_cons_self hne hg
      rw [List.filterMap_cons_none hf, List.filterMap_cons_none hg]
      exact hrest
    | some c =>
      rw [List.filterMap_cons_some hg, List.filterMap_cons]
      split
      · exact Nat.le_trans hrest (Nat.le_succ _)
      · exact Nat.succ_le_succ hrest

/-- It takes the same exactly when the two agree on every row. -/
theorem filterMap_eq_filterMap_iff {β : Type*} {f g : α → Option β}
    (h : ∀ a ∈ rows, f a ≠ none → g a ≠ none) :
    rows.filterMap f = rows.filterMap g ↔ ∀ a ∈ rows, f a = g a := by
  refine ⟨fun heq => ?_, List.filterMap_congr⟩
  induction rows with
  | nil => exact fun a ha => absurd ha List.not_mem_nil
  | cons a rows ih =>
    have hrest : ∀ b ∈ rows, f b ≠ none → g b ≠ none := fun b hb => h b (List.mem_cons_of_mem a hb)
    have hlength := length_filterMap_le_filterMap hrest
    have hboth : f a = g a ∧ rows.filterMap f = rows.filterMap g := by
      cases hf : f a with
      | none =>
        rw [List.filterMap_cons_none hf] at heq
        cases hg : g a with
        | none =>
          rw [List.filterMap_cons_none hg] at heq
          exact ⟨rfl, heq⟩
        | some c =>
          rw [List.filterMap_cons_some hg] at heq
          rw [heq, List.length_cons] at hlength
          omega
      | some b =>
        have hne : f a ≠ none := by
          rw [hf]
          exact Option.some_ne_none b
        obtain ⟨c, hg⟩ := Option.ne_none_iff_exists'.mp (h a List.mem_cons_self hne)
        rw [List.filterMap_cons_some hf, List.filterMap_cons_some hg] at heq
        obtain ⟨rfl, htail⟩ := List.cons.inj heq
        exact ⟨hg.symm, htail⟩
    exact List.forall_mem_cons.mpr ⟨hboth.1, ih hrest hboth.2⟩

/-! ## Changes beside a selection -/

section

variable {κ : Type} [DecidableEq κ] {q : α → Bool} {key : α → κ} {k : κ}

/-- Rows that a selection does not see come and go, and are updated, unseen. -/
theorem filter_append_unseen {new : List α} (h : ∀ a ∈ new, q a = false) :
    (rows ++ new).filter q = rows.filter q := by
  have hnew : new.filter q = [] := List.filter_eq_nil_iff.mpr fun a ha => by simp [h a ha]
  rw [List.filter_append, hnew, List.append_nil]

theorem filter_drop_unseen (h : ∀ a ∈ rows, key a = k → q a = false) :
    (rows.filter fun a => key a != k).filter q = rows.filter q := by
  rw [List.filter_filter]
  refine List.filter_congr fun a ha => ?_
  by_cases hk : key a = k
  · rw [h a ha hk, Bool.false_and]
  · simp [hk]

theorem filter_update_unseen {f : α → α}
    (h : ∀ a ∈ rows, key a = k → q a = false ∧ q (f a) = false) :
    (rows.map fun a => if key a = k then f a else a).filter q = rows.filter q := by
  refine filter_map_eq (fun a ha => ?_) fun a ha hq => ?_
  · by_cases hk : key a = k
    · rw [if_pos hk, (h a ha hk).1, (h a ha hk).2]
    · rw [if_neg hk]
  · refine if_neg fun hk => ?_
    rw [(h a ha hk).1] at hq
    cases hq

theorem filter_append_seen {new : List α} (h : ∀ a ∈ new, q a = true) :
    (rows ++ new).filter q = rows.filter q ++ new := by
  rw [List.filter_append, List.filter_eq_self.mpr h]

theorem filter_drop_comm :
    (rows.filter fun a => key a != k).filter q = (rows.filter q).filter fun a => key a != k := by
  rw [List.filter_filter, List.filter_filter]
  simp only [Bool.and_comm]

theorem filter_update_comm {f : α → α} (h : ∀ a ∈ rows, q (f a) = q a) :
    (rows.map fun a => if key a = k then f a else a).filter q =
      (rows.filter q).map fun a => if key a = k then f a else a := by
  refine filter_map_comm fun a ha => ?_
  split
  · exact h a ha
  · rfl

end

end Table
end Code2Cloud
