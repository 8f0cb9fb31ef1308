import Mathlib.Data.List.Sort
import Mathlib.Data.List.Pairwise

/-!
# Sorting by a key

All the ways to sort a list by a key that may be the same for several elements, and when
each of them puts the elements in the order of a second key.
-/

namespace Code2Cloud
namespace Sorting

variable {α β γ : Type*} [LinearOrder β] [LinearOrder γ] {key : α → β} {place : α → γ}
  {l m : List α}

/-- The key tells elements at different places apart, and in the order of the places. -/
def Tells (key : α → β) (place : α → γ) (l : List α) : Prop :=
  ∀ x ∈ l, ∀ y ∈ l, place x < place y → key x < key y

theorem tells_append : Tells key place (l ++ m) ↔ Tells key place l ∧ Tells key place m ∧
    ∀ x ∈ l, ∀ y ∈ m, (place x < place y → key x < key y) ∧
      (place y < place x → key y < key x) := by
  constructor
  · intro h
    refine ⟨fun x hx y hy => ?_, fun x hx y hy => ?_, fun x hx y hy => ⟨?_, ?_⟩⟩
    · exact h x (List.mem_append_left m hx) y (List.mem_append_left m hy)
    · exact h x (List.mem_append_right l hx) y (List.mem_append_right l hy)
    · exact h x (List.mem_append_left m hx) y (List.mem_append_right l hy)
    · exact h y (List.mem_append_right l hy) x (List.mem_append_left m hx)
  · rintro ⟨hl, hm, hcross⟩ x hx y hy
    rcases List.mem_append.mp hx with hx | hx <;> rcases List.mem_append.mp hy with hy | hy
    · exact hl x hx y hy
    · exact (hcross x hx y hy).1
    · exact (hcross y hy x hx).2
    · exact hm x hx y hy

/-- Where all keys are equal, only one place is told. -/
theorem tells_iff_of_eq (hkey : ∀ x ∈ l, ∀ y ∈ l, key x = key y)
    (hplace : l.Pairwise fun x y => place x < place y) :
    Tells key place l ↔ l.length ≤ 1 := by
  cases l with
  | nil => exact iff_of_true (fun x hx => absurd hx List.not_mem_nil) (Nat.zero_le _)
  | cons x l =>
    cases l with
    | nil =>
      refine iff_of_true (fun a ha b hb hlt => ?_) (Nat.le_refl _)
      rw [List.mem_singleton.mp ha, List.mem_singleton.mp hb] at hlt
      exact absurd hlt (lt_irrefl _)
    | cons y l =>
      refine iff_of_false (fun h => ?_) (by simp)
      have hx : x ∈ x :: y :: l := List.mem_cons_self
      have hy : y ∈ x :: y :: l := List.mem_cons_of_mem x List.mem_cons_self
      have hlt := h x hx y hy (List.rel_of_pairwise_cons hplace List.mem_cons_self)
      rw [hkey x hx y hy] at hlt
      exact lt_irrefl _ hlt

/-- Every way to sort by the key gives the order of the places if and only if the key tells them
apart. -/
theorem forall_sorted_iff : (∀ order : List α, order.Perm l →
    (order.Pairwise fun x y => key x ≤ key y) → order.Pairwise fun x y => place x ≤ place y) ↔
    Tells key place l := by
  constructor
  · intro h x hx y hy hplace
    by_contra hkey
    rw [not_lt] at hkey
    -- there is a way to sort that puts the second element first
    have hne : y ≠ x := fun heq => absurd (heq ▸ hplace) (lt_irrefl _)
    classical
    have hperm : (y :: x :: (l.erase y).erase x).Perm l :=
      ((List.perm_cons_erase ((List.mem_erase_of_ne hne.symm).mpr hx)).symm.cons y).trans
        (List.perm_cons_erase hy).symm
    let r : α → α → Prop := fun a b => key a ≤ key b
    have : Std.Total r := ⟨fun a b => le_total (key a) (key b)⟩
    have : IsTrans α r := ⟨fun _ _ _ hab hbc => le_trans hab hbc⟩
    have hsorted := h ((y :: x :: (l.erase y).erase x).insertionSort r)
      ((List.perm_insertionSort r _).trans hperm) (List.pairwise_insertionSort r _)
    have hsublist : List.Sublist [y, x] ((y :: x :: (l.erase y).erase x).insertionSort r) :=
      List.pair_sublist_insertionSort hkey
        (((List.nil_sublist _).cons_cons x).cons_cons y)
    have hle := List.rel_of_pairwise_cons (hsorted.sublist hsublist) List.mem_cons_self
    exact absurd hplace (not_lt.mpr hle)
  · intro h order hperm hsorted
    refine hsorted.imp_of_mem fun {x y} hx hy hkey => ?_
    by_contra hplace
    rw [not_le] at hplace
    exact absurd (h y (hperm.mem_iff.mp hy) x (hperm.mem_iff.mp hx) hplace) (not_lt.mpr hkey)

end Sorting
end Code2Cloud
