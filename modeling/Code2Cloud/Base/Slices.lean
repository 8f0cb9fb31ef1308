import Mathlib.Data.List.Basic

/-!
# Slices

Arrays on a heap and slices of them: an append writes into the spare slots of the
slice's array when there are some, and moves to a new array otherwise.
-/

namespace Code2Cloud

variable {α : Type*}

abbrev Heap (α : Type*) := List (List α)

/-- The first elements of an array. -/
structure Slice where
  array : Nat
  length : Nat
  deriving DecidableEq

/-- `s[:0]` -/
def Slice.clear (s : Slice) : Slice := { s with length := 0 }

namespace Heap

def slots (h : Heap α) (s : Slice) : List α := (h[s.array]?).getD []

def read (h : Heap α) (s : Slice) : List α := (h.slots s).take s.length

def alloc (h : Heap α) (contents : List α) : Heap α := h ++ [contents]

def fresh (h : Heap α) (length : Nat) : Slice := { array := h.length, length }

/-- `append(s, x)`, with the spare slots of an array that has to grow. -/
def append (spare : List α → List α) (h : Heap α) (s : Slice) (x : α) : Heap α × Slice :=
  if s.length < (h.slots s).length then
    (h.set s.array ((h.slots s).set s.length x), { s with length := s.length + 1 })
  else
    (h.alloc (h.read s ++ x :: spare (h.read s)), h.fresh (s.length + 1))

/-- A slice of an allocated array, within its capacity. -/
structure Valid (h : Heap α) (s : Slice) : Prop where
  allocated : s.array < h.length
  length_le : s.length ≤ (h.slots s).length

/-- What is read outside one array stays as it is. -/
structure Keeps (own : Nat) (h h' : Heap α) : Prop where
  length_le : h.length ≤ h'.length
  slots_eq : ∀ s : Slice, s.array < h.length → s.array ≠ own → h'.slots s = h.slots s

variable {h h' h'' : Heap α} {s t : Slice} {own : Nat} {x : α} {contents : List α}

theorem length_read (hs : h.Valid s) : (h.read s).length = s.length := by
  rw [read, List.length_take]
  exact Nat.min_eq_left hs.length_le

theorem read_eq_nil_iff (hs : h.Valid s) : h.read s = [] ↔ s.length = 0 := by
  rw [← List.length_eq_zero_iff, length_read hs]

@[simp] theorem read_clear : h.read s.clear = [] := by
  simp [read, Slice.clear]

theorem Valid.clear (hs : h.Valid s) : h.Valid s.clear := ⟨hs.allocated, Nat.zero_le _⟩

namespace Keeps

theorem refl (own : Nat) (h : Heap α) : Keeps own h h := ⟨Nat.le_refl _, fun _ _ _ => rfl⟩

theorem read_eq (hk : Keeps own h h') (hs : s.array < h.length) (hne : s.array ≠ own) :
    h'.read s = h.read s := by
  rw [read, hk.slots_eq s hs hne, read]

theorem valid (hk : Keeps own h h') (hs : h.Valid s) (hne : s.array ≠ own) : h'.Valid s where
  allocated := Nat.lt_of_lt_of_le hs.allocated hk.length_le
  length_le := by
    rw [hk.slots_eq s hs.allocated hne]
    exact hs.length_le

end Keeps

/-! ## New arrays -/

theorem slots_alloc_of_lt (hs : s.array < h.length) : (h.alloc contents).slots s = h.slots s := by
  rw [slots, alloc, List.getElem?_append_left hs, slots]

theorem slots_alloc_fresh (n : Nat) : (h.alloc contents).slots (h.fresh n) = contents := by
  rw [slots, alloc, fresh, List.getElem?_concat_length, Option.getD_some]

theorem length_alloc : (h.alloc contents).length = h.length + 1 := List.length_append

theorem keeps_alloc (own : Nat) : Keeps own h (h.alloc contents) where
  length_le := by
    rw [length_alloc]
    exact Nat.le_succ _
  slots_eq _ hs _ := slots_alloc_of_lt hs

theorem read_alloc_of_lt (hs : s.array < h.length) : (h.alloc contents).read s = h.read s := by
  rw [read, slots_alloc_of_lt hs, read]

theorem valid_alloc (hs : h.Valid s) : (h.alloc contents).Valid s where
  allocated := by
    rw [length_alloc]
    exact Nat.lt_succ_of_lt hs.allocated
  length_le := by
    rw [slots_alloc_of_lt hs.allocated]
    exact hs.length_le

theorem read_fresh : (h.alloc contents).read (h.fresh contents.length) = contents := by
  rw [read, slots_alloc_fresh, fresh, List.take_length]

theorem valid_fresh {n : Nat} (hn : n ≤ contents.length) :
    (h.alloc contents).Valid (h.fresh n) where
  allocated := by
    rw [length_alloc]
    exact Nat.lt_succ_self _
  length_le := by
    rw [slots_alloc_fresh]
    exact hn

/-! ## Appending -/

theorem slots_set (hs : s.array < h.length) {slots : List α} {n : Nat} :
    Heap.slots (h.set s.array slots) { s with length := n } = slots := by
  rw [Heap.slots, List.getElem?_set_self hs, Option.getD_some]

theorem take_set_succ {l : List α} {n : Nat} (h : n < l.length) :
    (l.set n x).take (n + 1) = l.take n ++ [x] := by
  rw [List.take_add_one, List.take_set_of_le (Nat.le_refl n), List.getElem?_set_self h]
  rfl

theorem append_spec (spare : List α → List α) (x : α) (hs : h.Valid s) :
    (h.append spare s x).1.Valid (h.append spare s x).2 ∧
      (h.append spare s x).1.read (h.append spare s x).2 = h.read s ++ [x] ∧
      Keeps s.array h (h.append spare s x).1 ∧
      ((h.append spare s x).2.array = s.array ∨ (h.append spare s x).2.array = h.length) := by
  rw [append]
  split
  · rename_i hroom
    refine ⟨⟨?_, ?_⟩, ?_, ⟨?_, fun t _ hne => ?_⟩, Or.inl rfl⟩
    · rw [List.length_set]
      exact hs.allocated
    · rw [slots_set hs.allocated, List.length_set]
      exact hroom
    · rw [read, slots_set hs.allocated, take_set_succ hroom, read]
    · exact Nat.le_of_eq List.length_set.symm
    · rw [slots, List.getElem?_set_ne hne.symm, slots]
  · rename_i hfull
    have hlength := length_read hs
    have hle : s.length + 1 ≤ (h.read s ++ x :: spare (h.read s)).length := by
      rw [List.length_append, List.length_cons]
      omega
    refine ⟨valid_fresh hle, ?_, keeps_alloc _, Or.inr rfl⟩
    rw [read, slots_alloc_fresh, fresh]
    have hsplit : h.read s ++ x :: spare (h.read s) = (h.read s ++ [x]) ++ spare (h.read s) := by
      rw [List.append_assoc, List.singleton_append]
    have hread : (h.read s ++ [x]).length = s.length + 1 := by
      rw [List.length_append, hlength, List.length_singleton]
    rw [hsplit, List.take_append_of_le_length (Nat.le_of_eq hread.symm)]
    exact List.take_of_length_le (Nat.le_of_eq hread)

end Heap
end Code2Cloud
