import Mathlib.Data.List.Basic
import Mathlib.Data.List.TakeDrop
import Mathlib.Data.List.DropRight

/-!
# Lexical paths

What a path means once its `..` segments are resolved by the text alone: how far it climbs out of
where it starts, and the names it goes down by then.
-/

namespace Code2Cloud
namespace Paths

variable {α : Type*}

/-- A segment of a path; the empty ones and `.` are left out. -/
inductive Segment (α : Type*)
  | up
  | name (a : α)

/-- A path without a `..` behind a name.  One that starts at the root does not climb. -/
structure Clean (α : Type*) where
  rooted : Bool
  ups : Nat
  names : List α
  rooted_ups : rooted = true → ups = 0

namespace Clean

@[ext] theorem ext {p q : Clean α} (hrooted : p.rooted = q.rooted) (hups : p.ups = q.ups)
    (hnames : p.names = q.names) : p = q := by
  cases p
  cases q
  cases hrooted
  cases hups
  cases hnames
  rfl

def start (rooted : Bool) : Clean α where
  rooted
  ups := 0
  names := []
  rooted_ups _ := rfl

def up (p : Clean α) : Clean α where
  rooted := p.rooted
  ups := if p.names.isEmpty && !p.rooted then p.ups + 1 else p.ups
  names := p.names.dropLast
  rooted_ups h := by
    rw [h, Bool.not_true, Bool.and_false, if_neg Bool.false_ne_true]
    exact p.rooted_ups h

def down (p : Clean α) (a : α) : Clean α := { p with names := p.names ++ [a] }

def push (p : Clean α) : Segment α → Clean α
  | .up => p.up
  | .name a => p.down a

def ofSegments (rooted : Bool) (segments : List (Segment α)) : Clean α :=
  segments.foldl push (start rooted)

structure Within (p q : Clean α) : Prop where
  rooted : p.rooted = q.rooted
  ups : p.ups = q.ups
  names : p.names <+: q.names

def goOn (p q : Clean α) : Clean α where
  rooted := p.rooted
  ups := if p.rooted then 0 else p.ups + (q.ups - p.names.length)
  names := p.names.take (p.names.length - q.ups) ++ q.names
  rooted_ups h := if_pos h

@[simp] theorem up_rooted (p : Clean α) : p.up.rooted = p.rooted := rfl

@[simp] theorem up_names (p : Clean α) : p.up.names = p.names.dropLast := rfl

theorem up_ups (p : Clean α) :
    p.up.ups = if p.names = [] ∧ p.rooted = false then p.ups + 1 else p.ups := by
  simp only [up, Bool.and_eq_true, List.isEmpty_iff, Bool.not_eq_true']

@[simp] theorem goOn_rooted (p q : Clean α) : (p.goOn q).rooted = p.rooted := rfl

@[simp] theorem goOn_names (p q : Clean α) :
    (p.goOn q).names = p.names.take (p.names.length - q.ups) ++ q.names := rfl

theorem goOn_ups (p q : Clean α) :
    (p.goOn q).ups = if p.rooted = true then 0 else p.ups + (q.ups - p.names.length) := rfl

theorem goOn_start (p : Clean α) : p.goOn (start false) = p := by
  refine ext rfl ?_ ?_
  · rw [goOn_ups]
    split
    · rename_i hp
      exact (p.rooted_ups hp).symm
    · simp [start]
  · simp [start]

/-- A segment may be read on the way, or first and then gone on by. -/
theorem push_goOn (p : Clean α) {q : Clean α} (hq : q.rooted = false) (s : Segment α) :
    (p.goOn q).push s = p.goOn (q.push s) := by
  cases s with
  | name a => exact ext rfl rfl (List.append_assoc _ _ _)
  | up =>
    by_cases hnil : q.names = []
    · have hups : q.up.ups = q.ups + 1 := by rw [up_ups, if_pos ⟨hnil, hq⟩]
      have hlength : (p.names.take (p.names.length - q.ups)).length = p.names.length - q.ups :=
        List.length_take_of_le (Nat.sub_le _ _)
      refine ext rfl ?_ ?_
      · simp only [push, up_ups, goOn_ups, goOn_names, goOn_rooted, hnil, hq, List.append_nil,
          ← List.length_eq_zero_iff, hlength, and_self, if_true]
        cases p.rooted with
        | true => simp
        | false =>
          simp only [and_true, Bool.false_eq_true, if_false]
          split <;> omega
      · have hlast : (p.names.take (p.names.length - q.ups)).dropLast =
            p.names.take (p.names.length - (q.ups + 1)) := by
          rw [List.dropLast_eq_take, List.take_take, hlength]
          congr 1
          omega
        simp only [push, goOn_names, up_names, hnil, hups, List.append_nil, List.dropLast_nil,
          hlast]
    · have hups : q.up.ups = q.ups := by rw [up_ups, if_neg fun h => hnil h.1]
      have hstay : (p.goOn q).up.ups = (p.goOn q).ups := by
        rw [up_ups, if_neg fun h => hnil (List.append_eq_nil_iff.mp h.1).2]
      refine ext rfl ?_ ?_
      · rw [push, push, hstay, goOn_ups, goOn_ups, hups]
      · simp only [push, up_names, goOn_names, hups, List.dropLast_append_of_ne_nil hnil]

theorem rooted_push (p : Clean α) (s : Segment α) : (p.push s).rooted = p.rooted := by
  cases s <;> rfl

theorem foldl_push_goOn (p : Clean α) {q : Clean α} (hq : q.rooted = false)
    (segments : List (Segment α)) :
    segments.foldl push (p.goOn q) = p.goOn (segments.foldl push q) := by
  induction segments generalizing q with
  | nil => rfl
  | cons s segments ih =>
    rw [List.foldl_cons, List.foldl_cons, push_goOn p hq, ih ((rooted_push q s).trans hq)]

theorem ofSegments_append (rooted : Bool) (s t : List (Segment α)) :
    ofSegments rooted (s ++ t) = (ofSegments rooted s).goOn (ofSegments false t) := by
  have h := foldl_push_goOn (ofSegments rooted s) (q := start false) rfl t
  rw [goOn_start] at h
  rw [ofSegments, List.foldl_append]
  exact h

/-- Going on from a path leads to it or below it exactly where no more is climbed than it has
names, unless at the root, and the names that were climbed out of are gone down again. -/
theorem within_goOn_iff (p q : Clean α) :
    p.Within (p.goOn q) ↔ (p.rooted = true ∨ q.ups ≤ p.names.length) ∧
      p.names.drop (p.names.length - q.ups) <+: q.names := by
  have hups : p.ups = (p.goOn q).ups ↔ p.rooted = true ∨ q.ups ≤ p.names.length := by
    rw [goOn_ups]
    by_cases hp : p.rooted = true
    · rw [if_pos hp, p.rooted_ups hp]
      exact iff_of_true rfl (Or.inl hp)
    · rw [if_neg hp]
      constructor
      · intro h
        exact Or.inr (by omega)
      · intro h
        have := h.resolve_left hp
        omega
  have hnames : p.names <+: (p.goOn q).names ↔
      p.names.drop (p.names.length - q.ups) <+: q.names := by
    have hsplit : p.names.take (p.names.length - q.ups) ++ p.names.drop (p.names.length - q.ups) <+:
        p.names.take (p.names.length - q.ups) ++ q.names ↔
        p.names.drop (p.names.length - q.ups) <+: q.names := List.prefix_append_right_inj _
    rw [List.take_append_drop] at hsplit
    exact hsplit
  constructor
  · intro h
    exact ⟨hups.mp h.ups, hnames.mp h.names⟩
  · rintro ⟨h, h'⟩
    exact ⟨rfl, hups.mpr h, hnames.mpr h'⟩

theorem within_goOn (p : Clean α) {q : Clean α} (hq : q.ups = 0) : p.Within (p.goOn q) := by
  refine (within_goOn_iff p q).mpr ⟨Or.inr (hq ▸ Nat.zero_le _), ?_⟩
  rw [hq, Nat.sub_zero, List.drop_length]
  exact List.nil_prefix

theorem Within.trans {p q r : Clean α} (h : p.Within q) (h' : q.Within r) : p.Within r where
  rooted := h.rooted.trans h'.rooted
  ups := h.ups.trans h'.ups
  names := h.names.trans h'.names

end Clean
end Paths
end Code2Cloud
