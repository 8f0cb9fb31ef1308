import Mathlib.Data.List.Basic

/-!
# Logs

A log to which events are only ever appended: which event stands before which, and
what stands behind an event.
-/

namespace Code2Cloud
namespace Log

variable {α : Type*} {l new earlier later : List α} {a b : α}

/-- The first event stands before an occurrence of the second. -/
def Before (l : List α) (a b : α) : Prop := ∃ earlier later, l = earlier ++ b :: later ∧ a ∈ earlier

/-- An occurrence of an event that is not among the appended ones is an old one. -/
theorem split_append (hb : b ∉ new) (h : l ++ new = earlier ++ b :: later) :
    ∃ rest, l = earlier ++ b :: rest ∧ later = rest ++ new := by
  rcases List.append_eq_append_iff.mp h with ⟨c, rfl, hc⟩ | ⟨c, hl, hc⟩
  · exact absurd (by rw [hc]; simp) hb
  · cases c with
    | nil =>
      simp only [List.nil_append] at hc
      exact absurd (by rw [← hc]; simp) hb
    | cons x c =>
      rw [List.cons_append, List.cons.injEq] at hc
      obtain ⟨rfl, hc⟩ := hc
      exact ⟨c, hl, hc⟩

/-- An occurrence in a log with one more event is an old one or the new one. -/
theorem split_concat {x : α} (h : l ++ [x] = earlier ++ b :: later) :
    (∃ rest, l = earlier ++ b :: rest ∧ later = rest ++ [x]) ∨
      (earlier = l ∧ b = x ∧ later = []) := by
  rcases List.eq_nil_or_concat later with rfl | ⟨rest, y, rfl⟩
  · obtain ⟨hl, hx⟩ := List.append_inj' h rfl
    exact Or.inr ⟨hl.symm, (List.singleton_inj.mp hx).symm, rfl⟩
  · have h' : l ++ [x] = (earlier ++ b :: rest) ++ [y] := by simpa using h
    obtain ⟨hl, hx⟩ := List.append_inj' h' rfl
    exact Or.inl ⟨rest, hl, by rw [List.singleton_inj.mp hx, List.concat_eq_append]⟩

theorem Before.append (h : Before l a b) (new : List α) : Before (l ++ new) a b := by
  obtain ⟨earlier, later, rfl, ha⟩ := h
  exact ⟨earlier, later ++ new, by simp, ha⟩

theorem before_append_iff (hb : b ∉ new) : Before (l ++ new) a b ↔ Before l a b := by
  constructor
  · rintro ⟨earlier, later, h, ha⟩
    obtain ⟨rest, hl, _⟩ := split_append hb h
    exact ⟨earlier, rest, hl, ha⟩
  · exact fun h => h.append new

/-- After every occurrence of `b` that `a` precedes there are only events that meet `P`. -/
def Follows (l : List α) (a b : α) (P : α → Prop) : Prop :=
  ∀ earlier later, l = earlier ++ b :: later → a ∈ earlier → ∀ x ∈ later, P x

theorem Follows.append {P : α → Prop} (h : Follows l a b P) (hb : b ∉ new)
    (hnew : Before l a b → ∀ x ∈ new, P x) : Follows (l ++ new) a b P := by
  intro earlier later hl ha x hx
  obtain ⟨rest, hold, rfl⟩ := split_append hb hl
  rcases List.mem_append.mp hx with hx | hx
  · exact h earlier rest hold ha x hx
  · exact hnew ⟨earlier, rest, hold, ha⟩ x hx

theorem Follows.concat {P : α → Prop} {y : α} (h : Follows l a b P)
    (hy : Before l a b → P y) : Follows (l ++ [y]) a b P := by
  intro earlier later hl ha x hx
  rcases split_concat hl with ⟨rest, hold, rfl⟩ | ⟨_, _, rfl⟩
  · rcases List.mem_append.mp hx with hx | hx
    · exact h earlier rest hold ha x hx
    · rw [List.mem_singleton.mp hx]
      exact hy ⟨earlier, rest, hold, ha⟩
  · simp at hx

end Log
end Code2Cloud
