import Mathlib.Tactic.TypeStar

/-!
# Fresh identifiers

Things that carry identifiers drawn from a counter: each identifier is carried at most
once, and none that the counter has not reached yet.
-/

namespace Code2Cloud
namespace Fresh

/-- 1 for the identifiers that are drawn while the counter goes from `a` to `b`. -/
def drawn (a b id : Nat) : Nat := if a ≤ id ∧ id < b then 1 else 0

theorem drawn_of_not {a b id : Nat} (h : ¬(a ≤ id ∧ id < b)) : drawn a b id = 0 := if_neg h

theorem drawn_of_le {a b id : Nat} (h : a ≤ id) (h' : id < b) : drawn a b id = 1 := if_pos ⟨h, h'⟩

/-- `count` carries no identifier twice, and none from `next` on. -/
def Once (next : Nat) (count : Nat → Nat) : Prop :=
  ∀ id, count id ≤ 1 ∧ (next ≤ id → count id = 0)

variable {next next' : Nat} {count count' : Nat → Nat}

/-- Carrying less, and what was drawn in the meantime, keeps identifiers unique. -/
theorem Once.step (h : Once next count) (hnext : next ≤ next')
    (hcount : ∀ id, count' id ≤ count id + drawn next next' id) : Once next' count' := by
  intro id
  obtain ⟨hone, hzero⟩ := h id
  have hle := hcount id
  by_cases hid : next ≤ id ∧ id < next'
  · rw [drawn_of_le hid.1 hid.2, hzero hid.1] at hle
    exact ⟨hle, fun hge => absurd hid.2 (Nat.not_lt.mpr hge)⟩
  · rw [drawn_of_not hid] at hle
    exact ⟨Nat.le_trans hle hone, fun hge => Nat.le_zero.mp (hzero (Nat.le_trans hnext hge) ▸ hle)⟩

theorem Once.lt (h : Once next count) {id : Nat} (hid : 0 < count id) : id < next := by
  rcases Nat.lt_or_ge id next with hlt | hge
  · exact hlt
  · rw [(h id).2 hge] at hid
    exact absurd hid (Nat.lt_irrefl 0)

end Fresh
end Code2Cloud
