import Mathlib.Data.Set.Insert

/-!
# Fences

Fences that each select some members of a network and admit some senders, and networks that keep
to them: a member that some fence selects hears the senders that one of its own fences admits, and
no others.
-/

namespace Code2Cloud

structure Fence (P : Type*) where
  selects : P → Prop
  admits : P → Prop

namespace Fence

variable {P : Type*} (fences : Set (Fence P)) (a b : P)

/-- The network `allowed`, by sender and receiver, keeps to the fences. -/
structure Enforced (allowed : P → P → Prop) : Prop where
  /-- A member without a fence is open to all. -/
  unfenced {a b : P} : (∀ p ∈ fences, ¬p.selects b) → allowed a b
  /-- What the fences of a member admit adds up. -/
  fenced {a b : P} : (∃ p ∈ fences, p.selects b) →
    (allowed a b ↔ ∃ p ∈ fences, p.selects b ∧ p.admits a)

/-- The network that lets through whatever the fences do not stop. -/
def Allowed : Prop :=
  (∀ p ∈ fences, ¬p.selects b) ∨ ∃ p ∈ fences, p.selects b ∧ p.admits a

def deny (fenced : P → Prop) : Fence P where
  selects := fenced
  admits _ := False

variable {fences a b}

theorem enforced_allowed : Enforced fences (Allowed fences) where
  unfenced hopen := Or.inl hopen
  fenced := by
    rintro a b ⟨p, hp, hselects⟩
    exact ⟨fun h => h.resolve_left fun hopen => hopen p hp hselects, Or.inr⟩

/-- Behind a fence that admits no one only what another fence admits comes through. -/
theorem Enforced.insert_deny {allowed : P → P → Prop} {outside : P → Prop}
    (h : Enforced (insert (deny outside) fences) allowed) (hb : outside b) :
    allowed a b ↔ ∃ p ∈ fences, p.selects b ∧ p.admits a := by
  rw [h.fenced ⟨_, Set.mem_insert _ _, hb⟩]
  constructor
  · rintro ⟨p, hp, hselects, hadmits⟩
    rcases Set.mem_insert_iff.mp hp with rfl | hp
    · exact hadmits.elim
    · exact ⟨p, hp, hselects, hadmits⟩
  · rintro ⟨p, hp, hrest⟩
    exact ⟨p, Set.mem_insert_of_mem _ hp, hrest⟩

end Fence
end Code2Cloud
