import Mathlib.Tactic.TypeStar

/-!
# Versioned objects

An object that is read together with a version and replaced only under the version it
was read with.  Every write takes a fresh version, and a replacement by an equal object
is no write.
-/

namespace Code2Cloud

structure Cell (α : Type*) where
  object : Option α
  version : Nat

namespace Cell

variable {α : Type*}

def get (c : Cell α) : Option (α × Nat) := c.object.map fun a => (a, c.version)

/-- Refused where an object exists. -/
def create (c : Cell α) (a : α) : Option (Cell α) :=
  if c.object.isSome then none else some { object := some a, version := c.version + 1 }

/-- Refused unless the object exists and has this version. -/
def update [DecidableEq α] (c : Cell α) (a : α) (version : Nat) : Option (Cell α) :=
  if c.object.isSome ∧ c.version = version then
    some (if c.object = some a then c else { object := some a, version := c.version + 1 })
  else none

theorem get_eq_some_iff {c : Cell α} {a : α} {version : Nat} :
    c.get = some (a, version) ↔ c.object = some a ∧ c.version = version := by
  simp only [get, Option.map_eq_some_iff, Prod.mk.injEq]
  constructor
  · rintro ⟨b, hb, rfl, hversion⟩
    exact ⟨hb, hversion⟩
  · rintro ⟨ha, hversion⟩
    exact ⟨a, ha, rfl, hversion⟩

theorem object_of_create {c c' : Cell α} {a : α} (h : c.create a = some c') :
    c'.object = some a := by
  unfold create at h
  split at h
  · cases h
  · cases h
    rfl

variable [DecidableEq α]

theorem update_eq_some_iff {c c' : Cell α} {a : α} {version : Nat} :
    c.update a version = some c' ↔
      c.object.isSome ∧ c.version = version ∧
        c' = if c.object = some a then c else { object := some a, version := c.version + 1 } := by
  rw [update]
  split
  · rename_i h
    rw [Option.some.injEq]
    exact ⟨fun h' => ⟨h.1, h.2, h'.symm⟩, fun h' => h'.2.2.symm⟩
  · rename_i h
    constructor
    · intro h'
      cases h'
    · rintro ⟨hsome, hversion, _⟩
      exact absurd ⟨hsome, hversion⟩ h

theorem object_of_update {c c' : Cell α} {a : α} {version : Nat}
    (h : c.update a version = some c') : c'.object = some a := by
  obtain ⟨_, _, rfl⟩ := update_eq_some_iff.mp h
  split
  · assumption
  · rfl

theorem version_of_update {c c' : Cell α} {a : α} {version : Nat}
    (h : c.update a version = some c') :
    c.version < c'.version ∨ c' = c ∧ c.object = some a := by
  obtain ⟨_, _, rfl⟩ := update_eq_some_iff.mp h
  split
  · rename_i heq
    exact Or.inr ⟨rfl, heq⟩
  · exact Or.inl (Nat.lt_succ_self c.version)

end Cell
end Code2Cloud
