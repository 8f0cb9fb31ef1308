import Mathlib.Data.List.Nodup

/-!
# Registers

What is noted of each key when a row with it first appears.  A note is never changed, so a register
tells what a row was even after it is gone.
-/

namespace Code2Cloud

abbrev Register (κ ν : Type) := κ → Option ν

namespace Register

variable {κ ν α : Type} [DecidableEq κ] {reg : Register κ ν} {key : α → κ} {val : α → ν}
  {rows : List α}

def note (reg : Register κ ν) (key : α → κ) (val : α → ν) (rows : List α) : Register κ ν :=
  fun k => reg k <|> (rows.find? fun a => key a == k).map val

/-- The rows are as they are noted. -/
def Lists (reg : Register κ ν) (key : α → κ) (val : α → ν) (rows : List α) : Prop :=
  ∀ a ∈ rows, reg (key a) = some (val a)

def Extends (reg reg' : Register κ ν) : Prop := ∀ k v, reg k = some v → reg' k = some v

theorem extends_note : reg.Extends (reg.note key val rows) := by
  intro k v h
  rw [note, h]
  rfl

/-- Rows that are noted, and new ones that agree where they share a key, are listed once they are
noted. -/
theorem lists_note (h : ∀ a ∈ rows, reg (key a) = some (val a) ∨
      reg (key a) = none ∧ ∀ b ∈ rows, key b = key a → val b = val a) :
    (reg.note key val rows).Lists key val rows := by
  intro a ha
  rcases h a ha with hknown | ⟨hnone, hagree⟩
  · exact extends_note _ _ hknown
  · rw [note, hnone]
    cases hfind : rows.find? fun b => key b == key a with
    | none =>
      have hother := List.find?_eq_none.mp hfind a ha
      simp at hother
    | some b =>
      have hkey : key b = key a := by simpa using List.find?_some hfind
      exact congrArg some (hagree b (List.mem_of_find?_eq_some hfind) hkey)

theorem lists_note_new (new : Option α)
    (h : ∀ a ∈ rows, reg (key a) = some (val a) ∨ reg (key a) = none ∧ a ∈ new) :
    (reg.note key val rows).Lists key val rows := by
  refine lists_note fun a ha => (h a ha).imp_right fun ⟨hnone, hnew⟩ => ⟨hnone, fun b hb hkey => ?_⟩
  rcases h b hb with hknown | ⟨_, hother⟩
  · rw [hkey, hnone] at hknown
    cases hknown
  · rw [Option.mem_unique hother hnew]

/-! ## Keys from a counter -/

/-- No key is noted that the counter has not reached. -/
def Below (n : Nat) (reg : Register Nat ν) : Prop := ∀ k, n ≤ k → reg k = none

theorem Below.lt {n k : Nat} {v : ν} {reg : Register Nat ν} (h : reg.Below n)
    (hk : reg k = some v) : k < n := by
  by_contra hge
  rw [h k (Nat.le_of_not_lt hge)] at hk
  cases hk

theorem Below.note {n n' : Nat} {reg : Register Nat ν} {key : α → Nat} (h : reg.Below n)
    (hn : n ≤ n') (hrows : ∀ a ∈ rows, key a < n') : (reg.note key val rows).Below n' := by
  intro k hk
  rw [Register.note, h k (Nat.le_trans hn hk)]
  have hnone : (rows.find? fun a => key a == k) = none := by
    refine List.find?_eq_none.mpr fun a ha hkey => ?_
    exact absurd (hrows a ha) (Nat.not_lt.mpr (eq_of_beq hkey ▸ hk))
  rw [hnone]
  rfl

/-- A table without two rows of one key is listed in the register that notes it first. -/
theorem lists_note_of_nodup (val : α → ν) {key : α → Nat} {n : Nat} (hnodup : (rows.map key).Nodup)
    (hrows : ∀ a ∈ rows, key a < n) :
    (note (fun _ => none) key val rows).Lists key val rows ∧
      (note (fun _ => none) key val rows).Below n := by
  refine ⟨lists_note fun a ha => Or.inr ⟨rfl, fun b hb hkey => ?_⟩,
    Below.note (fun _ _ => rfl) (Nat.le_refl n) hrows⟩
  rw [List.inj_on_of_nodup_map hnodup hb ha hkey]

/-- A table whose rows are noted, but for at most one with a key drawn from the counter, is listed
once it is noted. -/
theorem Below.lists_note {n n' : Nat} {reg : Register Nat ν} {key : α → Nat} (new : Option α)
    (h : reg.Below n) (hn : n ≤ n')
    (hrows : ∀ a ∈ rows, reg (key a) = some (val a) ∨ a ∈ new)
    (hnew : ∀ a ∈ new, n ≤ key a ∧ key a < n') :
    (reg.note key val rows).Lists key val rows ∧ (reg.note key val rows).Below n' := by
  refine ⟨lists_note_new new fun a ha => ?_, h.note hn fun a ha => ?_⟩
  · exact (hrows a ha).imp_right fun hmem => ⟨h _ (hnew a hmem).1, hmem⟩
  · rcases hrows a ha with hknown | hmem
    · exact Nat.lt_of_lt_of_le (h.lt hknown) hn
    · exact (hnew a hmem).2

end Register
end Code2Cloud
