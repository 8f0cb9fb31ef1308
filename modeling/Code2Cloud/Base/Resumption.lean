import Mathlib.Order.Defs.PartialOrder

/-!
# Resumptions

Programs that share a store with others and make one request to it at a time.  Between two requests
the store changes in any way, so a program can rely only on facts that last.  The facts are a
preorder: what is known at one request is known at every later one.
-/

namespace Code2Cloud

/-- A program up to its next request: it has returned or failed, or it goes on with the store it
finds, or issues a write and goes on with the store after it. -/
inductive Resumption (S W E A : Type)
  | pure (a : A)
  | throw (e : E)
  | query (next : S → Resumption S W E A)
  | write (c : W) (next : S → Resumption S W E A)

namespace Resumption

/-- Read the store once, and fail or go on with what was read. -/
def read {S W E A β : Type} (q : S → Except E β) (next : β → Resumption S W E A) :
    Resumption S W E A :=
  query fun s =>
    match q s with
    | .error e => throw e
    | .ok b => next b

/-- How a program ends that finds these stores, one after the other. -/
def result {S W E A : Type} : Resumption S W E A → (Nat → S) → Except E A
  | pure a, _ => .ok a
  | throw e, _ => .error e
  | query next, stores | write _ next, stores => (next (stores 0)).result fun i => stores (i + 1)

theorem result_read_eq_ok {S W E A β : Type} {q : S → Except E β} {next : β → Resumption S W E A}
    {stores : Nat → S} {a : A} (h : (read q next).result stores = .ok a) :
    ∃ b, q (stores 0) = .ok b ∧ (next b).result (fun i => stores (i + 1)) = .ok a := by
  rw [read, result] at h
  cases hq : q (stores 0) with
  | error e =>
    rw [hq] at h
    cases h
  | ok b =>
    rw [hq] at h
    exact ⟨b, rfl, h⟩

end Resumption

/-- What programs over a store may do, given facts that last. -/
structure Policy (K S W A : Type) [Preorder K] where
  /-- The store is as the facts say. -/
  good : K → S → Prop
  /-- The part of the store that a program may depend on. -/
  view : S → S
  allows : K → W → Prop
  /-- The value may be handed out. -/
  owns : K → A → Prop
  allows_mono : ∀ {k k' : K} {c : W}, k ≤ k' → allows k c → allows k' c
  owns_mono : ∀ {k k' : K} {a : A}, k ≤ k' → owns k a → owns k' a

namespace Policy

variable {K S W E A β : Type} [Preorder K] (P : Policy K S W A) {k k' : K}

def Blind {γ : Type} (k : K) (f : S → γ) : Prop :=
  ∀ k' s, k ≤ k' → P.good k' s → f s = f (P.view s)

/-- The program keeps to the policy from here on, whatever happens to the store meanwhile. -/
def Keeps : K → Resumption S W E A → Prop
  | k, .pure a => P.owns k a
  | _, .throw _ => True
  | k, .query next => P.Blind k next ∧ ∀ k' s, k ≤ k' → P.good k' s → Keeps k' (next s)
  | k, .write c next =>
    P.allows k c ∧ P.Blind k next ∧ ∀ k' s, k ≤ k' → P.good k' s → Keeps k' (next s)

variable {P}

theorem Blind.mono {γ : Type} {f : S → γ} (h : P.Blind k f) (hk : k ≤ k') : P.Blind k' f :=
  fun k₁ s h₁ => h k₁ s (le_trans hk h₁)

/-- Stores with one view give one value. -/
theorem Blind.eq {γ : Type} {f : S → γ} {k₁ k₂ : K} {s₁ s₂ : S} (h₁ : P.Blind k₁ f)
    (h₂ : P.Blind k₂ f) (hs₁ : P.good k₁ s₁) (hs₂ : P.good k₂ s₂) (h : P.view s₁ = P.view s₂) :
    f s₁ = f s₂ := by
  rw [h₁ k₁ s₁ (le_refl k₁) hs₁, h, ← h₂ k₂ s₂ (le_refl k₂) hs₂]

/-- A program that kept to the policy does so when more is known. -/
theorem Keeps.mono {m : Resumption S W E A} (h : P.Keeps k m) (hk : k ≤ k') : P.Keeps k' m := by
  cases m with
  | pure a => exact P.owns_mono hk h
  | throw e => trivial
  | query next => exact ⟨h.1.mono hk, fun k₁ s h₁ => h.2 k₁ s (le_trans hk h₁)⟩
  | write c next =>
    exact ⟨P.allows_mono hk h.1, h.2.1.mono hk, fun k₁ s h₁ => h.2.2 k₁ s (le_trans hk h₁)⟩

theorem keeps_read {q : S → Except E β} {next : β → Resumption S W E A} (hq : P.Blind k q)
    (hnext : ∀ k' s b, k ≤ k' → P.good k' s → q s = .ok b → P.Keeps k' (next b)) :
    P.Keeps k (.read q next) := by
  refine ⟨fun k' s hk hs => ?_, fun k' s hk hs => ?_⟩
  · dsimp only
    rw [hq k' s hk hs]
  · dsimp only
    cases hfound : q s with
    | error e => trivial
    | ok b => exact hnext k' s b hk hs hfound

end Policy
end Code2Cloud
