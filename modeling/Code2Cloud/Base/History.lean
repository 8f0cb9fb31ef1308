import Code2Cloud.Base.Reach

/-!
# The states of a run

A run that keeps the states it leaves, the last one first, and what the state it has come to
owes to them.
-/

namespace Code2Cloud

variable {S E : Type*} {step : S → E → Option S}

/-- The step function with the states that were left beside the state. -/
def recording (step : S → E → Option S) : S × List S → E → Option (S × List S) :=
  stepNoting step fun s _ _ past => s :: past

def Visited (x : S × List S) (s : S) : Prop := s ∈ x.1 :: x.2

variable {a s : S} {x y : S × List S} {e : E}

theorem recording_eq_some_iff :
    recording step x e = some y ↔ step x.1 e = some y.1 ∧ y.2 = x.1 :: x.2 :=
  stepNoting_eq_some_iff

namespace Visited

theorem self (x : S × List S) : Visited x x.1 := List.mem_cons_self

theorem later (h : Visited x s) (hstep : recording step x e = some y) : Visited y s := by
  rw [Visited, (recording_eq_some_iff.mp hstep).2]
  exact List.mem_cons_of_mem _ h

end Visited

namespace Reaches

variable {ok : S → E → Prop}

theorem recorded {b : S} (h : Reaches step ok a b) :
    ∃ past, Reaches (recording step) (fun _ _ => True) (a, []) (b, past) := by
  induction h with
  | refl => exact ⟨[], .refl⟩
  | step _ _ hs ih =>
    obtain ⟨past, hpast⟩ := ih
    exact ⟨_, .step hpast trivial (recording_eq_some_iff.mpr ⟨hs, rfl⟩)⟩

theorem of_visited (h : Reaches (recording step) (fun _ _ => True) (a, []) x) (hs : Visited x s) :
    Reaches step (fun _ _ => True) a s ∧ Reaches step (fun _ _ => True) s x.1 := by
  induction h generalizing s with
  | refl =>
    obtain rfl := List.mem_singleton.mp hs
    exact ⟨.refl, .refl⟩
  | @step x y e hx _ hstep ih =>
    obtain ⟨hstep, hpast⟩ := recording_eq_some_iff.mp hstep
    rw [Visited, hpast, List.mem_cons] at hs
    rcases hs with rfl | hs
    · exact ⟨.step (ih (.self x)).1 trivial hstep, .refl⟩
    · exact ⟨(ih hs).1, .step (ih hs).2 trivial hstep⟩

/-- An invariant whose steps may use that the state was reached. -/
theorem invariant_reached {Inv : S → Prop} {b : S} (h : Reaches step (fun _ _ => True) a b)
    (ha : Inv a)
    (hstep : ∀ s e s', Reaches step (fun _ _ => True) a s → Inv s → step s e = some s' → Inv s') :
    Inv b := by
  induction h with
  | refl => exact ha
  | step hb _ hs ih => exact hstep _ _ _ hb ih hs

end Reaches

end Code2Cloud
