import Mathlib.Tactic.TypeStar

/-!
# Reachable states

A partial step function on states and events, the states that runs lead to when every
step meets a condition, and the rule that carries an invariant along such runs.
-/

namespace Code2Cloud

variable {S E : Type*} (step : S → E → Option S)

/-- `b` is the end of a run from `a` each step of which meets `ok`. -/
inductive Reaches (ok : S → E → Prop) (a : S) : S → Prop
  | refl : Reaches ok a a
  | step {b c : S} {e : E} : Reaches ok a b → ok b e → step b e = some c → Reaches ok a c

def runEvents (s : S) : List E → Option S
  | [] => some s
  | e :: es =>
    match step s e with
    | none => none
    | some s' => runEvents s' es

/-- Every step of a list of events meets `ok`. -/
def RunsUnder (ok : S → E → Prop) (s : S) : List E → Prop
  | [] => True
  | e :: es =>
    ok s e ∧
      match step s e with
      | none => True
      | some s' => RunsUnder ok s' es

instance decidableRunsUnder (ok : S → E → Prop) [∀ s e, Decidable (ok s e)] :
    (s : S) → (es : List E) → Decidable (RunsUnder step ok s es)
  | _, [] => isTrue trivial
  | s, e :: es => by
    have : Decidable (match step s e with
        | none => True
        | some s' => RunsUnder step ok s' es) :=
      match step s e with
      | none => isTrue trivial
      | some s' => decidableRunsUnder ok s' es
    exact instDecidableAnd

/-! ## Ledgers -/

/-- The step function with a ledger beside the state, in which every step is noted. -/
def stepNoting {L : Type*} (note : S → E → S → L → L) (x : S × L) (e : E) : Option (S × L) :=
  (step x.1 e).map fun s' => (s', note x.1 e s' x.2)

theorem stepNoting_eq_some_iff {L : Type*} {step : S → E → Option S} {note : S → E → S → L → L}
    {x y : S × L} {e : E} :
    stepNoting step note x e = some y ↔ step x.1 e = some y.1 ∧ y.2 = note x.1 e y.1 x.2 := by
  rw [stepNoting, Option.map_eq_some_iff]
  constructor
  · rintro ⟨s', hs', rfl⟩
    exact ⟨hs', rfl⟩
  · rintro ⟨hs', hnote⟩
    exact ⟨y.1, hs', Prod.ext rfl hnote.symm⟩

namespace Reaches

variable {step} {ok : S → E → Prop} {a b : S}

/-- An invariant that every admitted step preserves holds where the run ends. -/
theorem invariant (h : Reaches step ok a b) (Inv : S → Prop) (ha : Inv a)
    (hstep : ∀ s e s', Inv s → ok s e → step s e = some s' → Inv s') : Inv b := by
  induction h with
  | refl => exact ha
  | step _ hok hs ih => exact hstep _ _ _ ih hok hs

theorem mono {ok' : S → E → Prop} (h : Reaches step ok a b) (hok : ∀ s e, ok s e → ok' s e) :
    Reaches step ok' a b := by
  induction h with
  | refl => exact .refl
  | step _ h hs ih => exact .step ih (hok _ _ h) hs

theorem trans {c : S} (h : Reaches step ok a b) (h' : Reaches step ok b c) :
    Reaches step ok a c := by
  induction h' with
  | refl => exact h
  | step _ hok hs ih => exact .step ih hok hs

/-- A run that was performed and whose steps all met a condition reaches its end under it. -/
theorem of_runEvents {s s' : S} {es : List E} (h : runEvents step s es = some s')
    (hok : RunsUnder step ok s es) : Reaches step ok s s' := by
  induction es generalizing s with
  | nil =>
    rw [runEvents, Option.some.injEq] at h
    exact h ▸ .refl
  | cons e es ih =>
    rw [runEvents] at h
    rw [RunsUnder] at hok
    cases hs : step s e with
    | none => simp [hs] at h
    | some t =>
      rw [hs] at h hok
      exact (Reaches.step refl hok.1 hs).trans (ih h hok.2)

/-- What a run that was performed shows of its end. -/
theorem exists_of_runEvents (step : S → E → Option S) (ok : S → E → Prop) (s : S) (es : List E)
    (p : S → Bool) (h : (runEvents step s es).any p = true) (hok : RunsUnder step ok s es) :
    ∃ s', Reaches step ok s s' ∧ p s' = true := by
  rw [Option.any_eq_true] at h
  obtain ⟨s', hs', hp⟩ := h
  exact ⟨s', of_runEvents hs' hok, hp⟩

end Reaches

theorem runsUnder_true (s : S) (es : List E) : RunsUnder step (fun _ _ => True) s es := by
  induction es generalizing s with
  | nil => trivial
  | cons e es ih =>
    rw [RunsUnder]
    refine ⟨trivial, ?_⟩
    cases step s e with
    | none => trivial
    | some t => exact ih t

/-- An invariant holds as long as every step meets the condition.  Where a step that does not
leads to a state from which no step recovers, a run ends well exactly if all of its steps met
the condition. -/
theorem runsUnder_or_bad {step : S → E → Option S} (ok : S → E → Prop) (Inv Bad : S → Prop)
    (hgood : ∀ s e s', Inv s → ok s e → step s e = some s' → Inv s')
    (hbreak : ∀ s e s', Inv s → ¬ok s e → step s e = some s' → Bad s')
    (hbad : ∀ s e s', Bad s → step s e = some s' → Bad s')
    {s s' : S} {es : List E} (h : runEvents step s es = some s') (hinv : Inv s) :
    RunsUnder step ok s es ∧ Inv s' ∨ ¬RunsUnder step ok s es ∧ Bad s' := by
  induction es generalizing s with
  | nil =>
    rw [runEvents, Option.some.injEq] at h
    exact Or.inl ⟨trivial, h ▸ hinv⟩
  | cons e es ih =>
    rw [runEvents] at h
    rw [RunsUnder]
    cases hs : step s e with
    | none => simp [hs] at h
    | some t =>
      rw [hs] at h
      by_cases hok : ok s e
      · rcases ih h (hgood s e t hinv hok hs) with ⟨hrun, hend⟩ | ⟨hrun, hend⟩
        · exact Or.inl ⟨⟨hok, hrun⟩, hend⟩
        · exact Or.inr ⟨fun hall => hrun hall.2, hend⟩
      · refine Or.inr ⟨fun hall => hok hall.1, ?_⟩
        have ht : Bad t := hbreak s e t hinv hok hs
        exact (Reaches.of_runEvents h (runsUnder_true step t es)).invariant Bad ht
          fun s e s' hs' _ => hbad s e s' hs'

/-- Allowed steps from good states lead to good states, and what good states show is shown after
other steps no longer: every state of a run shows it exactly if its steps are all allowed. -/
theorem runsUnder_iff_shown {step : S → E → Option S} (ok : S → E → Prop)
    (Inv Good Shown : S → Prop) (hinv : ∀ s e s', Inv s → step s e = some s' → Inv s')
    (hshown : ∀ s, Inv s → Good s → Shown s)
    (hgood : ∀ s e s', Inv s → Good s → ok s e → step s e = some s' → Good s')
    (hok : ∀ s e s', Inv s → Good s → step s e = some s' → Shown s' → ok s e)
    {s s' : S} {es : List E} (hrun : runEvents step s es = some s') (hi : Inv s) (hg : Good s) :
    RunsUnder step ok s es ↔
      ∀ earlier t, earlier <+: es → runEvents step s earlier = some t → Shown t := by
  induction es generalizing s with
  | nil =>
    refine ⟨fun _ earlier t hearlier ht => ?_, fun _ => trivial⟩
    rw [List.prefix_nil.mp hearlier] at ht
    cases ht
    exact hshown s hi hg
  | cons e es ih =>
    rw [runEvents] at hrun
    cases hstep : step s e with
    | none =>
      rw [hstep] at hrun
      cases hrun
    | some u =>
      rw [hstep] at hrun
      have hu := hinv s e u hi hstep
      have hlater (earlier : List E) : runEvents step s (e :: earlier) =
          runEvents step u earlier := by rw [runEvents, hstep]
      rw [RunsUnder, hstep]
      constructor
      · rintro ⟨hok, hunder⟩ earlier t hearlier ht
        rcases List.prefix_cons_iff.mp hearlier with rfl | ⟨rest, rfl, hrest⟩
        · cases ht
          exact hshown s hi hg
        · rw [hlater] at ht
          exact (ih hrun hu (hgood s e u hi hg hok hstep)).mp hunder rest t hrest ht
      · intro hthroughout
        have hsu : Shown u :=
          hthroughout [e] u (List.prefix_cons_inj e |>.mpr es.nil_prefix) (hlater [])
        have hallowed := hok s e u hi hg hstep hsu
        refine ⟨hallowed, (ih hrun hu (hgood s e u hi hg hallowed hstep)).mpr
          fun earlier t hearlier ht => ?_⟩
        exact hthroughout (e :: earlier) t ((List.prefix_cons_inj e).mpr hearlier)
          ((hlater earlier).trans ht)

/-- Where a step from a good state leads to a good one exactly if it is allowed, the states of a run
are all good exactly if its steps are all allowed. -/
theorem runsUnder_iff_throughout {step : S → E → Option S} (ok : S → E → Prop)
    (Inv Good : S → Prop) (hinv : ∀ s e s', Inv s → step s e = some s' → Inv s')
    (hgood : ∀ s e s', Inv s → Good s → step s e = some s' → (Good s' ↔ ok s e))
    {s s' : S} {es : List E} (hrun : runEvents step s es = some s') (hi : Inv s) (hg : Good s) :
    RunsUnder step ok s es ↔
      ∀ earlier t, earlier <+: es → runEvents step s earlier = some t → Good t :=
  runsUnder_iff_shown ok Inv Good Good hinv (fun _ _ hg => hg)
    (fun s e s' hi hg hok hstep => (hgood s e s' hi hg hstep).mpr hok)
    (fun s e s' hi hg hstep => (hgood s e s' hi hg hstep).mp) hrun hi hg

/-- Where every step keeps what is good exactly if it is allowed and repairs nothing, a run from a
good state ends in one exactly if all of its steps were allowed. -/
theorem good_iff_runsUnder {step : S → E → Option S} (ok : S → E → Prop) (Inv Good : S → Prop)
    (hstep : ∀ s e s', Inv s → step s e = some s' → Inv s' ∧ (Good s' ↔ Good s ∧ ok s e))
    {s s' : S} {es : List E} (hrun : runEvents step s es = some s') (hs : Inv s) :
    Inv s' ∧ (Good s' ↔ Good s ∧ RunsUnder step ok s es) := by
  induction es generalizing s with
  | nil =>
    cases hrun
    exact ⟨hs, (and_iff_left trivial).symm⟩
  | cons e es ih =>
    rw [runEvents] at hrun
    cases ht : step s e with
    | none => simp [ht] at hrun
    | some t =>
      rw [ht] at hrun
      obtain ⟨hinv, hgood⟩ := hstep s e t hs ht
      obtain ⟨hinv', hiff⟩ := ih hrun hinv
      refine ⟨hinv', hiff.trans ?_⟩
      rw [hgood, RunsUnder, ht, and_assoc]

end Code2Cloud
