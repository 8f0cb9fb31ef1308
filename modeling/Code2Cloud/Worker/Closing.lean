import Code2Cloud.Worker.StreamLogger
import Mathlib.Data.List.Flatten

/-!
# Closing a logger

`Close` waits for the goroutines that are on their way and flushes after that, so the
goroutine of its own flush may still be on its way when it returns.
-/

namespace Code2Cloud
namespace Worker
namespace StreamLogger

open Api

/-- A call of one of the logger's methods other than `Close`. -/
def Event.calls : Event → Bool
  | .write _ | .log _ | .logWithSource _ _ | .flush | .setSource _ | .setPrefix _ => true
  | _ => false

variable (config : Config) (spare : List GoString → List GoString)

/-- The steps of a logger that is not called once `Close` has started. -/
def quietStep (s : State) (e : Event) : Option State :=
  if e.calls = true ∧ s.closing ≠ .running then none else step config spare s e

/-- The messages that `SendLogs` has been called with and has returned for. -/
def State.delivered (s : State) : List GoString :=
  (s.batches.filter fun batch => batch.phase = .returned).flatMap fun batch =>
    s.heap.read batch.logs

/-- When `Close` has returned, every message has been sent. -/
def CloseFlushes (s : State) : Prop := s.closing = .returned → s.logged = s.delivered

/-- The condition on a step: the last flush of `Close` finds an empty buffer, and what was handed
off after its wait has been sent. -/
def Drained (s : State) : Event → Prop
  | .close => s.closing = .waited → s.buffer.length = 0 ∧
      ∀ batch ∈ s.batches.drop s.waited, batch.phase = .returned
  | _ => True

instance (s : State) : (e : Event) → Decidable (Drained s e)
  | .close => inferInstanceAs (Decidable (_ → _ ∧ ∀ batch ∈ s.batches.drop s.waited, _))
  | .tick _ | .write _ | .log _ | .logWithSource _ _ | .flush | .setSource _ | .setPrefix _
  | .send _ | .save _ | .ret _ | .fire | .autoFlush | .exit => isTrue trivial

variable {config} {spare} {s s' : State}

/-- Leaving out lists that are not empty makes their concatenation shorter. -/
theorem append_eq_flatMap_filter_iff {α β : Type} {l : List α} {f : α → List β} {p : α → Bool}
    {rest : List β} (hf : ∀ x ∈ l, f x ≠ []) :
    l.flatMap f ++ rest = (l.filter p).flatMap f ↔ rest = [] ∧ ∀ x ∈ l, p x = true := by
  have hle : ∀ l : List α, ((l.filter p).flatMap f).length ≤ (l.flatMap f).length := by
    intro l
    exact (List.Sublist.flatMap List.filter_sublist f).length_le
  constructor
  · intro heq
    have hlength := congrArg List.length heq
    rw [List.length_append] at hlength
    have hrest : rest = [] := List.eq_nil_of_length_eq_zero (by have := hle l; omega)
    refine ⟨hrest, fun x hx => ?_⟩
    by_contra hp
    obtain ⟨before, after, rfl⟩ := List.append_of_mem hx
    rw [List.filter_append, List.filter_cons_of_neg hp, List.flatMap_append, List.flatMap_append,
      List.flatMap_cons, List.length_append, List.length_append, List.length_append] at hlength
    have hpos := List.length_pos_iff.mpr (hf x hx)
    have hbefore := hle before
    have hafter := hle after
    omega
  · rintro ⟨rfl, hall⟩
    rw [List.append_nil, List.filter_eq_self.mpr hall]

theorem logged_eq_delivered_iff (hs : Inv s) :
    s.logged = s.delivered ↔
      s.buffer.length = 0 ∧ ∀ batch ∈ s.batches, batch.phase = .returned := by
  have hdelivered : s.delivered =
      (s.batches.filter fun batch => batch.phase = .returned).flatMap (·.contents) :=
    List.flatMap_congr fun batch hbatch =>
      (hs.batches batch (List.mem_filter.mp hbatch).1).2.2
  rw [hs.logged, hdelivered, append_eq_flatMap_filter_iff hs.nonempty,
    Heap.read_eq_nil_iff hs.buffer]
  exact and_congr_right fun _ => forall₂_congr fun _ _ => decide_eq_true_iff

/-- Once `Close` has waited, the goroutines it has waited for are done. -/
def Settled (s : State) : Prop :=
  s.closing = .waited ∨ s.closing = .returned → ∀ i, i < s.waited →
    ∃ batch, s.batches[i]? = some batch ∧ (batch.source = none → batch.phase = .returned)

theorem Settled.goesOn (hs : Settled s) (h : GoesOn s s') (hwaited : s'.waited = s.waited)
    (hclosing : s'.closing = .waited ∨ s'.closing = .returned →
      s.closing = .waited ∨ s.closing = .returned) : Settled s' := by
  intro hs' i hi
  rw [hwaited] at hi
  obtain ⟨batch, hbatch, hreturned⟩ := hs (hclosing hs') i hi
  obtain ⟨phase, hbatch', hphase⟩ := h i batch hbatch
  exact ⟨_, hbatch', fun hsource => hphase (hreturned hsource)⟩

/-- What holds of a logger that is not called once `Close` has started. -/
structure QuietInv (config : Config) (s : State) : Prop where
  inv : Inv s
  room : Room config s
  settled : Settled s

theorem step_of_quietStep {e : Event} (h : quietStep config spare s e = some s') :
    step config spare s e = some s' ∧ (e.calls = true → s.closing = .running) := by
  rw [quietStep] at h
  split at h
  · cases h
  · rename_i hquiet
    rw [not_and, not_not] at hquiet
    exact ⟨h, hquiet⟩

theorem settled_closeStep (hs : Settled s) (h : closeStep s = some s') : Settled s' := by
  rw [closeStep] at h
  split at h
  · cases h
    rintro (hclosing | hclosing) <;> cases hclosing
  · cases h
    rintro (hclosing | hclosing) <;> cases hclosing
  · split at h
    · rename_i hidle
      cases h
      intro _ i hi
      exact ⟨s.batches[i], List.getElem?_eq_getElem hi, hidle _ (List.getElem_mem hi)⟩
    · cases h
  · rename_i hclosing
    split at h
    · cases h
      have hgoesOn : GoesOn s { s.flushLocked with closing := .returned } :=
        goesOn_flushLocked.trans (goesOn_of_eq rfl)
      exact hs.goesOn hgoesOn frame_flushLocked.2.1 fun _ => Or.inl hclosing
    · cases h
  · cases h

theorem quietInv_step {e : Event} (hs : QuietInv config s)
    (h : quietStep config spare s e = some s') : QuietInv config s' := by
  obtain ⟨hstep, _⟩ := step_of_quietStep h
  have hk := kept_step hs.inv hs.room hstep
  refine ⟨hk.inv, hk.room, ?_⟩
  by_cases he : e = .close
  · subst he
    exact settled_closeStep hs.settled hstep
  · obtain ⟨hclosing, hwaited⟩ := (frame_step hstep).1 he
    refine hs.settled.goesOn hk.goesOn hwaited ?_
    rw [hclosing]
    exact id

theorem flushLocked_of_empty (h : s.buffer.length = 0) : s.flushLocked = s := if_pos h

/-- Where everything has been sent, nothing is left to be done after `Close`. -/
theorem sent_step {e : Event} (hempty : s.buffer.length = 0)
    (hsent : ∀ batch ∈ s.batches, batch.phase = .returned)
    (h : step config spare s e = some s') (he : e ≠ .close) (hcalls : e.calls ≠ true) :
    s'.buffer.length = 0 ∧ ∀ batch ∈ s'.batches, batch.phase = .returned := by
  have hreturned : ∀ (i : Nat) (batch : Batch), s.batches[i]? = some batch →
      batch.phase = .returned :=
    fun i batch hi => hsent batch (List.mem_of_getElem? hi)
  cases e <;> simp only [step, lockedStep] at h
  case close => exact absurd rfl he
  case tick => cases h; exact ⟨hempty, hsent⟩
  case send i =>
    split at h
    · rename_i batch hi
      rw [hreturned i batch hi, if_neg Phase.noConfusion] at h
      cases h
    · cases h
  case save i =>
    split at h
    · rename_i batch call hi _
      rw [hreturned i batch hi] at h
      cases h
    · cases h
  case ret i =>
    split at h
    · rename_i batch hi
      rw [hreturned i batch hi, if_pos (Or.inr rfl)] at h
      cases h
    · cases h
  case fire =>
    split at h
    · cases h; exact ⟨hempty, hsent⟩
    · cases h
  case exit =>
    split at h
    · cases h; exact ⟨hempty, hsent⟩
    · cases h
  case autoFlush =>
    split at h
    · split at h
      · cases h
        split
        · rw [flushLocked_of_empty hempty]
          exact ⟨hempty, hsent⟩
        · exact ⟨hempty, hsent⟩
      · cases h
    · cases h
  all_goals exact absurd rfl hcalls

theorem closeFlushes_iff (hs : Inv s) : CloseFlushes s ↔
    (s.closing = .returned →
      s.buffer.length = 0 ∧ ∀ batch ∈ s.batches, batch.phase = .returned) := by
  rw [CloseFlushes, logged_eq_delivered_iff hs]

theorem closeFlushes_close (hs : QuietInv config s) (hclosing : s.closing = .waited)
    (h : closeStep s = some s') : CloseFlushes s' ↔ Drained s .close := by
  have hinv := (kept_closeStep hs.inv hs.room h).inv
  rw [closeFlushes_iff hinv]
  rw [closeStep, hclosing] at h
  simp only at h
  split at h
  · rename_i hfree
    cases h
    have hdone : ∀ batch ∈ s.batches.take s.waited, batch.phase = .returned := by
      intro batch hbatch
      obtain ⟨i, hi⟩ := List.mem_iff_getElem?.mp hbatch
      rw [List.getElem?_take] at hi
      split at hi
      · rename_i hlt
        obtain ⟨batch', hbatch', hreturned⟩ := hs.settled (Or.inl hclosing) i hlt
        rw [hi, Option.some.injEq] at hbatch'
        subst hbatch'
        by_cases hsource : batch.source = none
        · exact hreturned hsource
        · -- a direct call held the lock until it had returned
          rcases hs.inv.holder i batch hi hsource with hr | hheld
          · exact hr
          · rw [hfree] at hheld
            cases hheld
      · cases hi
    have hall : (∀ batch ∈ s.batches, batch.phase = .returned) ↔
        ∀ batch ∈ s.batches.drop s.waited, batch.phase = .returned := by
      constructor
      · exact fun h batch hbatch => h batch (List.mem_of_mem_drop hbatch)
      · intro h batch hbatch
        rw [← List.take_append_drop s.waited s.batches, List.mem_append] at hbatch
        exact hbatch.elim (hdone batch) (h batch)
    constructor
    · intro hflushed _
      obtain ⟨_, hsent⟩ := hflushed rfl
      by_cases hempty : s.buffer.length = 0
      · refine ⟨hempty, hall.mp ?_⟩
        simpa only [flushLocked_of_empty hempty] using hsent
      · -- the flush started a goroutine, which has not called `SendLogs` yet
        exfalso
        simp only [State.flushLocked, if_neg hempty] at hsent
        have hready := hsent _ (List.mem_append_right _ (List.mem_singleton_self _))
        cases hready
    · intro hdrained _
      obtain ⟨hempty, hsent⟩ := hdrained hclosing
      simp only [flushLocked_of_empty hempty]
      exact ⟨hempty, hall.mpr hsent⟩
  · cases h

theorem closeFlushes_step {e : Event} (hs : QuietInv config s) (hgood : CloseFlushes s)
    (h : quietStep config spare s e = some s') : CloseFlushes s' ↔ Drained s e := by
  obtain ⟨hstep, hquiet⟩ := step_of_quietStep h
  have hs' := quietInv_step hs h
  by_cases he : e = .close
  · subst he
    by_cases hclosing : s.closing = .waited
    · exact closeFlushes_close hs hclosing hstep
    · -- `Close` does not return with this step
      refine iff_of_true (fun hreturned => ?_) (fun h => absurd h hclosing)
      have hclose : closeStep s = some s' := hstep
      rw [closeStep] at hclose
      split at hclose
      · cases hclose
        cases hreturned
      · cases hclose
        cases hreturned
      · split at hclose
        · cases hclose
          cases hreturned
        · cases hclose
      · rename_i hw
        exact absurd hw hclosing
      · cases hclose
  · have hdrained : Drained s e := by
      cases e with
      | close => exact absurd rfl he
      | _ => trivial
    refine iff_of_true ?_ hdrained
    rw [closeFlushes_iff hs'.inv, ((frame_step hstep).1 he).1]
    intro hclosing
    obtain ⟨hempty, hsent⟩ := (closeFlushes_iff hs.inv).mp hgood hclosing
    refine sent_step hempty hsent hstep he fun hcalls => ?_
    rw [hquiet hcalls] at hclosing
    cases hclosing

/-- In every run of a logger that is not called once `Close` has started, every message has been
sent when `Close` returns if and only if its last flush finds an empty buffer and whatever the
timer handed off after the wait has been sent by then. -/
theorem close_flushes_iff (config : Config) (spare : List GoString → List GoString) (now : Nat)
    (es : List Event) (s : State)
    (h : runEvents (quietStep config spare) (State.initial config now) es = some s) :
    RunsUnder (quietStep config spare) Drained (State.initial config now) es ↔
      ∀ earlier t, earlier <+: es →
        runEvents (quietStep config spare) (State.initial config now) earlier = some t →
          CloseFlushes t := by
  refine runsUnder_iff_throughout Drained (QuietInv config) CloseFlushes
    (fun _ _ _ hs hstep => quietInv_step hs hstep)
    (fun _ _ _ hs hgood hstep => closeFlushes_step hs hgood hstep) h
    ⟨inv_initial now, room_initial now, ?_⟩ ?_
  · rintro (hclosing | hclosing) <;> cases hclosing
  · intro hclosing
    cases hclosing

/-- A run that hands off its only line before it closes. -/
def shopClosed : List Event :=
  [.log (utf8 "one"), .flush, .send 0, .ret 0, .close, .close, .close, .close]

theorem close_flushes_shop :
    ∃ s, runEvents (quietStep shopConfig fun _ => []) (State.initial shopConfig 0) shopClosed =
        some s ∧
      ∀ earlier t, earlier <+: shopClosed →
        runEvents (quietStep shopConfig fun _ => []) (State.initial shopConfig 0) earlier =
          some t → CloseFlushes t := by
  have hrun : (runEvents (quietStep shopConfig fun _ => []) (State.initial shopConfig 0)
      shopClosed).isSome = true := by decide
  obtain ⟨s, hs⟩ := Option.isSome_iff_exists.mp hrun
  exact ⟨s, hs, (close_flushes_iff shopConfig (fun _ => []) 0 shopClosed s hs).mp
    (by decide)⟩

instance (s : State) : Decidable (CloseFlushes s) :=
  inferInstanceAs (Decidable (s.closing = .returned → s.logged = s.delivered))

/-- One line that is still in the buffer when `Close` has waited. -/
theorem not_close_flushes :
    ¬∀ (config : Config) (spare : List GoString → List GoString) (now : Nat) (es : List Event)
      (s : State),
      runEvents (quietStep config spare) (State.initial config now) es = some s →
        CloseFlushes s := by
  intro h
  have hrun : (runEvents (quietStep shopConfig fun _ => []) (State.initial shopConfig 0)
      [.log (utf8 "one"), .close, .close, .close, .close]).any (fun s =>
        !decide (CloseFlushes s)) = true := by decide
  rw [Option.any_eq_true] at hrun
  obtain ⟨s, hs, hend⟩ := hrun
  rw [Bool.not_eq_true', decide_eq_false_iff_not] at hend
  exact hend (h shopConfig (fun _ => []) 0 _ s hs)

end StreamLogger
end Worker
end Code2Cloud
