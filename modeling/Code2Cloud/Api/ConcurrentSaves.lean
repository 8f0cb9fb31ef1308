import Code2Cloud.Api.Schema
import Code2Cloud.Base.Reach
import Code2Cloud.Base.ReadCommitted

/-!
# Concurrent saves

Two calls of `EnvVarsService.saveAll` for one project, whose transactions run at once: each deletes
the rows of the project that it sees, inserts its own and updates the project.
-/

namespace Code2Cloud
namespace Api
namespace EnvVarsService

open ReadCommitted

inductive Saver
  | first | second
  deriving DecidableEq

def Saver.other : Saver → Saver
  | first => second
  | second => first

theorem Saver.eq_other {t u : Saver} (h : u ≠ t) : u = t.other := by
  cases u <;> cases t <;> first | rfl | exact absurd rfl h

theorem Saver.other_ne (t : Saver) : t.other ≠ t := by
  cases t <;> decide

/-- The statement that a transaction executes next, or how it ended. -/
inductive Phase
  | deleteMany
  /-- `deleteMany` has selected its rows. -/
  | deleting
  | createMany
  | update
  /-- The project's row is locked. -/
  | commit
  | succeeded
  | failed
  deriving DecidableEq

def Phase.status : Phase → Status
  | succeeded => .committed
  | failed => .aborted
  | _ => .active

structure Saves where
  versions : List (Version Saver EnvironmentVariable)
  first : Phase := .deleteMany
  second : Phase := .deleteMany
  deriving DecidableEq

inductive SaveEvent
  /-- A call executes its next statement, as far as it need not wait. -/
  | go (t : Saver)
  /-- A call ends with an error: a connection, a timeout or a deadlock. -/
  | fail (t : Saver)

namespace Saves

def phase (x : Saves) : Saver → Phase
  | .first => x.first
  | .second => x.second

def status (x : Saves) (t : Saver) : Status := (x.phase t).status

def enter (x : Saves) (p : Phase) : Saver → Saves
  | .first => { x with first := p }
  | .second => { x with second := p }

def write (x : Saves) (p : Phase) (t : Saver) (vs : List (Version Saver EnvironmentVariable)) :
    Saves :=
  { x.enter p t with versions := vs }

def start (stored : List EnvironmentVariable) : Saves :=
  { versions := stored.map fun row => { row } }

def rows (x : Saves) : List EnvironmentVariable :=
  (x.versions.filter (Version.stored x.status)).map (·.row)

variable (saved : Saver → List EnvironmentVariable)

/-- What two transactions may do, given the rows that each of them inserts. -/
def step (x : Saves) : SaveEvent → Option Saves
  | .go t =>
    match x.phase t with
    | .deleteMany =>
      some (x.write .deleting t (x.versions.map (Version.select x.status t)))
    | .deleting =>
      if deletionWaits x.status t x.versions then none
      else some (x.write .createMany t (x.versions.map (Version.delete x.status t)))
    | .createMany =>
      if insertionWaits x.status t x.versions (·.key) (saved t) then none
      else if insertionFails x.status t x.versions (·.key) (saved t) then
        some (x.enter .failed t)
      else some (x.write .update t (insert t x.versions (saved t)))
    | .update => if x.phase t.other = .commit then none else some (x.enter .commit t)
    | .commit => some (x.enter .succeeded t)
    | .succeeded | .failed => none
  | .fail t => if x.status t = .active then some (x.enter .failed t) else none

def Finished (x : Saves) : Prop := ∀ t, x.status t ≠ .active

/-- If a call succeeded, the rows in the table are those of a call that did. -/
def Serial (x : Saves) : Prop :=
  ∀ t, x.phase t = .succeeded → ∃ u, x.phase u = .succeeded ∧ x.rows.Perm (saved u)

/-! ## What holds in every state -/

def Past (p : Phase) : Prop := p = .createMany ∨ p = .update ∨ p = .commit ∨ p = .succeeded

def Written (p : Phase) : Prop := p = .update ∨ p = .commit ∨ p = .succeeded

def Removed (x : Saves) (v : Version Saver EnvironmentVariable) : Prop :=
  ∃ u, v.deleter = some u ∧ x.status u = .committed

structure Sound (x : Saves) : Prop where
  /-- No transaction selects what it inserts. -/
  own : ∀ v ∈ x.versions, ∀ t ∈ v.selected, v.creator ≠ some t
  /-- What is deleted was selected. -/
  chosen : ∀ v ∈ x.versions, ∀ t, v.deleter = some t → t ∈ v.selected
  begun : ∀ v ∈ x.versions, ∀ t ∈ v.selected, x.phase t ≠ .deleteMany
  /-- What was selected is deleted. -/
  past : ∀ v ∈ x.versions, ∀ t ∈ v.selected, Past (x.phase t) → v.deleter = some t ∨ x.Removed v
  /-- Old rows were selected. -/
  old : ∀ v ∈ x.versions, v.creator = none → ∀ t, x.phase t ≠ .deleteMany → x.phase t ≠ .failed →
    t ∈ v.selected ∨ x.Removed v
  /-- What was selected was committed before. -/
  after : ∀ v ∈ x.versions, ∀ t ∈ v.selected, ∀ u, v.creator = some u → x.phase u = .succeeded
  /-- A transaction selects all rows of another, or none. -/
  whole : ∀ v ∈ x.versions, ∀ v' ∈ x.versions, ∀ t ∈ v.selected, ∀ u, v.creator = some u →
    v'.creator = some u → t ∈ v'.selected ∨ x.Removed v'
  /-- Two transactions do not select each other's rows. -/
  oneWay : ∀ v ∈ x.versions, ∀ v' ∈ x.versions, ∀ t ∈ v.selected, ∀ u ∈ v'.selected,
    v.creator = some u → v'.creator ≠ some t
  unwritten : ∀ t, x.phase t = .deleteMany ∨ x.phase t = .deleting ∨ x.phase t = .createMany →
    ∀ v ∈ x.versions, v.creator ≠ some t
  written : ∀ t, Written (x.phase t) →
    (x.versions.filter fun v => v.creator = some t).map (·.row) = saved t
  unique : Unique x.status (·.key) x.versions

variable {saved} {x y : Saves} {t : Saver}

@[simp] theorem versions_enter (x : Saves) (p : Phase) (t : Saver) :
    (x.enter p t).versions = x.versions := by
  cases t <;> rfl

theorem phase_enter (x : Saves) (p : Phase) (t u : Saver) :
    (x.enter p t).phase u = if u = t then p else x.phase u := by
  cases t <;> cases u <;> rfl

theorem phase_enter_ne (x : Saves) (p : Phase) {t u : Saver} (h : u ≠ t) :
    (x.enter p t).phase u = x.phase u := by
  rw [phase_enter, if_neg h]

theorem status_enter_ended (x : Saves) (p : Phase) {t u : Saver} (h : x.status t = .active)
    (hu : x.status u ≠ .active) : (x.enter p t).status u = x.status u := by
  have hne : u ≠ t := by
    rintro rfl
    exact hu h
  rw [status, phase_enter_ne x p hne, status]

theorem sound_start (stored : List EnvironmentVariable) : Sound saved (start stored) := by
  have hnew : ∀ v ∈ (start stored).versions,
      v.creator = none ∧ v.deleter = none ∧ v.selected = [] := by
    intro v hv
    obtain ⟨row, _, rfl⟩ := List.mem_map.mp hv
    exact ⟨rfl, rfl, rfl⟩
  have hselected {v : Version Saver EnvironmentVariable} (hv : v ∈ (start stored).versions)
      {t : Saver} (ht : t ∈ v.selected) : False := by
    rw [(hnew v hv).2.2] at ht
    exact List.not_mem_nil ht
  have hphase (t : Saver) : (start stored).phase t = .deleteMany := by cases t <;> rfl
  refine ⟨fun v hv t ht => (hselected hv ht).elim, fun v hv t ht => ?_,
    fun v hv t ht => (hselected hv ht).elim, fun v hv t ht => (hselected hv ht).elim,
    fun v hv _ t ht => absurd (hphase t) ht, fun v hv t ht => (hselected hv ht).elim,
    fun v hv v' _ t ht => (hselected hv ht).elim, fun v hv v' _ t ht => (hselected hv ht).elim,
    fun t _ v hv ht => ?_, fun t ht => ?_, ?_⟩
  · rw [(hnew v hv).2.1] at ht
    cases ht
  · rw [(hnew v hv).1] at ht
    cases ht
  · rw [hphase] at ht
    rcases ht with h | h | h <;> cases h
  · exact List.pairwise_map.mpr (List.pairwise_of_forall fun _ _ a _ ha => by cases ha)

theorem Removed.mono {v : Version Saver EnvironmentVariable} (h : x.Removed v)
    (hended : ∀ u, x.status u ≠ .active → y.status u = x.status u) : y.Removed v := by
  obtain ⟨u, hu, hs⟩ := h
  exact ⟨u, hu, by rw [hended u (by rw [hs]; decide), hs]⟩

/-- A transaction that goes on without changing a version. -/
theorem sound_enter (h : Sound saved x) {p : Phase} (hactive : x.status t = .active)
    (hp : p = .failed ∨ Written p ∧ Written (x.phase t)) : Sound saved (x.enter p t) := by
  have hended (u : Saver) (hu : x.status u ≠ .active) : (x.enter p t).status u = x.status u :=
    x.status_enter_ended p hactive hu
  have hremoved {v : Version Saver EnvironmentVariable} (hv : x.Removed v) :
      (x.enter p t).Removed v := hv.mono hended
  have hlater (u : Saver) {q : Phase} (hq : (x.enter p t).phase u = q)
      (hne : p ≠ q) : x.phase u = q := by
    rw [phase_enter] at hq
    split at hq
    · exact absurd hq hne
    · exact hq
  have hstart : p ≠ .deleteMany ∧ p ≠ .deleting ∧ p ≠ .createMany := by
    rcases hp with rfl | ⟨rfl | rfl | rfl, _⟩ <;> decide
  have hwas {P : Phase → Prop} (hP : P p → P (x.phase t)) {u : Saver}
      (hu : P ((x.enter p t).phase u)) : P (x.phase u) := by
    rw [phase_enter] at hu
    split at hu
    · rename_i heq
      exact heq ▸ hP hu
    · exact hu
  constructor
  all_goals rw [versions_enter]
  · exact h.own
  · exact h.chosen
  · exact fun v hv u hu hphase => h.begun v hv u hu (hlater u hphase hstart.1)
  · intro v hv u hu hpast
    refine (h.past v hv u hu (hwas (fun hp' => ?_) hpast)).imp id hremoved
    rcases hp with rfl | ⟨_, hw⟩
    · rcases hp' with hp' | hp' | hp' | hp' <;> cases hp'
    · exact Or.inr hw
  · intro v hv hnone u hu hu'
    have hboth : x.phase u ≠ .deleteMany ∧ x.phase u ≠ .failed := by
      refine hwas (P := fun q => q ≠ .deleteMany ∧ q ≠ .failed) (fun hp' => ?_) ⟨hu, hu'⟩
      rcases hp with rfl | ⟨_, hw⟩
      · exact absurd rfl hp'.2
      · rcases hw with hw | hw | hw <;> rw [hw] <;> decide
    exact (h.old v hv hnone u hboth.1 hboth.2).imp id hremoved
  · intro v hv u hu w hw
    have hsucceeded := h.after v hv u hu w hw
    have hne : w ≠ t := by
      rintro rfl
      rw [status, hsucceeded] at hactive
      cases hactive
    rw [phase_enter_ne x p hne, hsucceeded]
  · intro v hv v' hv' u hu w hw hw'
    exact (h.whole v hv v' hv' u hu w hw hw').imp id hremoved
  · exact h.oneWay
  · intro u hu
    refine h.unwritten u ?_
    rcases hu with hu | hu | hu
    · exact Or.inl (hlater u hu hstart.1)
    · exact Or.inr (Or.inl (hlater u hu hstart.2.1))
    · exact Or.inr (Or.inr (hlater u hu hstart.2.2))
  · intro u hu
    refine h.written u (hwas (fun hp' => ?_) hu)
    rcases hp with rfl | ⟨_, hw⟩
    · rcases hp' with hp' | hp' | hp' <;> cases hp'
    · exact hw
  · exact h.unique.mono hended

/-- The phases of the other transactions, and those that a transaction has left. -/
@[simp] theorem versions_write (x : Saves) (p : Phase) (t : Saver)
    (vs : List (Version Saver EnvironmentVariable)) : (x.write p t vs).versions = vs := rfl

theorem phase_write (x : Saves) (p : Phase) (t u : Saver)
    (vs : List (Version Saver EnvironmentVariable)) :
    (x.write p t vs).phase u = if u = t then p else x.phase u := by
  cases t <;> cases u <;> rfl

theorem phase_write_ne {u : Saver} (h : u ≠ t) (p : Phase)
    (vs : List (Version Saver EnvironmentVariable)) : (x.write p t vs).phase u = x.phase u := by
  rw [phase_write, if_neg h]

theorem phase_write_self (x : Saves) (p : Phase) (t : Saver)
    (vs : List (Version Saver EnvironmentVariable)) : (x.write p t vs).phase t = p := by
  rw [phase_write, if_pos rfl]

theorem status_write {p : Phase} (h : p.status = x.status t)
    (vs : List (Version Saver EnvironmentVariable)) : (x.write p t vs).status = x.status := by
  funext u
  rw [status, phase_write]
  split
  · rename_i hu
    rw [hu, h]
  · rfl

theorem status_eq_committed {u : Saver} : x.status u = .committed ↔ x.phase u = .succeeded := by
  rw [status]
  cases x.phase u <;> decide

section Kept

variable {f : Version Saver EnvironmentVariable → Version Saver EnvironmentVariable} {p : Phase}

/-- Statements that keep who inserted a row keep what each transaction wrote. -/
theorem written_map (hcreator : ∀ v, (f v).creator = v.creator) (hrow : ∀ v, (f v).row = v.row)
    (t : Saver) (vs : List (Version Saver EnvironmentVariable)) :
    ((vs.map f).filter fun v => v.creator = some t).map (·.row) =
      (vs.filter fun v => v.creator = some t).map (·.row) := by
  rw [List.filter_map, List.map_map]
  have hpred : ((fun v : Version Saver EnvironmentVariable => decide (v.creator = some t)) ∘ f) =
      fun v => decide (v.creator = some t) := by
    funext v
    rw [Function.comp_apply, hcreator v]
  rw [hpred]
  exact List.map_congr_left fun v _ => hrow v

theorem written_write (h : Sound saved x) (hcreator : ∀ v, (f v).creator = v.creator)
    (hrow : ∀ v, (f v).row = v.row) (hp : ¬Written p) (u : Saver)
    (hu : Written ((x.write p t (x.versions.map f)).phase u)) :
    ((x.versions.map f).filter fun v => v.creator = some u).map (·.row) = saved u := by
  have hne : u ≠ t := by
    rintro rfl
    rw [phase_write_self] at hu
    exact hp hu
  rw [phase_write_ne hne] at hu
  exact (written_map hcreator hrow u x.versions).trans (h.written u hu)

theorem unwritten_write (h : Sound saved x) (hcreator : ∀ v, (f v).creator = v.creator)
    (ht : x.phase t = .deleteMany ∨ x.phase t = .deleting ∨ x.phase t = .createMany) (u : Saver)
    (hu : (x.write p t (x.versions.map f)).phase u = .deleteMany ∨
      (x.write p t (x.versions.map f)).phase u = .deleting ∨
      (x.write p t (x.versions.map f)).phase u = .createMany) :
    ∀ v ∈ x.versions.map f, v.creator ≠ some u := by
  refine List.forall_mem_map.mpr fun v hv => ?_
  rw [hcreator]
  by_cases heq : u = t
  · exact heq ▸ h.unwritten t ht v hv
  · rw [phase_write_ne heq] at hu
    exact h.unwritten u hu v hv

end Kept

theorem sound_select (h : Sound saved x) (ht : x.phase t = .deleteMany) :
    Sound saved (x.write .deleting t (x.versions.map (Version.select x.status t))) := by
  have hstatus : (x.write .deleting t (x.versions.map (Version.select x.status t))).status =
      x.status := status_write (by rw [status, ht]; rfl) _
  have hnew {v : Version Saver EnvironmentVariable} (hv : v ∈ x.versions) : t ∉ v.selected :=
    fun hmem => h.begun v hv t hmem ht
  have hnone {v : Version Saver EnvironmentVariable} (hv : v ∈ x.versions) : v.creator ≠ some t :=
    h.unwritten t (Or.inl ht) v hv
  -- what is not selected was deleted before
  have hselected {v : Version Saver EnvironmentVariable} (hv : v ∈ x.versions)
      (hinserted : v.inserted x.status t = true) :
      t ∈ (v.select x.status t).selected ∨ x.Removed v := by
    cases hdeleted : v.deleted x.status t with
    | false =>
      refine Or.inl (mem_selected_select.mpr (Or.inl ⟨rfl, ?_⟩))
      rw [Version.visible, hinserted, hdeleted]
      rfl
    | true =>
      refine Or.inr ((deleted_iff.mp hdeleted).resolve_left fun hown => ?_)
      exact hnew hv (h.chosen v hv t hown)
  have hcommitted {v : Version Saver EnvironmentVariable} (hv : v ∈ x.versions) {u : Saver}
      (hu : v.creator = some u) (hvisible : v.visible x.status t = true) :
      x.phase u = .succeeded := by
    rw [Version.visible, Bool.and_eq_true, Version.inserted, hu, Option.all_some,
      decide_eq_true_eq] at hvisible
    exact status_eq_committed.mp (hvisible.1.resolve_left fun heq => hnone hv (heq ▸ hu))
  have hphase {u : Saver} (hu : u ≠ t) :
      (x.write .deleting t (x.versions.map (Version.select x.status t))).phase u = x.phase u :=
    phase_write_ne hu _ _
  have hself := x.phase_write_self .deleting t (x.versions.map (Version.select x.status t))
  constructor
  all_goals try rw [versions_write]
  case own =>
    refine List.forall_mem_map.mpr fun v hv u hu => ?_
    rw [Version.creator_select]
    rcases mem_selected_select.mp hu with ⟨rfl, _⟩ | hu
    · exact hnone hv
    · exact h.own v hv u hu
  case chosen =>
    refine List.forall_mem_map.mpr fun v hv u hu => ?_
    rw [Version.deleter_select] at hu
    exact mem_selected_select.mpr (Or.inr (h.chosen v hv u hu))
  case begun =>
    refine List.forall_mem_map.mpr fun v hv u hu => ?_
    rcases mem_selected_select.mp hu with ⟨rfl, _⟩ | hu
    · rw [hself]
      decide
    · rw [hphase fun heq => hnew hv (heq ▸ hu)]
      exact h.begun v hv u hu
  case past =>
    refine List.forall_mem_map.mpr fun v hv u hu hpast => ?_
    rw [Removed, Version.deleter_select, hstatus]
    rcases mem_selected_select.mp hu with ⟨rfl, _⟩ | hu
    · rw [hself] at hpast
      rcases hpast with hp | hp | hp | hp <;> cases hp
    · rw [hphase fun heq => hnew hv (heq ▸ hu)] at hpast
      exact h.past v hv u hu hpast
  case old =>
    refine List.forall_mem_map.mpr fun v hv hold u hu hu' => ?_
    rw [Version.creator_select] at hold
    rw [Removed, Version.deleter_select, hstatus]
    by_cases heq : u = t
    · subst heq
      exact hselected hv (by rw [Version.inserted, hold]; rfl)
    · rw [hphase heq] at hu hu'
      exact (h.old v hv hold u hu hu').imp_left fun hmem => mem_selected_select.mpr (Or.inr hmem)
  case after =>
    refine List.forall_mem_map.mpr fun v hv u hu w hw => ?_
    rw [Version.creator_select] at hw
    have hsucceeded : x.phase w = .succeeded := by
      rcases mem_selected_select.mp hu with ⟨_, hvisible⟩ | hu
      · exact hcommitted hv hw hvisible
      · exact h.after v hv u hu w hw
    rw [hphase fun heq => hnone hv (heq ▸ hw), hsucceeded]
  case whole =>
    refine List.forall_mem_map.mpr fun v hv => List.forall_mem_map.mpr fun v' hv' => ?_
    intro u hu w hw hw'
    rw [Version.creator_select] at hw hw'
    rw [Removed, Version.deleter_select, hstatus]
    rcases mem_selected_select.mp hu with ⟨rfl, hvisible⟩ | hu
    · refine hselected hv' ?_
      have hs := status_eq_committed.mpr (hcommitted hv hw hvisible)
      rw [Version.inserted, hw', Option.all_some, decide_eq_true_eq]
      exact Or.inr hs
    · exact (h.whole v hv v' hv' u hu w hw hw').imp_left
        fun hmem => mem_selected_select.mpr (Or.inr hmem)
  case oneWay =>
    refine List.forall_mem_map.mpr fun v hv => List.forall_mem_map.mpr fun v' hv' => ?_
    intro u hu w hw hcreator
    rw [Version.creator_select] at hcreator ⊢
    rcases mem_selected_select.mp hu with ⟨rfl, _⟩ | hu
    · exact hnone hv'
    · rcases mem_selected_select.mp hw with ⟨rfl, _⟩ | hw
      · exact absurd hcreator (hnone hv)
      · exact h.oneWay v hv v' hv' u hu w hw hcreator
  case unwritten =>
    exact unwritten_write h (Version.creator_select _ _) (Or.inl ht)
  case written =>
    exact written_write h (Version.creator_select _ _) (Version.row_select _ _) (by simp [Written])
  case unique =>
    rw [hstatus]
    exact h.unique.select

theorem sound_delete (h : Sound saved x) (ht : x.phase t = .deleting)
    (hfree : deletionWaits x.status t x.versions = false) :
    Sound saved (x.write .createMany t (x.versions.map (Version.delete x.status t))) := by
  have hstatus : (x.write .createMany t (x.versions.map (Version.delete x.status t))).status =
      x.status := status_write (by rw [status, ht]; rfl) _
  have hphase {u : Saver} (hu : u ≠ t) :
      (x.write .createMany t (x.versions.map (Version.delete x.status t))).phase u = x.phase u :=
    phase_write_ne hu _ _
  have hself := x.phase_write_self .createMany t (x.versions.map (Version.delete x.status t))
  have hremoved {v : Version Saver EnvironmentVariable} (hv : x.Removed v) :
      (x.write .createMany t (x.versions.map (Version.delete x.status t))).Removed
        (v.delete x.status t) := by
    rw [delete_of_deleted (deleted_iff.mpr (Or.inr hv)), Removed, hstatus]
    exact hv
  have hsucceeded {u : Saver} (hu : x.phase u = .succeeded) : u ≠ t := by
    rintro rfl
    rw [ht] at hu
    cases hu
  constructor
  all_goals try rw [versions_write]
  case own =>
    refine List.forall_mem_map.mpr fun v hv u hu => ?_
    rw [Version.selected_delete] at hu
    rw [Version.creator_delete]
    exact h.own v hv u hu
  case chosen =>
    refine List.forall_mem_map.mpr fun v hv u hu => ?_
    rw [Version.selected_delete]
    rcases deleter_delete x.status t v with hsame | ⟨hown, hmem, _⟩
    · exact h.chosen v hv u (hsame.symm.trans hu)
    · cases hown.symm.trans hu
      exact hmem
  case begun =>
    refine List.forall_mem_map.mpr fun v hv u hu => ?_
    rw [Version.selected_delete] at hu
    by_cases heq : u = t
    · rw [heq, hself]
      decide
    · rw [hphase heq]
      exact h.begun v hv u hu
  case past =>
    refine List.forall_mem_map.mpr fun v hv u hu hpast => ?_
    rw [Version.selected_delete] at hu
    by_cases heq : u = t
    · subst heq
      rw [Removed, hstatus]
      exact deleted_iff.mp (deleted_delete hu)
    · rw [hphase heq] at hpast
      rcases h.past v hv u hu hpast with hdeleter | hgone
      · rcases deleter_delete x.status t v with hsame | ⟨_, hmem, hnot⟩
        · exact Or.inl (hsame.trans hdeleter)
        · -- another transaction that has not failed holds the version
          have hlocked := locked_of_deletionWaits hfree hv hmem
          rw [Version.locked, hdeleter, Option.any_some, decide_eq_false_iff_not,
            not_and] at hlocked
          rw [Version.deleted, hdeleter, Option.any_some, decide_eq_false_iff_not, not_or] at hnot
          have hactive := hlocked heq
          have hcommitted := hnot.2
          rw [status] at hactive hcommitted
          rcases hpast with hp | hp | hp | hp <;> rw [hp] at hactive hcommitted
          · exact absurd rfl hactive
          · exact absurd rfl hactive
          · exact absurd rfl hactive
          · exact absurd rfl hcommitted
      · exact Or.inr (hremoved hgone)
  case old =>
    refine List.forall_mem_map.mpr fun v hv hold u hu hu' => ?_
    rw [Version.creator_delete] at hold
    rw [Version.selected_delete]
    refine (h.old v hv hold u ?_ ?_).imp id hremoved
    · by_cases heq : u = t
      · rw [heq, ht]
        decide
      · rwa [hphase heq] at hu
    · by_cases heq : u = t
      · rw [heq, ht]
        decide
      · rwa [hphase heq] at hu'
  case after =>
    refine List.forall_mem_map.mpr fun v hv u hu w hw => ?_
    rw [Version.selected_delete] at hu
    rw [Version.creator_delete] at hw
    have hdone := h.after v hv u hu w hw
    rw [hphase (hsucceeded hdone), hdone]
  case whole =>
    refine List.forall_mem_map.mpr fun v hv => List.forall_mem_map.mpr fun v' hv' => ?_
    intro u hu w hw hw'
    rw [Version.selected_delete] at hu ⊢
    rw [Version.creator_delete] at hw hw'
    exact (h.whole v hv v' hv' u hu w hw hw').imp id hremoved
  case oneWay =>
    refine List.forall_mem_map.mpr fun v hv => List.forall_mem_map.mpr fun v' hv' => ?_
    intro u hu w hw hcreator
    rw [Version.selected_delete] at hu hw
    rw [Version.creator_delete] at hcreator ⊢
    exact h.oneWay v hv v' hv' u hu w hw hcreator
  case unwritten =>
    exact unwritten_write h (Version.creator_delete _ _) (Or.inr (Or.inl ht))
  case written =>
    exact written_write h (Version.creator_delete _ _) (Version.row_delete _ _) (by simp [Written])
  case unique =>
    rw [hstatus]
    exact h.unique.delete hfree

theorem sound_insert (h : Sound saved x) (ht : x.phase t = .createMany)
    (hnodup : ((saved t).map (·.key)).Nodup)
    (hdecided : insertionWaits x.status t x.versions (·.key) (saved t) = false)
    (hfree : insertionFails x.status t x.versions (·.key) (saved t) = false) :
    Sound saved (x.write .update t (insert t x.versions (saved t))) := by
  have hstatus : (x.write .update t (insert t x.versions (saved t))).status = x.status :=
    status_write (by rw [status, ht]; rfl) _
  have hphase {u : Saver} (hu : u ≠ t) :
      (x.write .update t (insert t x.versions (saved t))).phase u = x.phase u :=
    phase_write_ne hu _ _
  have hself := x.phase_write_self .update t (insert t x.versions (saved t))
  have hcases {v : Version Saver EnvironmentVariable}
      (hv : v ∈ insert t x.versions (saved t)) :
      v ∈ x.versions ∨ v.creator = some t ∧ v.deleter = none ∧ v.selected = [] := by
    rcases List.mem_append.mp hv with hv | hv
    · exact Or.inl hv
    · obtain ⟨row, _, rfl⟩ := List.mem_map.mp hv
      exact Or.inr ⟨rfl, rfl, rfl⟩
  have hchosen {v : Version Saver EnvironmentVariable}
      (hv : v ∈ insert t x.versions (saved t)) {u : Saver} (hu : u ∈ v.selected) :
      v ∈ x.versions := by
    refine (hcases hv).resolve_right fun hnew => ?_
    rw [hnew.2.2] at hu
    exact List.not_mem_nil hu
  have hsucceeded {u : Saver} (hu : x.phase u = .succeeded) : u ≠ t := by
    rintro rfl
    rw [ht] at hu
    cases hu
  constructor
  all_goals try rw [versions_write]
  case own =>
    exact fun v hv u hu => h.own v (hchosen hv hu) u hu
  case chosen =>
    intro v hv u hu
    refine (hcases hv).elim (fun hold => h.chosen v hold u hu) fun hnew => ?_
    rw [hnew.2.1] at hu
    cases hu
  case begun =>
    intro v hv u hu
    by_cases heq : u = t
    · rw [heq, hself]
      decide
    · rw [hphase heq]
      exact h.begun v (hchosen hv hu) u hu
  case past =>
    intro v hv u hu hpast
    rw [Removed, hstatus]
    refine h.past v (hchosen hv hu) u hu ?_
    by_cases heq : u = t
    · exact heq ▸ Or.inl ht
    · rwa [hphase heq] at hpast
  case old =>
    intro v hv hold u hu hu'
    rw [Removed, hstatus]
    refine (hcases hv).elim (fun hmem => h.old v hmem hold u ?_ ?_) fun hnew => ?_
    · by_cases heq : u = t
      · rw [heq, ht]
        decide
      · rwa [hphase heq] at hu
    · by_cases heq : u = t
      · rw [heq, ht]
        decide
      · rwa [hphase heq] at hu'
    · rw [hnew.1] at hold
      cases hold
  case after =>
    intro v hv u hu w hw
    have hdone := h.after v (hchosen hv hu) u hu w hw
    rw [hphase (hsucceeded hdone), hdone]
  case whole =>
    intro v hv v' hv' u hu w hw hw'
    rw [Removed, hstatus]
    refine (hcases hv').elim (fun hold => h.whole v (hchosen hv hu) v' hold u hu w hw hw')
      fun hnew => ?_
    refine absurd ?_ (hsucceeded (h.after v (hchosen hv hu) u hu w hw))
    exact Option.some.inj (hw'.symm.trans hnew.1)
  case oneWay =>
    exact fun v hv v' hv' u hu w hw => h.oneWay v (hchosen hv hu) v' (hchosen hv' hw) u hu w hw
  case unwritten =>
    intro u hu v hv
    have hne : u ≠ t := by
      rintro rfl
      rw [hself] at hu
      rcases hu with hu | hu | hu <;> cases hu
    rw [hphase hne] at hu
    refine (hcases hv).elim (h.unwritten u hu v) fun hnew heq => ?_
    exact hne (Option.some.inj (heq.symm.trans hnew.1))
  case written =>
    intro u hu
    rw [ReadCommitted.insert, List.filter_append, List.map_append]
    by_cases heq : u = t
    · subst heq
      have hnone : (x.versions.filter fun v => v.creator = some u) = [] := by
        refine List.filter_eq_nil_iff.mpr fun v hv => ?_
        rw [decide_eq_true_eq]
        exact h.unwritten u (Or.inr (Or.inr ht)) v hv
      have hall : (((saved u).map fun row => ({ row, creator := some u } :
          Version Saver EnvironmentVariable)).filter fun v => v.creator = some u) =
          (saved u).map fun row => { row, creator := some u } := by
        refine List.filter_eq_self.mpr fun v hv => ?_
        obtain ⟨row, _, rfl⟩ := List.mem_map.mp hv
        exact decide_eq_true rfl
      rw [hnone, hall, List.map_nil, List.nil_append, List.map_map]
      exact List.map_id _
    · have hnone : (((saved t).map fun row => ({ row, creator := some t } :
          Version Saver EnvironmentVariable)).filter fun v => v.creator = some u) = [] := by
        refine List.filter_eq_nil_iff.mpr fun v hv => ?_
        obtain ⟨row, _, rfl⟩ := List.mem_map.mp hv
        rw [decide_eq_true_eq]
        exact fun hsame => heq (Option.some.inj hsame).symm
      rw [hphase heq] at hu
      rw [hnone, List.map_nil, List.append_nil]
      exact h.written u hu
  case unique =>
    rw [hstatus]
    exact h.unique.insert hnodup hdecided hfree

theorem sound_step (hnodup : ∀ t, ((saved t).map (·.key)).Nodup) (h : Sound saved x)
    {e : SaveEvent} (hstep : x.step saved e = some y) : Sound saved y := by
  cases e with
  | fail t =>
    rw [step] at hstep
    split at hstep
    · rename_i hactive
      cases hstep
      exact sound_enter h hactive (Or.inl rfl)
    · cases hstep
  | go t =>
    rw [step] at hstep
    cases ht : x.phase t with
    | deleteMany =>
      rw [ht] at hstep
      cases hstep
      exact sound_select h ht
    | deleting =>
      rw [ht] at hstep
      dsimp only at hstep
      split at hstep
      · cases hstep
      · rename_i hfree
        cases hstep
        exact sound_delete h ht (Bool.not_eq_true _ ▸ hfree)
    | createMany =>
      rw [ht] at hstep
      dsimp only at hstep
      split at hstep
      · cases hstep
      · split at hstep
        · cases hstep
          exact sound_enter h (by rw [status, ht]; rfl) (Or.inl rfl)
        · rename_i hdecided hfree
          cases hstep
          exact sound_insert h ht (hnodup t) (Bool.not_eq_true _ ▸ hdecided)
            (Bool.not_eq_true _ ▸ hfree)
    | update =>
      rw [ht] at hstep
      dsimp only at hstep
      split at hstep
      · cases hstep
      · cases hstep
        exact sound_enter h (by rw [status, ht]; rfl)
          (Or.inr ⟨Or.inr (Or.inl rfl), ht ▸ Or.inl rfl⟩)
    | commit =>
      rw [ht] at hstep
      cases hstep
      exact sound_enter h (by rw [status, ht]; rfl)
        (Or.inr ⟨Or.inr (Or.inr rfl), ht ▸ Or.inr (Or.inl rfl)⟩)
    | succeeded | failed =>
      rw [ht] at hstep
      cases hstep

/-! ## What is stored in the end -/

theorem stored_iff {v : Version Saver EnvironmentVariable} : v.stored x.status = true ↔
    (∀ u, v.creator = some u → x.phase u = .succeeded) ∧ ¬x.Removed v := by
  rw [Version.stored, Bool.and_eq_true, Bool.not_eq_true', ← Bool.not_eq_true]
  refine and_congr ?_ (not_congr ?_)
  · cases v.creator with
    | none => simp
    | some u => simp [status_eq_committed]
  · cases hd : v.deleter with
    | none => simp [Removed, hd]
    | some u => simp [Removed, hd]

/-- The rows of one call are left, if it did not lose one and the other's are not stored. -/
theorem rows_eq (h : Sound saved x) (ht : x.phase t = .succeeded)
    (hown : ∀ v ∈ x.versions, v.creator = some t → ¬x.Removed v)
    (hother : ∀ v ∈ x.versions, ∀ u, u ≠ t → v.creator = some u → v.stored x.status = false) :
    x.rows = saved t := by
  rw [rows, ← h.written t (Or.inr (Or.inr ht))]
  refine congrArg (List.map _) (List.filter_congr fun v hv => ?_)
  rw [Bool.eq_iff_iff, decide_eq_true_eq]
  cases hc : v.creator with
  | none =>
    refine iff_of_false (fun hstored => (stored_iff.mp hstored).2 ?_) (fun h => by cases h)
    have hold := h.old v hv hc t (by rw [ht]; decide) (by rw [ht]; decide)
    refine hold.elim (fun hmem => ?_) id
    refine (h.past v hv t hmem (Or.inr (Or.inr (Or.inr ht)))).elim (fun hd => ?_) id
    exact ⟨t, hd, status_eq_committed.mpr ht⟩
  | some u =>
    by_cases hu : u = t
    · subst hu
      refine iff_of_true (stored_iff.mpr ⟨fun w hw => ?_, hown v hv hc⟩) rfl
      exact Option.some.inj (hc.symm.trans hw) ▸ ht
    · refine iff_of_false ?_ fun heq => hu (Option.some.inj heq)
      rw [hother v hv u hu hc]
      decide

/-- What a transaction inserted was deleted by the other, if at all. -/
theorem selected_of_removed (h : Sound saved x) {v : Version Saver EnvironmentVariable}
    (hv : v ∈ x.versions) (hc : v.creator = some t) (hr : x.Removed v) :
    t.other ∈ v.selected ∧ x.phase t.other = .succeeded := by
  obtain ⟨u, hu, hs⟩ := hr
  have hmem := h.chosen v hv u hu
  have hne : u ≠ t := by
    rintro rfl
    exact h.own v hv u hmem hc
  exact Saver.eq_other hne ▸ ⟨hmem, status_eq_committed.mp hs⟩

/-- A transaction that saw the rows of the other leaves its own. -/
theorem rows_of_selected (h : Sound saved x) (ht : x.phase t = .succeeded)
    {v : Version Saver EnvironmentVariable} (hv : v ∈ x.versions) {u : Saver}
    (hc : v.creator = some u) (hmem : t ∈ v.selected) : x.rows = saved t := by
  have hu : u = t.other := Saver.eq_other fun heq => h.own v hv t hmem (heq ▸ hc)
  subst hu
  refine rows_eq h ht (fun v' hv' hc' hr => ?_) fun v' hv' w hw hc' => ?_
  · exact h.oneWay v hv v' hv' t hmem _ (selected_of_removed h hv' hc' hr).1 hc hc'
  · have hw' : w = t.other := Saver.eq_other hw
    rw [← Bool.not_eq_true, stored_iff, not_and, not_not]
    intro _
    refine (h.whole v hv v' hv' t hmem _ hc (hw' ▸ hc')).elim (fun hmem' => ?_) id
    refine (h.past v' hv' t hmem' (Or.inr (Or.inr (Or.inr ht)))).elim (fun hd => ?_) id
    exact ⟨t, hd, status_eq_committed.mpr ht⟩

/-- The two calls cannot both leave rows: one of them has none, or they have a key in common. -/
def Overlap (saved : Saver → List EnvironmentVariable) : Prop :=
  saved .first = [] ∨ saved .second = [] ∨
    ∃ a ∈ saved .first, ∃ b ∈ saved .second, a.key = b.key

theorem overlap_other (h : Overlap saved) (t : Saver) : saved t = [] ∨ saved t.other = [] ∨
    ∃ a ∈ saved t, ∃ b ∈ saved t.other, a.key = b.key := by
  cases t with
  | first => exact h
  | second =>
    rcases h with h | h | ⟨a, ha, b, hb, hkey⟩
    · exact Or.inr (Or.inl h)
    · exact Or.inl h
    · exact Or.inr (Or.inr ⟨b, hb, a, ha, hkey.symm⟩)

theorem exists_version (h : Sound saved x) (ht : x.phase t = .succeeded) {a : EnvironmentVariable}
    (ha : a ∈ saved t) : ∃ v ∈ x.versions, v.creator = some t ∧ v.row = a := by
  rw [← h.written t (Or.inr (Or.inr ht))] at ha
  obtain ⟨v, hv, rfl⟩ := List.mem_map.mp ha
  rw [List.mem_filter, decide_eq_true_eq] at hv
  exact ⟨v, hv.1, hv.2, rfl⟩

/-- Where the calls cannot both leave rows, one of those that succeeded left its own. -/
theorem serial_of_overlap (h : Sound saved x) (hoverlap : Overlap saved) : x.Serial saved := by
  intro t ht
  by_cases hother : x.phase t.other = .succeeded
  · by_cases hseen : ∃ v ∈ x.versions, ∃ u, v.creator = some u ∧ v.selected ≠ []
    · obtain ⟨v, hv, u, hc, hne⟩ := hseen
      obtain ⟨w, hw⟩ := List.exists_mem_of_ne_nil _ hne
      have hsucceeded : x.phase w = .succeeded := by
        cases w <;> cases t <;> assumption
      exact ⟨w, hsucceeded, .of_eq (rows_of_selected h hsucceeded hv hc hw)⟩
    · -- nobody saw the other's rows: all of them are left
      have hkept {v : Version Saver EnvironmentVariable} (hv : v ∈ x.versions) {u : Saver}
          (hc : v.creator = some u) : ¬x.Removed v := fun hr =>
        hseen ⟨v, hv, u, hc, List.ne_nil_of_mem (selected_of_removed h hv hc hr).1⟩
      have halone {u : Saver} (hu : x.phase u = .succeeded)
          (hnil : ∀ w, w ≠ u → saved w = [] ∧ x.phase w = .succeeded) : x.rows = saved u := by
        refine rows_eq h hu (fun v hv hc => hkept hv hc) fun v hv w hw hc => ?_
        have hwritten := h.written w (Or.inr (Or.inr (hnil w hw).2))
        rw [(hnil w hw).1, List.map_eq_nil_iff, List.filter_eq_nil_iff] at hwritten
        exact absurd (decide_eq_true hc) (hwritten v hv)
      rcases overlap_other hoverlap t with hnil | hnil | ⟨a, ha, b, hb, hkey⟩
      · refine ⟨t.other, hother, .of_eq (halone hother fun w hw => ?_)⟩
        have hw' : w = t := by
          rw [Saver.eq_other hw]
          cases t <;> rfl
        exact hw' ▸ ⟨hnil, ht⟩
      · refine ⟨t, ht, .of_eq (halone ht fun w hw => ?_)⟩
        exact Saver.eq_other hw ▸ ⟨hnil, hother⟩
      · exfalso
        obtain ⟨u, hu, hcu, rfl⟩ := exists_version h ht ha
        obtain ⟨v, hv, hcv, rfl⟩ := exists_version h hother hb
        have hne : u ≠ v := by
          rintro rfl
          exact t.other_ne (Option.some.inj (hcv.symm.trans hcu))
        have : Std.Symm (Excludes x.status fun v : EnvironmentVariable => v.key) :=
          ⟨fun _ _ => Excludes.symm⟩
        have hex := h.unique.forall hu hv hne _ _ hcu hcv hkey
        have hgone {v : Version Saver EnvironmentVariable} (hv : v ∈ x.versions) {w : Saver}
            (hc : v.creator = some w) (hw : x.phase w = .succeeded) : ¬v.Gone x.status := by
          rintro (⟨w', hw', hs⟩ | hr)
          · cases Option.some.inj (hc.symm.trans hw')
            rw [status, hw] at hs
            cases hs
          · exact hkept hv hc hr
        have hdeleter {v : Version Saver EnvironmentVariable} (hv : v ∈ x.versions) {w w' : Saver}
            (hc : v.creator = some w) (hd : v.deleter = some w') : False :=
          hseen ⟨v, hv, w, hc, List.ne_nil_of_mem (h.chosen v hv w' hd)⟩
        rcases hex with hex | hex | hex | hex
        · exact hgone hu hcu ht hex
        · exact hgone hv hcv hother hex
        · exact hdeleter hu hcu hex
        · exact hdeleter hv hcv hex
  · refine ⟨t, ht, .of_eq (rows_eq h ht (fun v hv hc hr => ?_) fun v hv u hu hc => ?_)⟩
    · exact hother (selected_of_removed h hv hc hr).2
    · rw [← Bool.not_eq_true]
      exact fun hstored => hother (Saver.eq_other hu ▸ (stored_iff.mp hstored).1 u hc)

/-! ## Both lists -/

def oldRows (stored : List EnvironmentVariable) (deleter : Option Saver) (selected : List Saver) :
    List (Version Saver EnvironmentVariable) :=
  stored.map fun row => { row, deleter, selected }

section

variable (stored : List EnvironmentVariable) (status : Saver → Status)

theorem select_oldRows (selected : List Saver) :
    (oldRows stored none selected).map (Version.select status t) =
      oldRows stored none (t :: selected) :=
  List.map_map.trans rfl

theorem delete_oldRows (selected : List Saver) (ht : t ∈ selected) :
    deletionWaits status t (oldRows stored none selected) = false ∧
      (oldRows stored none selected).map (Version.delete status t) =
        oldRows stored (some t) selected := by
  constructor
  · refine List.any_eq_false.mpr (List.forall_mem_map.mpr fun row _ => ?_)
    rw [decide_eq_true_eq]
    exact fun hlocked => absurd hlocked.2 Bool.false_ne_true
  · rw [oldRows, List.map_map]
    exact List.map_congr_left fun row _ => if_pos ⟨ht, rfl⟩

/-- Rows that were deleted by a call that has committed are left alone, and so are new ones. -/
theorem delete_committed {u : Saver} (hu : status u = .committed) (selected : List Saver)
    (rows : List EnvironmentVariable) :
    deletionWaits status t (insert u (oldRows stored (some u) selected) rows) = false ∧
      (insert u (oldRows stored (some u) selected) rows).map (Version.delete status t) =
        insert u (oldRows stored (some u) selected) rows := by
  have hold : ∀ v ∈ insert u (oldRows stored (some u) selected) rows,
      t ∈ v.selected → v.locked status t = false ∧ v.deleted status t = true := by
    refine List.forall_mem_append.mpr ⟨List.forall_mem_map.mpr fun row _ _ => ?_,
      List.forall_mem_map.mpr fun row _ ht => absurd ht List.not_mem_nil⟩
    simp [Version.locked, Version.deleted, hu]
  constructor
  · refine List.any_eq_false.mpr fun v hv => ?_
    rw [decide_eq_true_eq]
    rintro ⟨ht, hlocked⟩
    rw [(hold v hv ht).1] at hlocked
    cases hlocked
  · refine (List.map_congr_left fun v hv => ?_).trans (List.map_id _)
    rw [Version.delete, if_neg]
    · rfl
    · rintro ⟨ht, hnot⟩
      rw [(hold v hv ht).2] at hnot
      cases hnot

theorem insertion_free {vs : List (Version Saver EnvironmentVariable)}
    (rows : List EnvironmentVariable)
    (h : ∀ v ∈ vs, (∃ row ∈ rows, row.key = v.row.key) →
      v.undecided status t = false ∧ v.visible status t = false) :
    insertionWaits status t vs (·.key) rows = false ∧
      insertionFails status t vs (·.key) rows = false := by
  have hrival : ∀ v ∈ rivals vs (·.key) rows,
      v.undecided status t = false ∧ v.visible status t = false := by
    intro v hv
    rw [rivals, List.mem_filter, decide_eq_true_eq, List.mem_map] at hv
    exact h v hv.1 hv.2
  exact ⟨List.any_eq_false.mpr fun v hv => ne_true_of_eq_false (hrival v hv).1,
    List.any_eq_false.mpr fun v hv => ne_true_of_eq_false (hrival v hv).2⟩

end

def firstSaved (stored : List EnvironmentVariable) (saved : Saver → List EnvironmentVariable) :
    List (Version Saver EnvironmentVariable) :=
  insert .first (oldRows stored (some .first) [.second, .first]) (saved .first)

def bothSaved (stored : List EnvironmentVariable) (saved : Saver → List EnvironmentVariable) :
    List (Version Saver EnvironmentVariable) :=
  insert .second (firstSaved stored saved) (saved .second)

theorem rows_bothSaved (stored : List EnvironmentVariable)
    (saved : Saver → List EnvironmentVariable) :
    (Saves.mk (bothSaved stored saved) .succeeded .succeeded).rows =
      saved .first ++ saved .second := by
  have hnew (t : Saver) (rows : List EnvironmentVariable) :
      (rows.map fun row => ({ row, creator := some t } : Version Saver EnvironmentVariable)).filter
        (Version.stored (Saves.mk (bothSaved stored saved) .succeeded .succeeded).status) =
      rows.map fun row => { row, creator := some t } := by
    refine List.filter_eq_self.mpr (List.forall_mem_map.mpr fun row _ => ?_)
    cases t <;> rfl
  have hold : (oldRows stored (some .first) [.second, .first]).filter
      (Version.stored (Saves.mk (bothSaved stored saved) .succeeded .succeeded).status) = [] :=
    List.filter_eq_nil_iff.mpr (List.forall_mem_map.mpr fun row _ => Bool.false_ne_true)
  change ((oldRows stored _ _ ++ _ ++ _).filter _).map _ = _
  rw [List.filter_append, List.filter_append, hold, hnew, hnew, List.nil_append,
    List.map_append, List.map_map, List.map_map]
  exact congrArg₂ (· ++ ·) (List.map_id _) (List.map_id _)

/-- The second call selects the old rows before the first commits, and finds them deleted when it
goes on: the rows of both are left. -/
theorem exists_mixture (stored : List EnvironmentVariable)
    (saved : Saver → List EnvironmentVariable)
    (hdisjoint : ∀ a ∈ saved .first, ∀ b ∈ saved .second, a.key ≠ b.key) :
    ∃ x, Reaches (step saved) (fun _ _ => True) (start stored) x ∧ x.first = .succeeded ∧
      x.second = .succeeded ∧ x.rows = saved .first ++ saved .second := by
  have h₁ : step saved (start stored) (.go .first) =
      some ⟨oldRows stored none [.first], .deleting, .deleteMany⟩ :=
    congrArg (fun vs => some (Saves.mk vs .deleting .deleteMany)) (select_oldRows stored _ [])
  have h₂ : step saved ⟨oldRows stored none [.first], .deleting, .deleteMany⟩ (.go .second) =
      some ⟨oldRows stored none [.second, .first], .deleting, .deleting⟩ :=
    congrArg (fun vs => some (Saves.mk vs .deleting .deleting)) (select_oldRows stored _ [.first])
  have h₃ : step saved ⟨oldRows stored none [.second, .first], .deleting, .deleting⟩ (.go .first) =
      some ⟨oldRows stored (some .first) [.second, .first], .createMany, .deleting⟩ := by
    obtain ⟨hfree, hdelete⟩ := delete_oldRows (t := .first) stored
      (Saves.mk (oldRows stored none [.second, .first]) .deleting .deleting).status
      [.second, .first] (by decide)
    refine (if_neg (ne_true_of_eq_false hfree)).trans ?_
    exact congrArg (fun vs => some (Saves.mk vs .createMany .deleting)) hdelete
  have h₄ : step saved ⟨oldRows stored (some .first) [.second, .first], .createMany, .deleting⟩
      (.go .first) = some ⟨firstSaved stored saved, .update, .deleting⟩ := by
    -- the old rows are deleted by the call itself
    have hold : ∀ v ∈ oldRows stored (some .first) [.second, .first],
        (∃ row ∈ saved .first, row.key = v.row.key) →
        v.undecided (Saves.mk [] .createMany .deleting).status .first = false ∧
          v.visible (Saves.mk [] .createMany .deleting).status .first = false :=
      List.forall_mem_map.mpr fun row _ _ => ⟨rfl, rfl⟩
    obtain ⟨hdecided, hfree⟩ := insertion_free _ (saved .first) hold
    refine (if_neg (ne_true_of_eq_false hdecided)).trans ?_
    exact if_neg (ne_true_of_eq_false hfree)
  have h₅ : step saved ⟨firstSaved stored saved, .succeeded, .deleting⟩ (.go .second) =
      some ⟨firstSaved stored saved, .succeeded, .createMany⟩ := by
    obtain ⟨hfree, hdelete⟩ := delete_committed (t := .second) (u := .first) stored
      (Saves.mk (firstSaved stored saved) .succeeded .deleting).status rfl [.second, .first]
      (saved .first)
    refine (if_neg (ne_true_of_eq_false hfree)).trans ?_
    exact congrArg (fun vs => some (Saves.mk vs .succeeded .createMany)) hdelete
  have h₆ : step saved ⟨firstSaved stored saved, .succeeded, .createMany⟩ (.go .second) =
      some ⟨bothSaved stored saved, .succeeded, .update⟩ := by
    -- the old rows are gone, and those of the first call have other keys
    have hrival : ∀ v ∈ firstSaved stored saved, (∃ row ∈ saved .second, row.key = v.row.key) →
        v.undecided (Saves.mk [] .succeeded .createMany).status .second = false ∧
          v.visible (Saves.mk [] .succeeded .createMany).status .second = false := by
      refine List.forall_mem_append.mpr ⟨List.forall_mem_map.mpr fun row _ _ => ⟨rfl, rfl⟩,
        List.forall_mem_map.mpr fun row hrow hsame => ?_⟩
      obtain ⟨row', hrow', hkey⟩ := hsame
      exact absurd hkey.symm (hdisjoint row hrow row' hrow')
    obtain ⟨hdecided, hfree⟩ := insertion_free _ (saved .second) hrival
    refine (if_neg (ne_true_of_eq_false hdecided)).trans ?_
    exact if_neg (ne_true_of_eq_false hfree)
  have hfirst : Reaches (step saved) (fun _ _ => True) (start stored)
      ⟨firstSaved stored saved, .succeeded, .deleting⟩ :=
    (((((Reaches.refl.step trivial h₁).step trivial h₂).step trivial h₃).step trivial h₄).step
      (c := ⟨firstSaved stored saved, .commit, .deleting⟩) (e := .go .first) trivial rfl).step
      (e := .go .first) trivial rfl
  have hsecond : Reaches (step saved) (fun _ _ => True) (start stored)
      ⟨bothSaved stored saved, .succeeded, .succeeded⟩ :=
    (((hfirst.step trivial h₅).step trivial h₆).step
      (c := ⟨bothSaved stored saved, .succeeded, .commit⟩) (e := .go .second) trivial rfl).step
      (e := .go .second) trivial rfl
  exact ⟨_, hsecond, rfl, rfl, rows_bothSaved stored saved⟩

/-- Whatever is stored, two saves of lists without double keys end in the list of one that
succeeded, in every order of their statements, if and only if they cannot both leave rows. -/
theorem serial_iff (stored : List EnvironmentVariable) (saved : Saver → List EnvironmentVariable)
    (hnodup : ∀ t, ((saved t).map (·.key)).Nodup) :
    (∀ x, Reaches (step saved) (fun _ _ => True) (start stored) x → x.Finished →
      x.Serial saved) ↔ Overlap saved := by
  constructor
  · intro h
    by_contra hoverlap
    rw [Overlap, not_or, not_or] at hoverlap
    obtain ⟨hfirst, hsecond, hdisjoint⟩ := hoverlap
    obtain ⟨x, hx, h₁, h₂, hrows⟩ := exists_mixture stored saved
      fun a ha b hb hkey => hdisjoint ⟨a, ha, b, hb, hkey⟩
    have hfinished : x.Finished := by
      intro t
      cases t
      · rw [status, phase, h₁]
        decide
      · rw [status, phase, h₂]
        decide
    obtain ⟨u, _, hperm⟩ := h x hx hfinished .first h₁
    have hlength := hperm.length_eq
    rw [hrows, List.length_append] at hlength
    have hpos := List.length_pos_iff.mpr hfirst
    have hpos' := List.length_pos_iff.mpr hsecond
    cases u <;> omega
  · intro hoverlap x hx _
    refine serial_of_overlap ?_ hoverlap
    exact hx.invariant (Sound saved) (sound_start stored) fun _ _ _ hs _ => sound_step hnodup hs

/-- Each call saves one variable of project 1. -/
def variableOf (key key' : String) : Saver → List EnvironmentVariable
  | .first => [{ key, value := "1", projectId := 1 }]
  | .second => [{ key := key', value := "2", projectId := 1 }]

theorem nodup_variableOf (key key' : String) (t : Saver) :
    ((variableOf key key' t).map (·.key)).Nodup := by
  cases t <;> exact List.pairwise_singleton _ _

theorem serial_port : Overlap (variableOf "PORT" "PORT") ∧ ∀ x,
    Reaches (step (variableOf "PORT" "PORT")) (fun _ _ => True) (start []) x →
    x.Finished → x.Serial (variableOf "PORT" "PORT") := by
  have hoverlap : Overlap (variableOf "PORT" "PORT") :=
    Or.inr (Or.inr ⟨_, List.mem_singleton_self _, _, List.mem_singleton_self _, rfl⟩)
  exact ⟨hoverlap, (serial_iff [] _ (nodup_variableOf "PORT" "PORT")).mpr hoverlap⟩

/-- Two calls with different keys. -/
theorem not_serial : ¬∀ (stored : List EnvironmentVariable)
    (saved : Saver → List EnvironmentVariable), (∀ t, ((saved t).map (·.key)).Nodup) →
    ∀ x, Reaches (step saved) (fun _ _ => True) (start stored) x → x.Finished → x.Serial saved := by
  intro h
  obtain ⟨x, hx, h₁, h₂, hrows⟩ := exists_mixture [] (variableOf "HOST" "PORT") (by decide)
  have hfinished : x.Finished := by
    intro t
    cases t
    · rw [status, phase, h₁]
      decide
    · rw [status, phase, h₂]
      decide
  obtain ⟨u, _, hperm⟩ := h [] _ (nodup_variableOf "HOST" "PORT") x hx hfinished .first h₁
  have hlength := hperm.length_eq
  rw [hrows] at hlength
  cases u <;> cases hlength

end Saves
end EnvVarsService
end Api
end Code2Cloud
