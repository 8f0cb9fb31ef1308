import Mathlib.Data.List.Basic
import Mathlib.Data.List.Pairwise

/-!
# Read committed

A table whose rows exist in versions.  A statement sees what is committed when it starts; a deletion
waits while another transaction deletes a version that it has selected, and then leaves alone what
is gone; an insertion waits while another transaction may leave a row with its key, and fails where
there is one.
-/

namespace Code2Cloud
namespace ReadCommitted

inductive Status
  | active | committed | aborted
  deriving DecidableEq

/-- A row in the table, with the transaction that inserted it, if it was not there at first, and
those that delete it and that have selected it for deletion. -/
structure Version (T R : Type) where
  row : R
  creator : Option T := none
  deleter : Option T := none
  selected : List T := []
  deriving DecidableEq

variable {T R κ : Type} {status : T → Status} {key : R → κ} {vs : List (Version T R)}

/-! ## Unique keys -/

def Version.Gone (status : T → Status) (v : Version T R) : Prop :=
  (∃ u, v.creator = some u ∧ status u = .aborted) ∨
    ∃ u, v.deleter = some u ∧ status u = .committed

/-- Of two versions with one key that transactions have inserted, one is gone, or goes where the
other stays. -/
def Excludes (status : T → Status) (key : R → κ) (u v : Version T R) : Prop :=
  ∀ a b, u.creator = some a → v.creator = some b → key u.row = key v.row →
    u.Gone status ∨ v.Gone status ∨ u.deleter = some b ∨ v.deleter = some a

/-- What a unique index promises. -/
def Unique (status : T → Status) (key : R → κ) (vs : List (Version T R)) : Prop :=
  vs.Pairwise (Excludes status key)

theorem Excludes.symm {u v : Version T R} (h : Excludes status key u v) :
    Excludes status key v u := by
  intro a b ha hb hkey
  rcases h b a hb ha hkey.symm with h | h | h | h
  · exact Or.inr (Or.inl h)
  · exact Or.inl h
  · exact Or.inr (Or.inr (Or.inr h))
  · exact Or.inr (Or.inr (Or.inl h))

/-- Transactions that have ended stay as they are. -/
theorem Unique.mono {status' : T → Status} (h : Unique status key vs)
    (hended : ∀ u, status u ≠ .active → status' u = status u) : Unique status' key vs := by
  have hgone {v : Version T R} (hv : v.Gone status) : v.Gone status' := by
    refine hv.imp (fun ⟨u, hu, hs⟩ => ⟨u, hu, ?_⟩) fun ⟨u, hu, hs⟩ => ⟨u, hu, ?_⟩
    · rw [hended u (by rw [hs]; decide), hs]
    · rw [hended u (by rw [hs]; decide), hs]
  refine h.imp fun {u v} hex a b ha hb hkey => ?_
  exact (hex a b ha hb hkey).imp hgone (Or.imp_left hgone)

theorem Unique.map {f : Version T R → Version T R} (h : Unique status key vs)
    (hf : ∀ u ∈ vs, ∀ v ∈ vs, Excludes status key u v → Excludes status key (f u) (f v)) :
    Unique status key (vs.map f) :=
  List.pairwise_map.mpr (h.imp_of_mem fun hu hv hex => hf _ hu _ hv hex)

/-! ## What statements find -/

variable [DecidableEq T] {t : T} {v : Version T R}

namespace Version

variable (status : T → Status) (t : T) (v : Version T R)

/-- It was inserted before, as a statement of a transaction finds it. -/
def inserted : Bool := v.creator.all fun u => u = t ∨ status u = .committed

/-- It was deleted before, as a statement of a transaction finds it. -/
def deleted : Bool := v.deleter.any fun u => u = t ∨ status u = .committed

def visible : Bool := v.inserted status t && !v.deleted status t

/-- Another transaction is deleting it. -/
def locked : Bool := v.deleter.any fun u => u ≠ t ∧ status u = .active

/-- Another transaction has inserted it or is deleting it, and has not ended. -/
def undecided : Bool :=
  (v.creator.any fun u => u ≠ t ∧ status u = .active) || v.locked status t

/-- It is in the table, by what has been committed. -/
def stored (status : T → Status) (v : Version T R) : Bool :=
  (v.creator.all fun u => status u = .committed) && !v.deleter.any fun u => status u = .committed

/-- A deletion starts: it selects what it sees. -/
def select : Version T R :=
  if v.visible status t then { v with selected := t :: v.selected } else v

/-- A deletion ends: it deletes what it selected, but for what is gone. -/
def delete : Version T R :=
  if t ∈ v.selected ∧ v.deleted status t = false then { v with deleter := some t } else v

@[simp] theorem row_select : (v.select status t).row = v.row := by
  unfold select
  split <;> rfl

@[simp] theorem creator_select : (v.select status t).creator = v.creator := by
  unfold select
  split <;> rfl

@[simp] theorem deleter_select : (v.select status t).deleter = v.deleter := by
  unfold select
  split <;> rfl

@[simp] theorem row_delete : (v.delete status t).row = v.row := by
  unfold delete
  split <;> rfl

@[simp] theorem creator_delete : (v.delete status t).creator = v.creator := by
  unfold delete
  split <;> rfl

@[simp] theorem selected_delete : (v.delete status t).selected = v.selected := by
  unfold delete
  split <;> rfl

end Version

open Version

theorem mem_selected_select {a : T} :
    a ∈ (v.select status t).selected ↔ a = t ∧ v.visible status t = true ∨ a ∈ v.selected := by
  rw [select]
  split
  · rename_i h
    rw [List.mem_cons, and_iff_left h]
  · rename_i h
    rw [or_iff_right fun ha => h ha.2]

theorem deleted_iff : v.deleted status t = true ↔
    v.deleter = some t ∨ ∃ u, v.deleter = some u ∧ status u = .committed := by
  cases hd : v.deleter with
  | none => simp [Version.deleted, hd]
  | some u => simp [Version.deleted, hd]

theorem deleter_delete (status : T → Status) (t : T) (v : Version T R) :
    (v.delete status t).deleter = v.deleter ∨
    (v.delete status t).deleter = some t ∧ t ∈ v.selected ∧ v.deleted status t = false := by
  rw [delete]
  split
  · rename_i h
    exact Or.inr ⟨rfl, h⟩
  · exact Or.inl rfl

theorem delete_of_deleted (h : v.deleted status t = true) : v.delete status t = v := by
  rw [delete, if_neg]
  rw [h]
  exact fun hd => absurd hd.2 (by decide)

theorem deleted_delete (h : t ∈ v.selected) : (v.delete status t).deleted status t = true := by
  rw [delete]
  split
  · exact deleted_iff.mpr (Or.inl rfl)
  · rename_i hkept
    rw [not_and, Bool.not_eq_false] at hkept
    exact hkept h

theorem Version.Gone.delete (h : v.Gone status) : (v.delete status t).Gone status := by
  rcases h with ⟨u, hu, hs⟩ | ⟨u, hu, hs⟩
  · exact Or.inl ⟨u, (creator_delete status t v).trans hu, hs⟩
  · rcases deleter_delete status t v with hsame | ⟨_, _, hnot⟩
    · exact Or.inr ⟨u, hsame.trans hu, hs⟩
    · rw [deleted_iff.mpr (Or.inr ⟨u, hu, hs⟩)] at hnot
      cases hnot

/-! ## Statements -/

section

variable (status : T → Status) (t : T) (vs : List (Version T R))

def deletionWaits : Bool := vs.any fun v => t ∈ v.selected ∧ v.locked status t

variable [DecidableEq κ] (key : R → κ) (rows : List R)

def rivals : List (Version T R) := vs.filter fun v => key v.row ∈ rows.map key

def insertionWaits : Bool := (rivals vs key rows).any fun v => v.undecided status t

def insertionFails : Bool := (rivals vs key rows).any fun v => v.visible status t

omit [DecidableEq T] [DecidableEq κ] in
def insert : List (Version T R) := vs ++ rows.map fun row => { row, creator := some t }

end

/-- Where a deletion need not wait, nobody else is deleting what it selected. -/
theorem locked_of_deletionWaits (hfree : deletionWaits status t vs = false) (hv : v ∈ vs)
    (ht : t ∈ v.selected) : v.locked status t = false := by
  by_contra hlocked
  rw [Bool.not_eq_false] at hlocked
  refine absurd hfree ?_
  rw [deletionWaits, Bool.not_eq_false, List.any_eq_true]
  exact ⟨v, hv, decide_eq_true ⟨ht, hlocked⟩⟩

/-! ## Statements keep keys unique -/

theorem Unique.select (h : Unique status key vs) :
    Unique status key (vs.map (Version.select status t)) := by
  refine h.map fun u _ v _ hex a b ha hb hkey => ?_
  rw [creator_select] at ha hb
  rw [row_select, row_select] at hkey
  have hgone {v : Version T R} (hv : v.Gone status) : (v.select status t).Gone status := by
    rw [Gone, creator_select, deleter_select]
    exact hv
  rw [deleter_select, deleter_select]
  exact (hex a b ha hb hkey).imp hgone (Or.imp_left hgone)

/-- A deletion takes over only from transactions that failed. -/
theorem Unique.delete (h : Unique status key vs) (hfree : deletionWaits status t vs = false) :
    Unique status key (vs.map (Version.delete status t)) := by
  have hdeleter {u v : Version T R} {b : T} (hu : u ∈ vs) (hv : v.creator = some b)
      (hub : u.deleter = some b) :
      (v.delete status t).Gone status ∨ (u.delete status t).deleter = some b := by
    rcases deleter_delete status t u with hsame | ⟨_, hselected, hnot⟩
    · exact Or.inr (hsame.trans hub)
    · have hb : status b = .aborted := by
        have hlocked := locked_of_deletionWaits hfree hu hselected
        simp only [Version.deleted, hub, Option.any_some, decide_eq_false_iff_not, not_or] at hnot
        simp only [locked, hub, Option.any_some, decide_eq_false_iff_not, not_and] at hlocked
        have := hlocked hnot.1
        cases hs : status b with
        | active => exact absurd hs this
        | committed => exact absurd hs hnot.2
        | aborted => rfl
      exact Or.inl (Or.inl ⟨b, (creator_delete status t v).trans hv, hb⟩)
  refine h.map fun u hu v hv hex a b ha hb hkey => ?_
  rw [creator_delete] at ha hb
  rw [row_delete, row_delete] at hkey
  rcases hex a b ha hb hkey with hgone | hgone | hub | hva
  · exact Or.inl hgone.delete
  · exact Or.inr (Or.inl hgone.delete)
  · exact Or.inr ((hdeleter hu hb hub).imp id Or.inl)
  · rcases hdeleter hv ha hva with hgone | hdeleter
    · exact Or.inl hgone
    · exact Or.inr (Or.inr (Or.inr hdeleter))

/-- An insertion that neither waits nor fails meets no version that stays. -/
theorem Unique.insert [DecidableEq κ] {rows : List R} (h : Unique status key vs)
    (hnodup : (rows.map key).Nodup) (hdecided : insertionWaits status t vs key rows = false)
    (hfree : insertionFails status t vs key rows = false) :
    Unique status key (insert t vs rows) := by
  refine List.pairwise_append.mpr ⟨h, ?_, ?_⟩
  · refine List.pairwise_map.mpr ((List.pairwise_map.mp hnodup).imp fun hne a b _ _ hkey => ?_)
    exact absurd hkey hne
  · intro u hu v hv a b ha hb hkey
    obtain ⟨row, hrow, rfl⟩ := List.mem_map.mp hv
    cases hb
    have hrival : u ∈ rivals vs key rows :=
      List.mem_filter.mpr ⟨hu, decide_eq_true (List.mem_map.mpr ⟨row, hrow, hkey.symm⟩)⟩
    have hundecided : u.undecided status t = false := by
      rw [← Bool.not_eq_true]
      intro hundecided
      exact absurd (List.any_eq_true.mpr ⟨u, hrival, hundecided⟩) (ne_true_of_eq_false hdecided)
    have hvisible : u.visible status t = false := by
      rw [← Bool.not_eq_true]
      intro hvisible
      exact absurd (List.any_eq_true.mpr ⟨u, hrival, hvisible⟩) (ne_true_of_eq_false hfree)
    by_cases hdeleted : u.deleted status t = true
    · rcases deleted_iff.mp hdeleted with hown | hcommitted
      · exact Or.inr (Or.inr (Or.inl hown))
      · exact Or.inl (Or.inr hcommitted)
    · rw [Bool.not_eq_true] at hdeleted
      rw [visible, hdeleted, Bool.not_false, Bool.and_true, inserted,
        ha, Option.all_some, decide_eq_false_iff_not, not_or] at hvisible
      rw [undecided, ha, Option.any_some, Bool.or_eq_false_iff, decide_eq_false_iff_not,
        not_and] at hundecided
      have hactive := hundecided.1 hvisible.1
      refine Or.inl (Or.inl ⟨a, ha, ?_⟩)
      cases hs : status a with
      | active => exact absurd hs hactive
      | committed => exact absurd hs hvisible.2
      | aborted => rfl

end ReadCommitted
end Code2Cloud
