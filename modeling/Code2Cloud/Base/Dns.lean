import Mathlib.Data.List.Basic

/-!
# Host names

The host names of RFC 1123: labels of letters, digits and hyphens between dots, over any alphabet;
and the names that check their labels for all but the length.
-/

namespace Code2Cloud
namespace Dns

variable {α : Type*} (alnum : α → Bool) (hyphen dot : α)

structure Label (s : List α) : Prop where
  length : s.length ≤ 63
  first : s.head?.any alnum = true
  last : s.getLast?.any alnum = true
  chars : ∀ c ∈ s, alnum c = true ∨ c = hyphen

/-- A label of any length. -/
structure Word (s : List α) : Prop where
  first : s.head?.any alnum = true
  last : s.getLast?.any alnum = true
  chars : ∀ c ∈ s, alnum c = true ∨ c = hyphen

variable {alnum hyphen} in
theorem label_iff {s : List α} : Label alnum hyphen s ↔ s.length ≤ 63 ∧ Word alnum hyphen s :=
  ⟨fun h => ⟨h.length, h.first, h.last, h.chars⟩,
    fun ⟨hlength, h⟩ => ⟨hlength, h.first, h.last, h.chars⟩⟩

variable [DecidableEq α]

instance (s : List α) : Decidable (Word alnum hyphen s) :=
  decidable_of_iff (s.head?.any alnum = true ∧ s.getLast?.any alnum = true ∧
      ∀ c ∈ s, alnum c = true ∨ c = hyphen)
    ⟨fun ⟨hfirst, hlast, hchars⟩ => ⟨hfirst, hlast, hchars⟩, fun h => ⟨h.first, h.last, h.chars⟩⟩

instance (s : List α) : Decidable (Label alnum hyphen s) :=
  decidable_of_iff (s.length ≤ 63 ∧ s.head?.any alnum = true ∧ s.getLast?.any alnum = true ∧
      ∀ c ∈ s, alnum c = true ∨ c = hyphen)
    ⟨fun ⟨hlength, hfirst, hlast, hchars⟩ => ⟨hlength, hfirst, hlast, hchars⟩,
      fun h => ⟨h.length, h.first, h.last, h.chars⟩⟩

def labels (s : List α) : List (List α) := s.splitOn dot

structure Host (s : List α) : Prop where
  length : s.length ≤ 253
  labels : ∀ l ∈ labels dot s, Label alnum hyphen l

instance (s : List α) : Decidable (Host alnum hyphen dot s) :=
  decidable_of_iff (s.length ≤ 253 ∧ ∀ l ∈ labels dot s, Label alnum hyphen l)
    ⟨fun ⟨hlength, hlabels⟩ => ⟨hlength, hlabels⟩, fun h => ⟨h.length, h.labels⟩⟩

structure Subdomain (s : List α) : Prop where
  length : s.length ≤ 253
  words : ∀ l ∈ labels dot s, Word alnum hyphen l

instance (s : List α) : Decidable (Subdomain alnum hyphen dot s) :=
  decidable_of_iff (s.length ≤ 253 ∧ ∀ l ∈ labels dot s, Word alnum hyphen l)
    ⟨fun ⟨hlength, hwords⟩ => ⟨hlength, hwords⟩, fun h => ⟨h.length, h.words⟩⟩

variable {alnum : α → Bool} {hyphen dot : α} {s : List α}

/-! ## The labels of a text -/

theorem labels_cons (c : α) (s : List α) : labels dot (c :: s) =
    if c = dot then [] :: labels dot s else (labels dot s).modifyHead (c :: ·) := by
  rw [labels, List.splitOn_cons_eq_if_modifyHead]
  simp only [beq_iff_eq]
  rfl

variable (dot) in
theorem labels_ne_nil (s : List α) : labels dot s ≠ [] := List.splitOn_ne_nil dot s

/-- Other than the dots, a text and its labels have the same elements. -/
theorem mem_labels_iff {c : α} (hc : c ≠ dot) : (∃ l ∈ labels dot s, c ∈ l) ↔ c ∈ s := by
  induction s with
  | nil => simp [labels]
  | cons d s ih =>
    rw [labels_cons, List.mem_cons, ← ih]
    by_cases hd : d = dot
    · rw [if_pos hd]
      simp only [List.mem_cons, exists_eq_or_imp, List.not_mem_nil, false_or]
      exact ⟨Or.inr, fun h => h.resolve_left fun heq => hc (heq.trans hd)⟩
    · obtain ⟨first, rest, hs⟩ := List.exists_cons_of_ne_nil (labels_ne_nil dot s)
      rw [if_neg hd, hs, List.modifyHead_cons]
      simp only [List.mem_cons, exists_eq_or_imp]
      exact or_assoc

theorem dot_notMem_of_mem_labels {l : List α} (h : l ∈ labels dot s) : dot ∉ l := by
  induction s generalizing l with
  | nil =>
    rw [labels, List.splitOn_nil, List.mem_singleton] at h
    rw [h]
    exact List.not_mem_nil
  | cons d s ih =>
    rw [labels_cons] at h
    split at h
    · rcases List.mem_cons.mp h with rfl | h
      · exact List.not_mem_nil
      · exact ih h
    · rename_i hd
      obtain ⟨first, rest, hs⟩ := List.exists_cons_of_ne_nil (labels_ne_nil dot s)
      rw [hs] at h ih
      rcases List.mem_cons.mp h with rfl | h
      · rw [List.mem_cons, not_or]
        exact ⟨fun heq => hd heq.symm, ih List.mem_cons_self⟩
      · exact ih (List.mem_cons_of_mem first h)

theorem labels_map {β : Type*} [DecidableEq β] {dot' : β} {f : α → β}
    (hf : ∀ c ∈ s, f c = dot' ↔ c = dot) :
    labels dot' (s.map f) = (labels dot s).map (List.map f) := by
  induction s with
  | nil => rfl
  | cons c s ih =>
    have hrest := ih fun d hd => hf d (List.mem_cons_of_mem c hd)
    obtain ⟨first, rest, hs⟩ := List.exists_cons_of_ne_nil (labels_ne_nil dot s)
    rw [List.map_cons, labels_cons, labels_cons, hrest, hs]
    by_cases hc : c = dot
    · rw [if_pos hc, if_pos ((hf c List.mem_cons_self).mpr hc)]
      rfl
    · rw [if_neg hc, if_neg (mt (hf c List.mem_cons_self).mp hc)]
      rfl

end Dns
end Code2Cloud
