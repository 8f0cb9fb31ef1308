import Mathlib.Algebra.GroupWithZero.Nat
import Mathlib.Data.List.Chain
import Mathlib.Data.List.Count
import Mathlib.Data.List.Nodup

/-!
# Ordered maps

Maps that list their keys in the order in which these were first set, and what becomes of a map that
is laid out with an initial value under every key and filled from a list afterwards.
-/

namespace Code2Cloud
namespace OrderedMap

variable {α β κ : Type*} [DecidableEq κ]

def set (m : List (κ × β)) (k : κ) (v : β) : List (κ × β) :=
  if k ∈ m.map Prod.fst then m.map fun x => if x.1 = k then (k, v) else x else m ++ [(k, v)]

/-- Change the value under a key, where there is one. -/
def alter (m : List (κ × β)) (k : κ) (f : β → β) : List (κ × β) :=
  m.map fun x => if x.1 = k then (k, f x.2) else x

/-- Set a list of keys to their initial values. -/
def layOut (init : κ → β) (ks : List κ) : List (κ × β) :=
  ks.foldl (fun m k => set m k (init k)) []

def firsts (ks : List κ) : List κ := ks.foldl (fun l k => if k ∈ l then l else l ++ [k]) []

theorem firsts_concat (ks : List κ) (k : κ) :
    firsts (ks ++ [k]) = if k ∈ firsts ks then firsts ks else firsts ks ++ [k] := by
  rw [firsts, List.foldl_append]
  rfl

theorem mem_firsts {ks : List κ} {k : κ} : k ∈ firsts ks ↔ k ∈ ks := by
  induction ks using List.reverseRecOn with
  | nil => exact Iff.rfl
  | append_singleton ks k' ih =>
    rw [firsts_concat, List.mem_append, List.mem_singleton, ← ih]
    split
    · next h => exact ⟨Or.inl, fun hk => hk.elim id fun heq => heq ▸ h⟩
    · rw [List.mem_append, List.mem_singleton]

theorem nodup_firsts (ks : List κ) : (firsts ks).Nodup := by
  induction ks using List.reverseRecOn with
  | nil => exact List.nodup_nil
  | append_singleton ks k ih =>
    rw [firsts_concat]
    split
    · exact ih
    · next h =>
      rw [← List.concat_eq_append]
      exact ih.concat h

theorem layOut_eq (init : κ → β) (ks : List κ) :
    layOut init ks = (firsts ks).map fun k => (k, init k) := by
  induction ks using List.reverseRecOn with
  | nil => rfl
  | append_singleton ks k ih =>
    have hset : layOut init (ks ++ [k]) = set (layOut init ks) k (init k) := by
      rw [layOut, List.foldl_append]
      rfl
    have hkeys : (layOut init ks).map Prod.fst = firsts ks := by
      rw [ih, List.map_map]
      exact List.map_id _
    rw [hset, set, hkeys, firsts_concat]
    split
    · rw [ih, List.map_map]
      refine List.map_congr_left fun k' _ => ?_
      rw [Function.comp_apply]
      split
      · next h => rw [← h]
      · rfl
    · rw [ih, List.map_append]
      rfl

/-- Every value of a map takes in what goes to its key. -/
theorem foldl_alter (key : α → κ) (f : α → β → β) (l : List α) (m : List (κ × β)) :
    l.foldl (fun m a => alter m (key a) (f a)) m =
      m.map fun x => (x.1, (l.filter fun a => key a = x.1).foldl (fun v a => f a v) x.2) := by
  induction l generalizing m with
  | nil => exact (List.map_id m).symm
  | cons a l ih =>
    rw [List.foldl_cons, ih, alter, List.map_map]
    refine List.map_congr_left fun x _ => ?_
    rw [Function.comp_apply]
    by_cases h : x.1 = key a
    · rw [if_pos h, List.filter_cons_of_pos (by simpa using h.symm), List.foldl_cons, ← h]
    · rw [if_neg h, List.filter_cons_of_neg (by simpa using fun heq => h heq.symm)]

/-- A map that is laid out and then filled: under each of its keys, what went there. -/
theorem foldl_alter_layOut (key : α → κ) (f : α → β → β) (l : List α) (init : κ → β)
    (ks : List κ) :
    l.foldl (fun m a => alter m (key a) (f a)) (layOut init ks) =
      (firsts ks).map fun k =>
        (k, (l.filter fun a => key a = k).foldl (fun v a => f a v) (init k)) := by
  rw [foldl_alter, layOut_eq, List.map_map]
  rfl

/-- Over keys that are all different, the numbers of elements that go to each of them add up to the
number of elements that go to any. -/
theorem sum_length_filter (key : α → κ) (l : List α) {ks : List κ} (h : ks.Nodup) :
    (ks.map fun k => (l.filter fun a => key a = k).length).sum =
      (l.filter fun a => key a ∈ ks).length := by
  induction ks with
  | nil => simp
  | cons k ks ih =>
    obtain ⟨hk, hks⟩ := List.nodup_cons.mp h
    rw [List.map_cons, List.sum_cons, ih hks, ← List.countP_eq_length_filter,
      ← List.countP_eq_length_filter, ← List.countP_eq_length_filter]
    clear ih
    induction l with
    | nil => rfl
    | cons a l ihl =>
      simp only [List.countP_cons, List.mem_cons, decide_eq_true_eq]
      simp only [List.mem_cons] at ihl
      by_cases h' : key a = k
      · have hnot : key a ∉ ks := h' ▸ hk
        simp only [h', hk, true_or, if_true, if_false]
        omega
      · simp only [h', false_or, if_false]
        omega

/-- The elements of a strictly increasing list of numbers follow each other without a gap if and
only if no number between two of them is missing. -/
theorem isChain_succ_iff {l : List ℕ} (h : l.Pairwise (· < ·)) :
    l.IsChain (fun a b => b = a + 1) ↔ ∀ a ∈ l, ∀ b ∈ l, ∀ k, a < k → k < b → k ∈ l := by
  induction l with
  | nil => exact iff_of_true List.isChain_nil fun a ha => absurd ha List.not_mem_nil
  | cons x l ih =>
    obtain ⟨hx, hl⟩ := List.pairwise_cons.mp h
    cases l with
    | nil =>
      refine iff_of_true (List.isChain_singleton x) fun a ha b hb k hk hk' => ?_
      rw [List.mem_singleton.mp ha] at hk
      rw [List.mem_singleton.mp hb] at hk'
      omega
    | cons y l =>
      have hy : x < y := hx y List.mem_cons_self
      obtain ⟨hyl, _⟩ := List.pairwise_cons.mp hl
      have hle {b : ℕ} (hb : b ∈ y :: l) : y ≤ b := by
        rcases List.mem_cons.mp hb with rfl | hb
        · exact le_rfl
        · exact (hyl b hb).le
      rw [List.isChain_cons_cons, ih hl]
      constructor
      · rintro ⟨rfl, hgaps⟩ a ha b hb k hk hk'
        have hb' : b ∈ (x + 1) :: l := by
          rcases List.mem_cons.mp hb with rfl | hb
          · rcases List.mem_cons.mp ha with rfl | ha
            · omega
            · have := hx a ha
              omega
          · exact hb
        refine List.mem_cons_of_mem x ?_
        rcases List.mem_cons.mp ha with rfl | ha
        · by_cases hk'' : k = a + 1
          · exact hk'' ▸ List.mem_cons_self
          · exact hgaps (a + 1) List.mem_cons_self b hb' k (by omega) hk'
        · exact hgaps a ha b hb' k hk hk'
      · intro hgaps
        refine ⟨?_, fun a ha b hb k hk hk' => ?_⟩
        · by_contra hne
          have hmem := hgaps x List.mem_cons_self y (List.mem_cons_of_mem x List.mem_cons_self)
            (x + 1) (by omega) (by omega)
          rcases List.mem_cons.mp hmem with heq | hmem
          · omega
          · have := hle hmem
            omega
        · have hmem := hgaps a (List.mem_cons_of_mem x ha) b (List.mem_cons_of_mem x hb) k hk hk'
          rcases List.mem_cons.mp hmem with rfl | hmem
          · have := hle ha
            omega
          · exact hmem

end OrderedMap
end Code2Cloud
