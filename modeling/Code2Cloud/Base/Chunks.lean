import Mathlib.Data.List.Flatten

/-!
# Chunks

A text that comes in chunks, and the pieces that the chunks cut its lines into.  What is
computed from each line of the whole text is compared with what is computed from each of
its pieces.
-/

namespace Code2Cloud
namespace Chunks

variable {α β : Type*} (sep : α → Bool)

/-- The pieces of the first line, and those of the lines after it. -/
structure Pieces (α : Type*) where
  first : List (List α)
  rest : List (List (List α))

def Pieces.lines (p : Pieces α) : List (List (List α)) := p.first :: p.rest

/-- A chunk before a text: its last line goes on in the first line of the text. -/
def cut : List α → Pieces α → List α × Pieces α
  | [], p => ([], p)
  | x :: chunk, p =>
    let next := cut chunk p
    if sep x then ([], { first := [], rest := (next.1 :: next.2.first) :: next.2.rest })
    else (x :: next.1, next.2)

/-- The pieces of each line of a text that comes in chunks. -/
def pieces : List (List α) → Pieces α
  | [] => { first := [], rest := [] }
  | chunk :: chunks =>
    let next := cut sep chunk (pieces chunks)
    { next.2 with first := next.1 :: next.2.first }

variable {sep}

theorem cut_flatten (chunk : List α) (p : Pieces α) :
    (cut sep chunk p).1 :: (cut sep chunk p).2.lines.flatten =
      chunk.splitOnP sep ++ p.lines.flatten := by
  induction chunk with
  | nil => rfl
  | cons x chunk ih =>
    rw [cut, List.splitOnP_cons_eq_if_modifyHead]
    by_cases hsep : sep x = true
    · simp only [if_pos hsep]
      rw [List.cons_append, ← ih]
      rfl
    · simp only [if_neg hsep]
      obtain ⟨piece, rest, hsplit⟩ := List.exists_cons_of_ne_nil (List.splitOnP_ne_nil sep chunk)
      rw [hsplit, List.cons_append, List.cons.injEq] at ih
      rw [hsplit, List.modifyHead_cons, List.cons_append, ← ih.1, ← ih.2]

/-- The pieces of all lines are what the chunks are split into one by one. -/
theorem flatten_pieces (chunks : List (List α)) :
    (pieces sep chunks).lines.flatten = chunks.flatMap fun chunk => chunk.splitOnP sep := by
  induction chunks with
  | nil => rfl
  | cons chunk chunks ih =>
    rw [List.flatMap_cons, ← ih, ← cut_flatten]
    rfl

theorem cut_map_flatten (chunk : List α) {p : Pieces α} {text : List α}
    (h : p.lines.map List.flatten = text.splitOnP sep) :
    ((cut sep chunk p).1 ++ (cut sep chunk p).2.first.flatten) ::
        (cut sep chunk p).2.rest.map List.flatten = (chunk ++ text).splitOnP sep := by
  induction chunk with
  | nil => exact h
  | cons x chunk ih =>
    rw [cut, List.cons_append, List.splitOnP_cons_eq_if_modifyHead, ← ih]
    by_cases hsep : sep x = true
    · simp only [if_pos hsep]
      rfl
    · simp only [if_neg hsep]
      rfl

/-- The lines of the whole text are put together from their pieces. -/
theorem map_flatten_pieces (chunks : List (List α)) :
    (pieces sep chunks).lines.map List.flatten = chunks.flatten.splitOnP sep := by
  induction chunks with
  | nil => rfl
  | cons chunk chunks ih =>
    rw [List.flatten_cons, ← cut_map_flatten chunk ih]
    rfl

/-! ## Lines and pieces -/

theorem flatMap_lines (chunks : List (List α)) (f : List α → List β) :
    (chunks.flatten.splitOnP sep).flatMap f =
      (pieces sep chunks).lines.flatMap fun ps => f ps.flatten := by
  rw [← map_flatten_pieces, List.flatMap_map]

theorem flatMap_pieces (chunks : List (List α)) (f : List α → List β) :
    (chunks.flatMap fun chunk => (chunk.splitOnP sep).flatMap f) =
      (pieces sep chunks).lines.flatMap fun ps => ps.flatMap f := by
  have hassoc : (chunks.flatMap fun chunk => (chunk.splitOnP sep).flatMap f) =
      (chunks.flatMap fun chunk => chunk.splitOnP sep).flatMap f := List.flatMap_assoc.symm
  rw [hassoc, ← flatten_pieces]
  rw [List.flatMap_def, List.map_flatten, List.flatten_flatten, List.map_map]
  rfl

/-- Where the parts on one side are never longer, two concatenations are equal only part by
part. -/
theorem flatMap_eq_iff {γ : Type*} {l : List γ} {f g : γ → List β}
    (h : ∀ x ∈ l, (f x).length ≤ (g x).length) :
    l.flatMap f = l.flatMap g ↔ ∀ x ∈ l, f x = g x := by
  induction l with
  | nil => simp
  | cons x l ih =>
    have hl : ∀ x ∈ l, (f x).length ≤ (g x).length := fun y hy => h y (List.mem_cons_of_mem x hy)
    have hx := h x List.mem_cons_self
    have hle : (l.flatMap f).length ≤ (l.flatMap g).length := by
      clear ih hx h
      induction l with
      | nil => exact Nat.le_refl _
      | cons y l ih =>
        rw [List.flatMap_cons, List.flatMap_cons, List.length_append, List.length_append]
        exact Nat.add_le_add (hl y List.mem_cons_self)
          (ih fun z hz => hl z (List.mem_cons_of_mem y hz))
    rw [List.flatMap_cons, List.flatMap_cons, List.forall_mem_cons, ← ih hl]
    constructor
    · intro heq
      have hlength := congrArg List.length heq
      rw [List.length_append, List.length_append] at hlength
      exact List.append_inj heq (by omega)
    · rintro ⟨hx, hl⟩
      rw [hx, hl]

end Chunks
end Code2Cloud
