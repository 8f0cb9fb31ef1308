import Mathlib.Data.List.TakeWhile
import Mathlib.Data.List.Infix

/-!
# Regular expressions that backtrack

Matching as ECMAScript defines it: an expression is run with what is to be matched behind it, and
of several ways to match the first one counts that succeeds as a whole.  Repetition is greedy and
repeats a class of characters.
-/

namespace Code2Cloud

inductive Regex (α : Type)
  /-- A character of a class. -/
  | one (p : α → Bool)
  /-- `*` behind a class. -/
  | many (p : α → Bool)
  | seq (r s : Regex α)
  | alt (r s : Regex α)
  /-- `?`, which does not count a match of nothing. -/
  | opt (r : Regex α)
  /-- A group that captures, with its number. -/
  | group (n : Nat) (r : Regex α)
  /-- `^` and `$`, without the flag `m`. -/
  | start
  | finish

namespace Regex

variable {α β : Type}

/-- A place in the text: whether it is the first, and what comes from there on. -/
structure Place (α : Type) where
  first : Bool
  rest : List α

abbrev Captures (α : Type) := List (Nat × List α)

def many1 (p : α → Bool) : Regex α := seq (one p) (many p)

/-- As many characters of the class as leave a match for the rest. -/
def runMany (p : α → Bool) (k : Place α → Option β) : Bool → List α → Option β
  | first, [] => k ⟨first, []⟩
  | first, c :: s =>
    if p c then runMany p k false s <|> k ⟨first, c :: s⟩ else k ⟨first, c :: s⟩

/-- Run an expression; `k` matches what stands behind it. -/
def run : Regex α → (Place α → Captures α → Option β) → Place α → Captures α → Option β
  | one p, k, x, cs =>
    match x.rest with
    | [] => none
    | c :: s => if p c then k ⟨false, s⟩ cs else none
  | many p, k, x, cs => runMany p (fun y => k y cs) x.first x.rest
  | seq r s, k, x, cs => r.run (s.run k) x cs
  | alt r s, k, x, cs => r.run k x cs <|> s.run k x cs
  | opt r, k, x, cs =>
    r.run (fun y ds => if y.rest.length = x.rest.length then none else k y ds) x cs <|> k x cs
  | group n r, k, x, cs =>
    r.run (fun y ds => k y ((n, x.rest.take (x.rest.length - y.rest.length)) :: ds)) x cs
  | start, k, x, cs => if x.first then k x cs else none
  | finish, k, x, cs =>
    match x.rest with
    | [] => k x cs
    | _ :: _ => none

def searchFrom (r : Regex α) : Bool → List α → Option (Captures α)
  | first, [] => r.run (fun _ cs => some cs) ⟨first, []⟩ []
  | first, c :: s => r.run (fun _ cs => some cs) ⟨first, c :: s⟩ [] <|> searchFrom r false s

/-- `s.match(r)`, with what the groups captured. -/
def search (r : Regex α) (s : List α) : Option (Captures α) := searchFrom r true s

def captured (cs : Captures α) (n : Nat) : Option (List α) :=
  (cs.find? fun c => c.1 == n).map (·.2)

/-- `s.replace(r, "")` with the flag `g`, behind some characters of a match to be left out. -/
def removeFrom (r : Regex α) : Nat → Bool → List α → List α
  | _, _, [] => []
  | skip + 1, _, _ :: s => removeFrom r skip false s
  | 0, first, c :: s =>
    match r.run (fun y _ => some ((c :: s).length - y.rest.length)) ⟨first, c :: s⟩ [] with
    | some (n + 1) => removeFrom r n false s
    | some 0 | none => c :: removeFrom r 0 false s

def remove (r : Regex α) (s : List α) : List α := removeFrom r 0 true s

theorem length_removeFrom_le (r : Regex α) (skip : Nat) (first : Bool) (s : List α) :
    (removeFrom r skip first s).length ≤ s.length := by
  induction s generalizing skip first with
  | nil => cases skip <;> exact Nat.le_refl 0
  | cons c s ih =>
    cases skip with
    | zero =>
      rw [removeFrom]
      split
      · next n _ => exact (ih n false).trans (Nat.le_succ s.length)
      · exact Nat.succ_le_succ (ih 0 false)
      · exact Nat.succ_le_succ (ih 0 false)
    | succ skip => exact (ih skip false).trans (Nat.le_succ s.length)

/-! ## Repetition -/

variable {p : α → Bool} {k : Place α → Option β}

/-- What a repetition matched, read off what it left. -/
theorem take_length_sub_dropWhile (p : α → Bool) (s : List α) :
    s.take (s.length - (s.dropWhile p).length) = s.takeWhile p := by
  have hsplit : s.takeWhile p ++ s.dropWhile p = s := List.takeWhile_append_dropWhile
  have hlength := congrArg List.length hsplit
  rw [List.length_append] at hlength
  rw [← hlength, Nat.add_sub_cancel]
  calc s.take (s.takeWhile p).length
      = (s.takeWhile p ++ s.dropWhile p).take (s.takeWhile p).length := by rw [hsplit]
    _ = s.takeWhile p := List.take_left

/-- The greediest cut is the one that counts where nothing else matches without it. -/
theorem runMany_eq {first : Bool} {s : List α}
    (h : k ⟨first && (s.takeWhile p).isEmpty, s.dropWhile p⟩ = none →
      ∀ first' a c t, a ++ c :: t = s → a.all p = true → p c = true → k ⟨first', c :: t⟩ = none) :
    runMany p k first s = k ⟨first && (s.takeWhile p).isEmpty, s.dropWhile p⟩ := by
  induction s generalizing first with
  | nil => rw [runMany, List.takeWhile_nil, List.isEmpty_nil, Bool.and_true, List.dropWhile_nil]
  | cons c s ih =>
    by_cases hc : p c = true
    · rw [List.takeWhile_cons_of_pos hc, List.isEmpty_cons, Bool.and_false,
        List.dropWhile_cons_of_pos hc] at h ⊢
      have hrest := @ih false (by
        rw [Bool.false_and]
        intro hnone first' a d t ht ha hd
        refine h hnone first' (c :: a) d t (congrArg (c :: ·) ht) ?_ hd
        rw [List.all_cons, hc, ha, Bool.and_self])
      rw [Bool.false_and] at hrest
      rw [runMany, if_pos hc, hrest]
      cases hk : k ⟨false, s.dropWhile p⟩ with
      | some b => rfl
      | none => exact h hk first [] c s rfl rfl hc
    · rw [List.takeWhile_cons_of_neg hc, List.isEmpty_nil, Bool.and_true,
        List.dropWhile_cons_of_neg hc, runMany, if_neg hc]

theorem runMany_of_fails {first : Bool} {s : List α}
    (h : ∀ first' c t, p c = true → k ⟨first', c :: t⟩ = none) :
    runMany p k first s = k ⟨first && (s.takeWhile p).isEmpty, s.dropWhile p⟩ :=
  runMany_eq fun _ first' _ c t _ _ hc => h first' c t hc

theorem searchFrom_start (r : Regex α) (s : List α) : searchFrom (seq start r) false s = none := by
  induction s with
  | nil => rfl
  | cons c s ih => rw [searchFrom, ih]; rfl

/-- An expression that begins with `^` is matched at the start of the text. -/
theorem search_start (r : Regex α) (s : List α) :
    search (seq start r) s = r.run (fun _ cs => some cs) ⟨true, s⟩ [] := by
  cases s with
  | nil => rfl
  | cons c s =>
    rw [search, searchFrom, searchFrom_start]
    change (r.run (fun _ cs => some cs) ⟨true, c :: s⟩ [] <|> none) = _
    cases r.run (fun _ cs => some cs) ⟨true, c :: s⟩ [] <;> rfl

theorem run_many_finish (cs : Captures α) (k : Captures α → Option β) (x : Place α) :
    (many p).run (finish.run fun _ => k) x cs = if x.rest.all p then k cs else none := by
  have hfails : ∀ (first' : Bool) (c : α) (t : List α), p c = true →
      finish.run (fun _ => k) ⟨first', c :: t⟩ cs = none := fun _ _ _ _ => rfl
  rw [run, runMany_of_fails hfails]
  by_cases hall : x.rest.all p = true
  · rw [if_pos hall, List.dropWhile_eq_nil_iff.mpr fun c hc => List.all_eq_true.mp hall c hc]
    rfl
  · rw [if_neg hall]
    cases hdrop : x.rest.dropWhile p with
    | nil =>
      rw [List.dropWhile_eq_nil_iff] at hdrop
      exact absurd (List.all_eq_true.mpr hdrop) hall
    | cons c s => rfl

end Regex
end Code2Cloud
