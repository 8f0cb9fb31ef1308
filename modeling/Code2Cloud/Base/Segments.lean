import Mathlib.Data.List.Chain
import Mathlib.Data.List.DropRight

/-!
# Runs of separators

Text that keeps the elements of one class and writes a single separator for each
run of the others.  `collapse` is the left-to-right loop, `slug` the join of the
maximal runs of kept elements, and `clip` cuts a text at a length and drops a
separator left at the cut.  Cutting twice is cutting once, as long as no two
separators meet.
-/

namespace Code2Cloud
namespace Segments

variable {α : Type*} (keep : α → Bool) (sep : α)

/-- Copy the kept elements and write one `sep` for each run of others.  `last`
holds when a separator would be redundant. -/
def collapse : List α → Bool → List α
  | [], _ => []
  | c :: rest, last =>
    if keep c then c :: collapse rest false
    else if last then collapse rest true
    else sep :: collapse rest true

/-- The maximal runs of kept elements, in order. -/
def words (s : List α) : List (List α) :=
  (s.splitOnP fun c => !keep c).filter fun w => !w.isEmpty

def slug (s : List α) : List α := [sep].intercalate (words keep s)

def Spaced (s : List α) : Prop := s.IsChain fun a b => ¬(a = sep ∧ b = sep)

theorem Spaced.take {s : List α} (h : Spaced sep s) (n : Nat) : Spaced sep (s.take n) :=
  List.IsChain.take h n

theorem Spaced.mono {s t : List α} (h : Spaced sep t) (hp : s <+: t) : Spaced sep s := by
  obtain ⟨r, rfl⟩ := hp
  exact (List.isChain_append.mp h).1

/-! ## What the loop writes -/

theorem mem_collapse {s : List α} {last : Bool} {c : α} (h : c ∈ collapse keep sep s last) :
    keep c = true ∨ c = sep := by
  induction s generalizing last with
  | nil => simp [collapse] at h
  | cons d s ih =>
    rw [collapse] at h
    split at h
    · rename_i hd
      rcases List.mem_cons.mp h with rfl | h
      · exact Or.inl hd
      · exact ih h
    · split at h
      · exact ih h
      · rcases List.mem_cons.mp h with rfl | h
        · exact Or.inr rfl
        · exact ih h

/-- After a separator the loop starts with a kept element, if it writes at all. -/
theorem head_collapse_true {keep : α → Bool} {sep : α} {s : List α} {c : α}
    (h : (collapse keep sep s true).head? = some c) : keep c = true := by
  induction s with
  | nil => simp [collapse] at h
  | cons d s ih =>
    rw [collapse] at h
    split at h
    · rename_i hd
      simp only [List.head?_cons, Option.some.injEq] at h
      exact h ▸ hd
    · exact ih (by simpa using h)

theorem collapse_spaced {keep : α → Bool} {sep : α} (hsep : keep sep = false) (s : List α)
    (last : Bool) :
    Spaced sep (collapse keep sep s last) := by
  induction s generalizing last with
  | nil => exact List.IsChain.nil
  | cons d s ih =>
    rw [collapse]
    split
    · rename_i hd
      refine List.isChain_cons.mpr ⟨fun y _ hy => ?_, ih false⟩
      rw [hy.1, hsep] at hd
      exact Bool.false_ne_true hd
    · split
      · exact ih true
      · refine List.isChain_cons.mpr ⟨fun y hy hs => ?_, ih true⟩
        have := head_collapse_true hy
        rw [hs.2, hsep] at this
        exact Bool.false_ne_true this

/-! ## Words between separators -/

/-- Words of kept elements, with a separator between each two. -/
inductive Separated (keep : α → Bool) (IsSeparator : List α → Prop) : List α → Prop
  | word {w : List α} (hne : w ≠ []) (hw : ∀ c ∈ w, keep c = true) :
    Separated keep IsSeparator w
  | more {s t w : List α} (hs : Separated keep IsSeparator s) (ht : IsSeparator t) (hne : w ≠ [])
    (hw : ∀ c ∈ w, keep c = true) : Separated keep IsSeparator (s ++ t ++ w)

namespace Separated

variable {keep : α → Bool} {sep : α} {IsSeparator : List α → Prop} {s : List α}

theorem head (h : Separated keep IsSeparator s) : ∃ c, s.head? = some c ∧ keep c = true := by
  induction h with
  | word hne hw => exact ⟨_, List.head?_eq_some_head hne, hw _ (List.head_mem hne)⟩
  | more hs ht hne hw ih =>
    obtain ⟨c, hc, hkeep⟩ := ih
    exact ⟨c, by rw [List.append_assoc, List.head?_append, hc, Option.some_or], hkeep⟩

theorem last (h : Separated keep IsSeparator s) : ∃ c, s.getLast? = some c ∧ keep c = true := by
  have hword {r w : List α} (hne : w ≠ []) (hw : ∀ c ∈ w, keep c = true) :
      ∃ c, (r ++ w).getLast? = some c ∧ keep c = true := by
    refine ⟨w.getLast hne, ?_, hw _ (List.getLast_mem hne)⟩
    rw [List.getLast?_append, List.getLast?_eq_some_getLast hne, Option.some_or]
  cases h with
  | word hne hw => exact hword (r := []) hne hw
  | more hs ht hne hw => exact hword hne hw

theorem concat (h : Separated keep IsSeparator s) {c : α} (hc : keep c = true) :
    Separated keep IsSeparator (s ++ [c]) := by
  have hlonger {w : List α} (hw : ∀ c ∈ w, keep c = true) : ∀ d ∈ w ++ [c], keep d = true := by
    intro d hd
    rcases List.mem_append.mp hd with hd | hd
    · exact hw d hd
    · exact List.mem_singleton.mp hd ▸ hc
  cases h with
  | word hne hw => exact word (List.concat_ne_nil c _) (hlonger hw)
  | more hs ht hne hw =>
    rw [List.append_assoc]
    exact more hs ht (List.concat_ne_nil c _) (hlonger hw)

/-- Where every run of `sep` is a separator, text that ends in a kept element can go on. -/
theorem append (hsep : ∀ n, IsSeparator (List.replicate (n + 1) sep)) {t : List α}
    (h : Separated keep IsSeparator s) (n : Nat) (ht : ∀ c ∈ t, keep c = true ∨ c = sep)
    (hlast : ∃ c, (s ++ List.replicate n sep ++ t).getLast? = some c ∧ c ≠ sep) :
    Separated keep IsSeparator (s ++ List.replicate n sep ++ t) := by
  induction t generalizing s n with
  | nil =>
    cases n with
    | zero => simpa using h
    | succ n =>
      obtain ⟨c, hc, hne⟩ := hlast
      rw [List.append_nil, List.replicate_succ', ← List.append_assoc, List.getLast?_concat,
        Option.some.injEq] at hc
      exact absurd hc.symm hne
  | cons c t ih =>
    have hrest : ∀ d ∈ t, keep d = true ∨ d = sep := fun d hd => ht d (List.mem_cons_of_mem c hd)
    rcases ht c List.mem_cons_self with hc | rfl
    · have hword : Separated keep IsSeparator (s ++ List.replicate n sep ++ [c]) := by
        cases n with
        | zero => simpa using h.concat hc
        | succ n =>
          exact more h (hsep n) (List.cons_ne_nil c []) fun d hd => List.mem_singleton.mp hd ▸ hc
      have hstep := ih hword 0 hrest
      simp only [List.replicate_zero, List.append_nil, List.append_assoc,
        List.singleton_append] at hstep hlast ⊢
      exact hstep hlast
    · have hrun : s ++ List.replicate n c ++ c :: t = s ++ List.replicate (n + 1) c ++ t := by
        rw [List.replicate_succ', List.append_assoc, List.append_assoc, List.append_assoc,
          List.singleton_append]
      rw [hrun] at hlast ⊢
      exact ih h (n + 1) hrest hlast

end Separated

/-- Text of kept elements and of `sep` is words between separators where both its ends are
kept. -/
theorem separated_iff {keep : α → Bool} {sep : α} {IsSeparator : List α → Prop}
    (hkeep : keep sep = false)
    (hsep : ∀ n, IsSeparator (List.replicate (n + 1) sep)) {s : List α}
    (hs : ∀ c ∈ s, keep c = true ∨ c = sep) :
    Separated keep IsSeparator s ↔
      (∃ c, s.head? = some c ∧ c ≠ sep) ∧ ∃ c, s.getLast? = some c ∧ c ≠ sep := by
  have hne {c : α} (hc : keep c = true) : c ≠ sep := by
    rintro rfl
    rw [hkeep] at hc
    cases hc
  constructor
  · intro h
    obtain ⟨c, hc, hck⟩ := h.head
    obtain ⟨d, hd, hdk⟩ := h.last
    exact ⟨⟨c, hc, hne hck⟩, ⟨d, hd, hne hdk⟩⟩
  · rintro ⟨⟨c, hc, hcne⟩, hlast⟩
    obtain ⟨t, rfl⟩ := List.head?_eq_some_iff.mp hc
    have hfirst : keep c = true := (hs c List.mem_cons_self).resolve_right hcne
    have hword : Separated keep IsSeparator [c] :=
      .word (List.cons_ne_nil c []) fun d hd => List.mem_singleton.mp hd ▸ hfirst
    exact hword.append hsep 0 (fun d hd => hs d (List.mem_cons_of_mem c hd)) hlast

/-! ## Trimming and cutting -/

variable [DecidableEq α]

def trimOne (s : List α) : List α :=
  if s.getLast? = some sep then s.dropLast else s

def clip (n : Nat) (s : List α) : List α := trimOne sep (s.take n)

theorem trimOne_concat_sep (s : List α) : trimOne sep (s ++ [sep]) = s := by
  simp [trimOne]

theorem trimOne_of_getLast?_ne {s : List α} (h : s.getLast? ≠ some sep) :
    trimOne sep s = s := by
  simp [trimOne, h]

theorem trimOne_isPrefix_self (s : List α) : trimOne sep s <+: s := by
  unfold trimOne
  split
  · exact List.dropLast_prefix s
  · exact List.prefix_refl s

theorem trimOne_append {t : List α} (ht : t ≠ []) (s : List α) :
    trimOne sep (s ++ t) = s ++ trimOne sep t := by
  unfold trimOne
  rw [List.getLast?_append_of_ne_nil s ht, List.dropLast_append_of_ne_nil ht]
  split <;> rfl

theorem trimOne_cons {c : α} (hc : c ≠ sep) (s : List α) :
    trimOne sep (c :: s) = c :: trimOne sep s := by
  cases s with
  | nil => simp [trimOne, hc]
  | cons d s =>
    unfold trimOne
    rw [List.getLast?_cons_cons]
    split <;> simp

/-- Dropping the separator of a spaced text leaves no other one exposed. -/
theorem getLast?_trimOne_ne {s : List α} (h : Spaced sep s) :
    (trimOne sep s).getLast? ≠ some sep := by
  by_cases hl : s.getLast? = some sep
  · obtain ⟨r, rfl⟩ := List.getLast?_eq_some_iff.mp hl
    rw [trimOne_concat_sep]
    intro hr
    obtain ⟨q, rfl⟩ := List.getLast?_eq_some_iff.mp hr
    have hc : Spaced sep (q ++ ([sep] ++ [sep])) := by simpa using h
    have := (List.isChain_append.mp hc).2.1
    simp at this
  · rw [trimOne_of_getLast?_ne sep hl]
    exact hl

/-- On a spaced text the loop that drops every trailing separator drops at most
one. -/
theorem rdropWhile_eq_trimOne {s : List α} (h : Spaced sep s) :
    s.rdropWhile (· == sep) = trimOne sep s := by
  by_cases hl : s.getLast? = some sep
  · obtain ⟨r, rfl⟩ := List.getLast?_eq_some_iff.mp hl
    rw [List.rdropWhile_concat_pos _ _ _ (by simp), trimOne_concat_sep,
      List.rdropWhile_eq_self_iff]
    intro hne
    have hr := getLast?_trimOne_ne sep h
    rw [trimOne_concat_sep, List.getLast?_eq_some_getLast hne] at hr
    simpa using hr
  · rw [trimOne_of_getLast?_ne sep hl, List.rdropWhile_eq_self_iff]
    intro hne
    rw [List.getLast?_eq_some_getLast hne] at hl
    simpa using hl

theorem clip_isPrefix_self (n : Nat) (s : List α) : clip sep n s <+: s :=
  (trimOne_isPrefix_self sep _).trans (List.take_prefix n s)

theorem length_clip_le (n : Nat) (s : List α) : (clip sep n s).length ≤ n :=
  Nat.le_trans (trimOne_isPrefix_self sep _).length_le (List.length_take_le n s)

/-- A text that fits and does not end in a separator is left alone. -/
theorem clip_of_length_le {n : Nat} {s : List α} (hn : s.length ≤ n)
    (hl : s.getLast? ≠ some sep) : clip sep n s = s := by
  rw [clip, List.take_of_length_le hn, trimOne_of_getLast?_ne sep hl]

/-- A cut keeps its full length unless a separator stands at it. -/
theorem length_clip_eq_iff {n : Nat} {s : List α} :
    (clip sep (n + 1) s).length = n + 1 ↔ n + 1 ≤ s.length ∧ s[n]? ≠ some sep := by
  by_cases hn : n + 1 ≤ s.length
  · have hlast : (s.take (n + 1)).getLast? = s[n]? := by
      rw [List.getLast?_take, if_neg (Nat.succ_ne_zero n), Nat.add_sub_cancel,
        List.getElem?_eq_getElem hn, Option.some_or]
    have hlength : (s.take (n + 1)).length = n + 1 := by
      rw [List.length_take, Nat.min_eq_left hn]
    rw [clip, trimOne, hlast]
    split
    · rename_i hsep
      rw [List.length_dropLast, hlength]
      exact iff_of_false (by omega) fun h => h.2 hsep
    · rename_i hsep
      exact iff_of_true hlength ⟨hn, hsep⟩
  · refine iff_of_false (fun h => hn ?_) fun h => hn h.1
    rw [← h]
    exact (clip_isPrefix_self sep (n + 1) s).length_le

theorem clip_cons {c : α} (hc : c ≠ sep) (n : Nat) (s : List α) :
    clip sep (n + 1) (c :: s) = c :: clip sep n s := by
  rw [clip, List.take_succ_cons, trimOne_cons sep hc, clip]

/-- Cutting at `k` and then at a smaller length is cutting at the smaller
length. -/
theorem clip_clip {s : List α} (h : Spaced sep s) {j k : Nat} (hjk : j ≤ k) :
    clip sep j (clip sep k s) = clip sep j s := by
  by_cases hl : (s.take k).getLast? = some sep
  · obtain ⟨x, hx⟩ := List.getLast?_eq_some_iff.mp hl
    have hclip : clip sep k s = x := by rw [clip, hx, trimOne_concat_sep]
    have htake : s.take j = (x ++ [sep]).take j := by
      rw [← hx, List.take_take, Nat.min_eq_left hjk]
    rw [hclip, clip, clip, htake]
    rcases Nat.lt_or_ge x.length j with hj | hj
    · have hxs : (x ++ [sep]).take j = x ++ [sep] :=
        List.take_of_length_le (by simp; omega)
      have hxl : x.getLast? ≠ some sep := by
        rw [← hclip]
        exact getLast?_trimOne_ne sep (h.take sep k)
      rw [hxs, trimOne_concat_sep, List.take_of_length_le (by omega),
        trimOne_of_getLast?_ne sep hxl]
    · rw [List.take_append_of_le_length hj]
  · have hclip : clip sep k s = s.take k := trimOne_of_getLast?_ne sep hl
    rw [hclip, clip, clip, List.take_take, Nat.min_eq_left hjk]

/-! ## The loop writes the slug -/

/-- The loop on the pieces between separators: a nonempty piece is followed by a
separator unless it is the last piece. -/
def joinPieces : List (List α) → List α
  | [] => []
  | w :: ws =>
    if w.isEmpty then joinPieces ws
    else w ++ if ws.isEmpty then [] else sep :: joinPieces ws

omit [DecidableEq α] in
theorem collapse_eq_joinPieces (s : List α) :
    collapse keep sep s true = joinPieces sep (s.splitOnP fun c => !keep c) ∧
      ∀ w ws, (s.splitOnP fun c => !keep c) = w :: ws →
        collapse keep sep s false = w ++ if ws.isEmpty then [] else sep :: joinPieces sep ws := by
  induction s with
  | nil => simp [collapse, joinPieces]
  | cons c s ih =>
    obtain ⟨w, ws, hs⟩ := List.exists_cons_of_ne_nil
      (List.splitOnP_ne_nil (fun c => !keep c) s)
    have hfalse := ih.2 w ws hs
    rw [List.splitOnP_cons_eq_if_modifyHead, hs]
    by_cases hc : keep c = true
    · simp [collapse, hc, joinPieces, hfalse]
    · have hjoin := ih.1
      rw [hs] at hjoin
      constructor
      · simp [collapse, hc, joinPieces, hjoin]
      · intro w' ws' h
        simp only [hc, Bool.not_false, if_true, List.cons.injEq] at h
        obtain ⟨rfl, rfl⟩ := h
        simp [collapse, hc, hjoin]

omit [DecidableEq α] in
theorem keep_of_mem_pieces {s w : List α} {c : α}
    (hw : w ∈ s.splitOnP fun c => !keep c) (hc : c ∈ w) : keep c = true := by
  induction s generalizing w with
  | nil =>
    rw [List.splitOnP_nil, List.mem_singleton] at hw
    simp [hw] at hc
  | cons d s ih =>
    obtain ⟨v, vs, hs⟩ := List.exists_cons_of_ne_nil
      (List.splitOnP_ne_nil (fun c => !keep c) s)
    rw [List.splitOnP_cons_eq_if_modifyHead] at hw
    by_cases hd : keep d = true
    · simp only [hd, Bool.not_true, Bool.false_eq_true, if_false, hs, List.modifyHead_cons,
        List.mem_cons] at hw
      rcases hw with rfl | hw
      · rcases List.mem_cons.mp hc with rfl | hc
        · exact hd
        · exact ih (hs ▸ List.mem_cons_self) hc
      · exact ih (hs ▸ List.mem_cons_of_mem v hw) hc
    · simp only [hd, Bool.not_false, if_true, List.mem_cons] at hw
      rcases hw with rfl | hw
      · simp at hc
      · exact ih hw hc

omit [DecidableEq α] in
theorem joinPieces_eq_nil_iff (ps : List (List α)) :
    joinPieces sep ps = [] ↔ (ps.filter fun w => !w.isEmpty) = [] := by
  induction ps with
  | nil => simp [joinPieces]
  | cons w ws ih =>
    by_cases hw : w = []
    · simp [joinPieces, hw, ih]
    · simp [joinPieces, hw]

/-- Joined pieces are the nonempty ones between single separators, with one
separator left over when an empty piece ends the list. -/
theorem trimOne_joinPieces {ps : List (List α)} (h : ∀ w ∈ ps, sep ∉ w) :
    trimOne sep (joinPieces sep ps) = [sep].intercalate (ps.filter fun w => !w.isEmpty) := by
  induction ps with
  | nil => simp [joinPieces, trimOne]
  | cons w ws ih =>
    have hws := ih fun v hv => h v (List.mem_cons_of_mem w hv)
    by_cases hw : w = []
    · simpa [joinPieces, hw] using hws
    · have hlast : w.getLast? ≠ some sep :=
        fun hl => h w List.mem_cons_self (List.mem_of_getLast? hl)
      by_cases hempty : ws = []
      · simp [joinPieces, hw, hempty, trimOne_of_getLast?_ne sep hlast]
      · have hjoin : joinPieces sep (w :: ws) = w ++ sep :: joinPieces sep ws := by
          simp [joinPieces, hw, hempty]
        have hfilter : ((w :: ws).filter fun w => !w.isEmpty) =
            w :: ws.filter fun w => !w.isEmpty := by
          simp [hw]
        rw [hjoin, hfilter]
        by_cases hj : joinPieces sep ws = []
        · rw [hj, (joinPieces_eq_nil_iff sep ws).mp hj, trimOne_concat_sep]
          simp
        · have hne : (ws.filter fun w => !w.isEmpty) ≠ [] :=
            fun hf => hj ((joinPieces_eq_nil_iff sep ws).mpr hf)
          rw [List.intercalate_cons_of_ne_nil hne, ← hws, List.append_cons,
            trimOne_append sep hj]

/-- The loop writes the slug, up to one separator at the end. -/
theorem trimOne_collapse {keep : α → Bool} {sep : α} (hsep : keep sep = false) (s : List α) :
    trimOne sep (collapse keep sep s true) = slug keep sep s := by
  rw [(collapse_eq_joinPieces keep sep s).1, trimOne_joinPieces]
  · rfl
  · intro w hw hmem
    have := keep_of_mem_pieces keep hw hmem
    rw [hsep] at this
    exact Bool.false_ne_true this

/-! ## The shape of a slug -/

section Shape

variable {keep : α → Bool} {sep : α}

theorem slug_prefix_collapse (hsep : keep sep = false) (s : List α) :
    slug keep sep s <+: collapse keep sep s true := by
  rw [← trimOne_collapse hsep s]
  exact trimOne_isPrefix_self sep _

theorem slug_spaced (hsep : keep sep = false) (s : List α) : Spaced sep (slug keep sep s) :=
  (collapse_spaced hsep s true).mono sep (slug_prefix_collapse hsep s)

theorem getLast?_slug_ne (hsep : keep sep = false) (s : List α) :
    (slug keep sep s).getLast? ≠ some sep := by
  rw [← trimOne_collapse hsep s]
  exact getLast?_trimOne_ne sep (collapse_spaced hsep s true)

theorem keep_of_head?_slug (hsep : keep sep = false) {s : List α} {c : α}
    (h : (slug keep sep s).head? = some c) : keep c = true := by
  obtain ⟨r, hr⟩ := slug_prefix_collapse hsep s
  have hhead : (collapse keep sep s true).head? = some c := by
    rw [← hr, List.head?_append, h, Option.some_or]
  exact head_collapse_true hhead

theorem clip_trimOne {t : List α} (h : Spaced sep t) (n : Nat) :
    clip sep n (trimOne sep t) = clip sep n t := by
  have htrim : trimOne sep t = clip sep (max n t.length) t := by
    rw [clip, List.take_of_length_le (Nat.le_max_right n t.length)]
  rw [htrim, clip_clip sep h (Nat.le_max_left n t.length)]

/-- Cutting what the loop writes is cutting the slug. -/
theorem clip_collapse (hsep : keep sep = false) (n : Nat) (s : List α) :
    clip sep n (collapse keep sep s true) = clip sep n (slug keep sep s) := by
  rw [← trimOne_collapse hsep s, clip_trimOne (collapse_spaced hsep s true)]

omit [DecidableEq α] in
/-- The loop leaves a text alone that has the shape of its output. -/
theorem collapse_eq_self {s : List α} (hs : ∀ c ∈ s, keep c = true ∨ c = sep)
    (h : Spaced sep s) :
    collapse keep sep s false = s ∧ (s.head? ≠ some sep → collapse keep sep s true = s) := by
  induction s with
  | nil => simp [collapse]
  | cons c s ih =>
    obtain ⟨hhead, htail⟩ := List.isChain_cons.mp h
    obtain ⟨ihfalse, ihtrue⟩ := ih (fun d hd => hs d (List.mem_cons_of_mem c hd)) htail
    by_cases hc : keep c = true
    · simp [collapse, hc, ihfalse]
    · have hsep : c = sep := (hs c List.mem_cons_self).resolve_left hc
      have hnext : s.head? ≠ some sep := fun hd => hhead sep hd ⟨hsep, rfl⟩
      constructor
      · rw [collapse, if_neg hc, if_neg (by decide), ihtrue hnext, hsep]
      · simp [hsep]

theorem slug_eq_self (hsep : keep sep = false) {s : List α}
    (hs : ∀ c ∈ s, keep c = true ∨ c = sep) (h : Spaced sep s) (hhead : s.head? ≠ some sep)
    (hlast : s.getLast? ≠ some sep) : slug keep sep s = s := by
  rw [← trimOne_collapse hsep, (collapse_eq_self hs h).2 hhead, trimOne_of_getLast?_ne sep hlast]

end Shape

end Segments
end Code2Cloud
