import Code2Cloud.Base.Chunks
import Code2Cloud.Worker.Scanner
import Mathlib.Data.List.TakeWhile

/-!
# Lines in chunks

What `StreamLogger.Write` makes of an output that comes in chunks: each write is scanned on
its own, so a line that two writes share is logged as two lines.
-/

namespace Code2Cloud
namespace Worker
namespace Scanner

/-- The lines logged for a line of the input. -/
def acceptedLine (line : GoString) : List GoString :=
  if dropCR line = [] then [] else [dropCR line]

/-- No line of the input is `ErrTooLong`. -/
def Short (p : GoString) : Prop := ∀ line ∈ linesFrom [] p, line.length < maxScanTokenSize

def isNewline (c : UInt8) : Bool := c == newline

/-- The chunks leave a line in one piece, or cut off the carriage return at its end. -/
def Uncut (ps : List GoString) : Prop :=
  match ps.filter fun p => p ≠ [] with
  | [] | [_] => True
  | [p, q] => p.getLast? ≠ some carriageReturn ∧ q = [carriageReturn]
  | _ => False

instance (ps : List GoString) : Decidable (Uncut ps) := by
  unfold Uncut
  split <;> infer_instance

variable {p q : GoString}

/-! ## Scanning a text without long lines -/

@[simp] theorem acceptedLine_nil : acceptedLine [] = [] := rfl

theorem isNewline_iff {c : UInt8} : isNewline c = true ↔ c = newline := beq_iff_eq

theorem mem_linesFrom {current line : GoString} (h : line ∈ linesFrom current p) :
    line ∈ (p.splitOnP isNewline).modifyHead (current ++ ·) := by
  induction p generalizing current with
  | nil =>
    rw [linesFrom] at h
    split at h
    · cases h
    · rw [List.mem_singleton.mp h, List.splitOnP_nil, List.modifyHead_cons, List.append_nil]
      exact List.mem_singleton_self _
  | cons c p ih =>
    obtain ⟨first, rest, hsplit⟩ :=
      List.exists_cons_of_ne_nil (List.splitOnP_ne_nil isNewline p)
    rw [linesFrom] at h
    rw [List.splitOnP_cons_eq_if_modifyHead]
    split at h
    · rename_i hc
      rw [if_pos (isNewline_iff.mpr hc), List.modifyHead_cons, List.append_nil]
      rcases List.mem_cons.mp h with rfl | h
      · exact List.mem_cons_self
      · have hrest := ih h
        rw [hsplit, List.modifyHead_cons, List.nil_append, ← hsplit] at hrest
        exact List.mem_cons_of_mem _ hrest
    · rename_i hc
      have hrest := ih h
      rw [hsplit] at hrest ⊢
      rw [if_neg (fun hnewline => hc (isNewline_iff.mp hnewline))]
      simpa using hrest

theorem flatMap_linesFrom {β : Type} {f : GoString → List β} (hf : f [] = [])
    (current : GoString) : (linesFrom current p).flatMap f =
      ((p.splitOnP isNewline).modifyHead (current ++ ·)).flatMap f := by
  induction p generalizing current with
  | nil =>
    rw [linesFrom, List.splitOnP_nil, List.modifyHead_cons, List.append_nil,
      List.flatMap_singleton]
    split
    · rename_i hcurrent
      rw [hcurrent, hf, List.flatMap_nil]
    · rw [List.flatMap_singleton]
  | cons c p ih =>
    obtain ⟨first, rest, hsplit⟩ :=
      List.exists_cons_of_ne_nil (List.splitOnP_ne_nil isNewline p)
    rw [linesFrom, List.splitOnP_cons_eq_if_modifyHead]
    split
    · rename_i hc
      rw [if_pos (isNewline_iff.mpr hc), List.modifyHead_cons, List.append_nil, List.flatMap_cons,
        List.flatMap_cons, ih, hsplit, List.modifyHead_cons, List.nil_append]
    · rename_i hc
      rw [if_neg (fun hnewline => hc (isNewline_iff.mp hnewline)), ih, hsplit]
      simp

theorem acceptedLines_eq (h : Short p) :
    acceptedLines p = (p.splitOnP isNewline).flatMap acceptedLine := by
  have hall : (linesFrom [] p).takeWhile (fun line => line.length < maxScanTokenSize) =
      linesFrom [] p :=
    List.takeWhile_eq_self_iff.mpr fun line hline => decide_eq_true (h line hline)
  have hlines : ∀ lines : List GoString, (lines.map dropCR).filter (fun line => line ≠ []) =
      lines.flatMap acceptedLine := by
    intro lines
    induction lines with
    | nil => rfl
    | cons line lines ih =>
      rw [List.map_cons, List.flatMap_cons, ← ih, acceptedLine]
      by_cases hempty : dropCR line = []
      · rw [if_pos hempty, List.filter_cons_of_neg (by simpa using hempty), List.nil_append]
      · rw [if_neg hempty, List.filter_cons_of_pos (by simpa using hempty)]
        rfl
  obtain ⟨first, rest, hsplit⟩ := List.exists_cons_of_ne_nil (List.splitOnP_ne_nil isNewline p)
  rw [acceptedLines, scanLines, hall, hlines, flatMap_linesFrom acceptedLine_nil, hsplit]
  rfl

theorem length_le_of_mem_splitOnP {sep : UInt8 → Bool} (h : q ∈ p.splitOnP sep) :
    q.length ≤ p.length := by
  induction p generalizing q with
  | nil =>
    rw [List.splitOnP_nil, List.mem_singleton] at h
    rw [h]
  | cons c p ih =>
    obtain ⟨first, rest, hsplit⟩ := List.exists_cons_of_ne_nil (List.splitOnP_ne_nil sep p)
    rw [List.splitOnP_cons_eq_if_modifyHead, hsplit] at h
    rw [hsplit] at ih
    rw [List.length_cons]
    split at h
    · rcases List.mem_cons.mp h with rfl | h
      · exact Nat.zero_le _
      · exact Nat.le_succ_of_le (ih h)
    · rw [List.modifyHead_cons] at h
      rcases List.mem_cons.mp h with rfl | h
      · exact Nat.succ_le_succ (ih List.mem_cons_self)
      · exact Nat.le_succ_of_le (ih (List.mem_cons_of_mem _ h))

theorem mem_splitOnP_of_mem_linesFrom {line : GoString} (h : line ∈ linesFrom [] p) :
    line ∈ p.splitOnP isNewline := by
  obtain ⟨first, rest, hsplit⟩ := List.exists_cons_of_ne_nil (List.splitOnP_ne_nil isNewline p)
  have hline := mem_linesFrom h
  rw [hsplit] at hline ⊢
  exact hline

theorem short_of_length_lt (h : p.length < maxScanTokenSize) : Short p := fun _ hline =>
  Nat.lt_of_le_of_lt (length_le_of_mem_splitOnP (mem_splitOnP_of_mem_linesFrom hline)) h

/-! ## A line and its pieces -/

theorem dropCR_concat (p : GoString) : dropCR (p ++ [carriageReturn]) = p := by
  rw [dropCR, GoString.trimSuffix, if_pos (List.isSuffixOf_iff_suffix.mpr (List.suffix_append _ _))]
  simp

theorem dropCR_of_ne (h : p.getLast? ≠ some carriageReturn) : dropCR p = p := by
  rw [dropCR, GoString.trimSuffix, if_neg]
  rw [List.isSuffixOf_iff_suffix]
  rintro ⟨before, rfl⟩
  exact h List.getLast?_concat

theorem length_dropCR_le (p : GoString) : (dropCR p).length ≤ p.length := by
  rw [dropCR, GoString.trimSuffix]
  split
  · exact List.length_take_le' _ _
  · exact Nat.le_refl _

/-- Only the last piece of a line can lose its carriage return. -/
theorem dropCR_append (p : GoString) (hq : q ≠ []) : dropCR (p ++ q) = p ++ dropCR q := by
  obtain ⟨before, c, rfl⟩ := (List.eq_nil_or_concat q).resolve_left hq
  rw [List.concat_eq_append]
  by_cases hc : c = carriageReturn
  · rw [hc, ← List.append_assoc, dropCR_concat, dropCR_concat]
  · have hlast : ∀ l : GoString, (l ++ [c]).getLast? ≠ some carriageReturn := by
      intro l
      rw [List.getLast?_concat, ne_eq, Option.some.injEq]
      exact hc
    rw [dropCR_of_ne (hlast before), ← List.append_assoc, dropCR_of_ne (hlast _)]

theorem flatten_acceptedLine (p : GoString) : (acceptedLine p).flatten = dropCR p := by
  rw [acceptedLine]
  split
  · rename_i hempty
    rw [hempty]
    rfl
  · exact List.flatten_singleton

theorem length_acceptedLine_le (p : GoString) : (acceptedLine p).length ≤ 1 := by
  rw [acceptedLine]
  split
  · exact Nat.zero_le _
  · exact Nat.le_refl _

theorem length_pieces_le (ps : List GoString) :
    (ps.flatMap acceptedLine).flatten.length ≤ (acceptedLine ps.flatten).flatten.length := by
  induction ps with
  | nil => exact Nat.le_refl _
  | cons p ps ih =>
    rw [List.flatMap_cons, List.flatten_append, List.length_append, flatten_acceptedLine,
      List.flatten_cons, flatten_acceptedLine]
    rw [flatten_acceptedLine] at ih
    have hp := length_dropCR_le p
    by_cases hrest : ps.flatten = []
    · rw [hrest] at ih ⊢
      rw [List.append_nil]
      have hzero : (dropCR []).length = 0 := rfl
      omega
    · rw [dropCR_append p hrest, List.length_append]
      omega

/-- A line whose pieces hold all its bytes is in the pieces if it is anywhere. -/
theorem length_line_le (ps : List GoString)
    (h : (ps.flatMap acceptedLine).flatten = (acceptedLine ps.flatten).flatten) :
    (acceptedLine ps.flatten).length ≤ (ps.flatMap acceptedLine).length := by
  have hone := length_acceptedLine_le ps.flatten
  by_cases hnone : ps.flatMap acceptedLine = []
  · rw [hnone, List.flatten_nil, flatten_acceptedLine] at h
    rw [acceptedLine, if_pos h.symm]
    exact Nat.zero_le _
  · have hpos := List.length_pos_iff.mpr hnone
    omega

theorem flatMap_filter_ne_nil (ps : List GoString) :
    (ps.filter fun p => p ≠ []).flatMap acceptedLine = ps.flatMap acceptedLine ∧
      (ps.filter fun p => p ≠ []).flatten = ps.flatten := by
  induction ps with
  | nil => exact ⟨rfl, rfl⟩
  | cons p ps ih =>
    by_cases hp : p = []
    · rw [List.filter_cons_of_neg (by simpa using hp), hp]
      exact ih
    · rw [List.filter_cons_of_pos (by simpa using hp), List.flatMap_cons, List.flatMap_cons,
        List.flatten_cons, List.flatten_cons, ih.1, ih.2]
      exact ⟨rfl, rfl⟩

/-- A line is logged as it would be in one piece if and only if it is uncut. -/
theorem acceptedLine_flatten_iff (ps : List GoString) :
    acceptedLine ps.flatten = ps.flatMap acceptedLine ↔ Uncut ps := by
  obtain ⟨hflatMap, hflatten⟩ := flatMap_filter_ne_nil ps
  have hne : ∀ p ∈ ps.filter fun p => p ≠ [], p ≠ [] := fun p hp => by
    simpa using (List.mem_filter.mp hp).2
  rw [← hflatMap, ← hflatten, Uncut]
  generalize ps.filter (fun p => p ≠ []) = qs at hne
  match qs with
  | [] => exact iff_of_true rfl trivial
  | [p] => exact iff_of_true (by simp) trivial
  | p :: q :: rest =>
    have hp : p ≠ [] := hne p List.mem_cons_self
    have hq : q ≠ [] := hne q (by simp)
    have hrest : q ++ rest.flatten ≠ [] := by simp [hq]
    have hqlength := List.length_pos_iff.mpr hq
    -- the line is at least as long as its first piece
    have hdrop : dropCR (p :: q :: rest).flatten = p ++ dropCR (q ++ rest.flatten) := by
      rw [List.flatten_cons, List.flatten_cons]
      exact dropCR_append p hrest
    have hline : acceptedLine (p :: q :: rest).flatten =
        [p ++ dropCR (q ++ rest.flatten)] := by
      rw [acceptedLine, hdrop, if_neg (by simp [hp])]
    have hmain : acceptedLine (p :: q :: rest).flatten =
        (p :: q :: rest).flatMap acceptedLine ↔
          p.getLast? ≠ some carriageReturn ∧ q ++ rest.flatten = [carriageReturn] := by
      rw [hline, List.flatMap_cons]
      constructor
      · intro heq
        have hbytes := congrArg (fun l : List GoString => l.flatten.length) heq
        have hpieces := length_pieces_le (q :: rest)
        simp only [List.flatten_append, List.length_append, flatten_acceptedLine,
          List.flatten_cons, List.flatten_nil, List.append_nil] at hbytes hpieces
        have hlast : p.getLast? ≠ some carriageReturn := by
          intro hcr
          obtain ⟨before, rfl⟩ := List.getLast?_eq_some_iff.mp hcr
          rw [dropCR_concat, List.length_append, List.length_singleton] at hbytes
          omega
        rw [acceptedLine, dropCR_of_ne hlast, if_neg hp, List.singleton_append,
          List.cons.injEq] at heq
        have hempty : dropCR (q ++ rest.flatten) = [] := by simpa using heq.1
        refine ⟨hlast, ?_⟩
        obtain ⟨before, c, hsplit⟩ := (List.eq_nil_or_concat (q ++ rest.flatten)).resolve_left hrest
        rw [List.concat_eq_append] at hsplit
        rw [hsplit] at hempty ⊢
        by_cases hc : c = carriageReturn
        · rw [hc, dropCR_concat] at hempty
          rw [hempty, hc]
          rfl
        · rw [dropCR_of_ne (by simpa using hc)] at hempty
          exact absurd hempty (by simp)
      · rintro ⟨hlast, hcr⟩
        have hpieces := length_pieces_le (q :: rest)
        rw [List.flatten_cons, hcr] at hpieces
        have hnone : (q :: rest).flatMap acceptedLine = [] := by
          have hq' : q = [carriageReturn] ∧ rest.flatten = [] := by
            rcases List.append_eq_singleton_iff.mp hcr with ⟨hq', _⟩ | h
            · exact absurd hq' hq
            · exact h
          rw [List.flatMap_cons, hq'.1]
          refine List.append_eq_nil_iff.mpr ⟨rfl, List.flatMap_eq_nil_iff.mpr fun r hr => ?_⟩
          rw [List.flatten_eq_nil_iff.mp hq'.2 r hr]
          rfl
        have hdropped : dropCR [carriageReturn] = [] := rfl
        rw [hnone, hcr, hdropped, acceptedLine, dropCR_of_ne hlast, if_neg hp]
        simp
    rw [hmain]
    match rest with
    | [] =>
      rw [List.flatten_nil, List.append_nil]
    | r :: rest =>
      have hr : r ≠ [] := hne r (by simp)
      refine iff_of_false (fun h => ?_) id
      have hlength := congrArg List.length h.2
      rw [List.flatten_cons, List.length_append, List.length_append] at hlength
      have hrlength := List.length_pos_iff.mpr hr
      simp only [List.length_singleton] at hlength
      omega

/-! ## All lines -/

variable {chunks : List GoString}

/-- No chunk is longer than the buffer that `os/exec` copies with. -/
def Copied (chunks : List GoString) : Prop := ∀ chunk ∈ chunks, chunk.length ≤ 32 * 1024

instance (chunks : List GoString) : Decidable (Copied chunks) :=
  inferInstanceAs (Decidable (∀ chunk ∈ chunks, _))

/-- The lines that the chunks leave whole. -/
def AllUncut (chunks : List GoString) : Prop :=
  ∀ ps ∈ (Chunks.pieces isNewline chunks).lines, Uncut ps

instance (chunks : List GoString) : Decidable (AllUncut chunks) :=
  inferInstanceAs (Decidable (∀ ps ∈ (Chunks.pieces isNewline chunks).lines, Uncut ps))

theorem Copied.short (h : Copied chunks) {chunk : GoString} (hchunk : chunk ∈ chunks) :
    Short chunk :=
  short_of_length_lt (Nat.lt_of_le_of_lt (h chunk hchunk) (by decide))

theorem acceptedLines_chunks (h : Copied chunks) : chunks.flatMap acceptedLines =
    (Chunks.pieces isNewline chunks).lines.flatMap fun ps => ps.flatMap acceptedLine := by
  rw [← Chunks.flatMap_pieces]
  exact List.flatMap_congr fun chunk hchunk => acceptedLines_eq (h.short hchunk)

theorem length_piece_le {sep : UInt8 → Bool} (h : Copied chunks) {ps : List GoString}
    (hps : ps ∈ (Chunks.pieces sep chunks).lines) (hp : p ∈ ps) : p.length ≤ 32 * 1024 := by
  have hmem : p ∈ (Chunks.pieces sep chunks).lines.flatten :=
    List.mem_flatten.mpr ⟨ps, hps, hp⟩
  rw [Chunks.flatten_pieces] at hmem
  obtain ⟨chunk, hchunk, hp⟩ := List.mem_flatMap.mp hmem
  exact Nat.le_trans (length_le_of_mem_splitOnP hp) (h chunk hchunk)

/-- A line in one piece is not longer than a chunk, but for its carriage return. -/
theorem short_of_allUncut (h : Copied chunks) (huncut : AllUncut chunks) :
    Short chunks.flatten := by
  intro line hline
  have hmem := mem_splitOnP_of_mem_linesFrom hline
  rw [← Chunks.map_flatten_pieces, List.mem_map] at hmem
  obtain ⟨ps, hps, rfl⟩ := hmem
  have hlength : ∀ p ∈ ps.filter fun p => p ≠ [], p.length ≤ 32 * 1024 :=
    fun p hp => length_piece_le h hps (List.mem_filter.mp hp).1
  have hwhole := huncut ps hps
  rw [← (flatMap_filter_ne_nil ps).2]
  rw [Uncut] at hwhole
  generalize ps.filter (fun p => p ≠ []) = qs at hlength hwhole
  match qs with
  | [] => decide
  | [p] =>
    have hp := hlength p List.mem_cons_self
    simp only [List.flatten_singleton, maxScanTokenSize]
    omega
  | [p, q] =>
    have hp := hlength p List.mem_cons_self
    simp only [hwhole.2, List.flatten_cons, List.flatten_nil, List.append_nil, List.length_append,
      List.length_singleton, maxScanTokenSize]
    omega
  | _ :: _ :: _ :: _ => exact absurd hwhole id

/-- Where no line is too long, chunks are logged as the whole if and only if each line is uncut. -/
theorem acceptedLines_flatten_iff (h : Copied chunks) (hshort : Short chunks.flatten) :
    acceptedLines chunks.flatten = chunks.flatMap acceptedLines ↔ AllUncut chunks := by
  rw [acceptedLines_eq hshort, acceptedLines_chunks h, Chunks.flatMap_lines]
  have hparts : ((Chunks.pieces isNewline chunks).lines.flatMap
        fun ps => acceptedLine ps.flatten) =
      ((Chunks.pieces isNewline chunks).lines.flatMap fun ps => ps.flatMap acceptedLine) ↔
      ∀ ps ∈ (Chunks.pieces isNewline chunks).lines,
        acceptedLine ps.flatten = ps.flatMap acceptedLine := by
    refine ⟨fun heq => ?_, fun hall => List.flatMap_congr hall⟩
    -- no line gains a byte by being cut, so none loses one, and then none loses a line
    have hbytes : ((Chunks.pieces isNewline chunks).lines.flatMap
          fun ps => (ps.flatMap acceptedLine).flatten) =
        ((Chunks.pieces isNewline chunks).lines.flatMap
          fun ps => (acceptedLine ps.flatten).flatten) := by
      have hflatten := congrArg List.flatten heq.symm
      rw [List.flatMap_def, List.flatMap_def, List.flatten_flatten, List.flatten_flatten,
        List.map_map, List.map_map] at hflatten
      exact hflatten
    have hsame := (Chunks.flatMap_eq_iff fun ps _ => length_pieces_le ps).mp hbytes
    exact (Chunks.flatMap_eq_iff fun ps hps => length_line_le ps (hsame ps hps)).mp heq
  rw [hparts]
  exact forall₂_congr fun ps _ => acceptedLine_flatten_iff ps

theorem acceptedLines_flatten (h : Copied chunks) (huncut : AllUncut chunks) :
    acceptedLines chunks.flatten = chunks.flatMap acceptedLines :=
  (acceptedLines_flatten_iff h (short_of_allUncut h huncut)).mpr huncut

end Scanner
end Worker
end Code2Cloud
