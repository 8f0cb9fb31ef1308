import Code2Cloud.Worker.Chunking
import Code2Cloud.Worker.Spaces
import Code2Cloud.Worker.StreamLogger

/-!
# The progress filter

`ProgressFilter` drops the intermediate progress lines of git from each write before it
passes the rest on to a logger.
-/

namespace Code2Cloud
namespace Worker

namespace ProgressFilter

open GoString Scanner

def splitLinesFrom (current : GoString) : GoString → List GoString
  | [] => if current ≠ [] then [current] else []
  | [c] =>
    if c = carriageReturn ∨ c = newline then [current] else [current ++ [c]]
  | c :: d :: s =>
    if c = carriageReturn then
      if d = newline then current :: splitLinesFrom [] s
      else current :: splitLinesFrom [] (d :: s)
    else if c = newline then current :: splitLinesFrom [] (d :: s)
    else splitLinesFrom (current ++ [c]) (d :: s)

def splitLines (s : GoString) : List GoString := splitLinesFrom [] s

def progressPrefixes : List GoString :=
  [utf8 "Counting objects:", utf8 "Compressing objects:", utf8 "Receiving objects:",
    utf8 "Resolving deltas:", utf8 "Unpacking objects:"]

def isIntermediateProgress (line : GoString) : Bool :=
  let stripped := trimPrefix line (utf8 "remote: ")
  if progressPrefixes.any fun pre => pre.isPrefixOf stripped then !contains (utf8 "done") line
  else false

/-- The loop of `Write` drops a line. -/
def Dropped (line : GoString) : Prop :=
  trimSpace line = [] ∨ isIntermediateProgress (trimSpace line) = true

instance (line : GoString) : Decidable (Dropped line) := instDecidableOr

def keptLine (line : GoString) : List GoString := if Dropped line then [] else [trimSpace line]

def kept (p : GoString) : List GoString := (splitLines p).flatMap keptLine

/-- `ProgressFilter.Write`: what it writes to the logger, if anything. -/
def output (p : GoString) : Option GoString :=
  if kept p = [] then none else some ([newline].intercalate (kept p) ++ [newline])

/-- The lines that the logger accepts. -/
def filteredLines (p : GoString) : List GoString :=
  match output p with
  | some out => acceptedLines out
  | none => []

def isLineEnd (c : UInt8) : Bool := c == carriageReturn || c == newline

/-- The segments of a text between its line ends `CR LF`, `CR` and `LF`. -/
def segments : GoString → List GoString
  | [] => [[]]
  | [c] => if isLineEnd c then [[], []] else [[c]]
  | c :: d :: p =>
    if c = carriageReturn ∧ d = newline then [] :: segments p
    else if isLineEnd c then [] :: segments (d :: p)
    else (segments (d :: p)).modifyHead (c :: ·)

/-- The chunks leave a line in one piece up to white space, or the line and all of its pieces are
dropped. -/
def Uncut (ps : List GoString) : Prop :=
  (Dropped ps.flatten ∧ ∀ p ∈ ps, Dropped p) ∨
    match ps.filter fun p => trimSpace p ≠ [] with
    | [p] => trimSpace p = trimSpace ps.flatten
    | _ => False

instance (ps : List GoString) : Decidable (Uncut ps) := by
  unfold Uncut
  have : Decidable (match ps.filter fun p => trimSpace p ≠ [] with
      | [p] => trimSpace p = trimSpace ps.flatten
      | _ => False) := by
    split <;> infer_instance
  exact instDecidableOr

def AllUncut (chunks : List GoString) : Prop :=
  ∀ ps ∈ (Chunks.pieces isLineEnd chunks).lines, Uncut ps

instance (chunks : List GoString) : Decidable (AllUncut chunks) :=
  inferInstanceAs (Decidable (∀ ps ∈ (Chunks.pieces isLineEnd chunks).lines, Uncut ps))

variable {p : GoString} {chunks ps : List GoString}

/-! ## What is written to the logger -/

theorem isLineEnd_iff {c : UInt8} : isLineEnd c = true ↔ c = carriageReturn ∨ c = newline := by
  simp [isLineEnd]

theorem flatMap_splitLinesFrom {β : Type} {f : GoString → List β} (hf : f [] = [])
    (current s : GoString) : (splitLinesFrom current s).flatMap f =
      ((s.splitOnP isLineEnd).modifyHead (current ++ ·)).flatMap f := by
  have hsplit : ∀ s : GoString, ∃ first rest, s.splitOnP isLineEnd = first :: rest := fun s =>
    List.exists_cons_of_ne_nil (List.splitOnP_ne_nil isLineEnd s)
  fun_induction splitLinesFrom current s with
  | case1 current hne => simp
  | case2 current hnil => simp [not_not.mp hnil, hf]
  | case3 current c hc =>
    simp [List.splitOnP_cons_eq_if_modifyHead, isLineEnd_iff.mpr hc, hf]
  | case4 current c hc =>
    have hline : isLineEnd c = false := by simpa using (mt isLineEnd_iff.mp hc)
    simp [List.splitOnP_cons_eq_if_modifyHead, hline]
  | case5 current s ih =>
    obtain ⟨first, rest, hs⟩ := hsplit s
    rw [hs] at ih
    have hcr : isLineEnd carriageReturn = true := rfl
    have hnl : isLineEnd newline = true := rfl
    simp [List.splitOnP_cons_eq_if_modifyHead, hcr, hnl, hs, hf] at ih ⊢
    exact ih
  | case6 current d s hd ih =>
    obtain ⟨first, rest, hs⟩ := hsplit (d :: s)
    rw [hs] at ih
    have hcr : isLineEnd carriageReturn = true := rfl
    rw [List.splitOnP_cons_eq_if_modifyHead, if_pos hcr, hs]
    simp at ih ⊢
    exact ih
  | case7 current d s hcr ih =>
    obtain ⟨first, rest, hs⟩ := hsplit (d :: s)
    rw [hs] at ih
    have hnl : isLineEnd newline = true := rfl
    rw [List.splitOnP_cons_eq_if_modifyHead, if_pos hnl, hs]
    simp at ih ⊢
    exact ih
  | case8 current c d s hcr hnl ih =>
    obtain ⟨first, rest, hs⟩ := hsplit (d :: s)
    rw [hs] at ih
    have hc : ¬isLineEnd c = true := fun h => (isLineEnd_iff.mp h).elim hcr hnl
    rw [List.splitOnP_cons_eq_if_modifyHead, if_neg hc, hs]
    simp at ih ⊢
    exact ih

theorem keptLine_nil : keptLine [] = [] := by decide

theorem kept_eq (p : GoString) : kept p = (p.splitOnP isLineEnd).flatMap keptLine := by
  obtain ⟨first, rest, hs⟩ := List.exists_cons_of_ne_nil (List.splitOnP_ne_nil isLineEnd p)
  rw [kept, splitLines, flatMap_splitLinesFrom keptLine_nil, hs]
  rfl

theorem flatMap_segments {β : Type} {f : GoString → List β} (hf : f [] = []) (p : GoString) :
    (segments p).flatMap f = (p.splitOnP isLineEnd).flatMap f := by
  -- both have the same first segment, which the bytes before it are put in front of
  suffices hsame : ∃ first rest rest', segments p = first :: rest ∧
      p.splitOnP isLineEnd = first :: rest' ∧ rest.flatMap f = rest'.flatMap f by
    obtain ⟨first, rest, rest', hsegments, hsplit, hrest⟩ := hsame
    rw [hsegments, hsplit, List.flatMap_cons, List.flatMap_cons, hrest]
  fun_induction segments p with
  | case1 => exact ⟨[], [], [], rfl, List.splitOnP_nil, rfl⟩
  | case2 c hc =>
    refine ⟨[], [[]], [[]], rfl, ?_, rfl⟩
    rw [List.splitOnP_cons_eq_if_modifyHead, if_pos hc, List.splitOnP_nil]
  | case3 c hc =>
    refine ⟨[c], [], [], rfl, ?_, rfl⟩
    rw [List.splitOnP_cons_eq_if_modifyHead, if_neg hc, List.splitOnP_nil]
    rfl
  | case4 c d p hends ih =>
    obtain ⟨rfl, rfl⟩ := hends
    obtain ⟨first, rest, rest', hsegments, hsplit, hrest⟩ := ih
    have hcr : isLineEnd carriageReturn = true := rfl
    have hnl : isLineEnd newline = true := rfl
    refine ⟨[], segments p, [] :: p.splitOnP isLineEnd, rfl, ?_, ?_⟩
    · rw [List.splitOnP_cons_eq_if_modifyHead, if_pos hcr, List.splitOnP_cons_eq_if_modifyHead,
        if_pos hnl]
    · rw [hsegments, hsplit, List.flatMap_cons, List.flatMap_cons, List.flatMap_cons, hf, hrest,
        List.nil_append]
  | case5 c d p _ hc ih =>
    obtain ⟨first, rest, rest', hsegments, hsplit, hrest⟩ := ih
    refine ⟨[], segments (d :: p), (d :: p).splitOnP isLineEnd, rfl, ?_, ?_⟩
    · rw [List.splitOnP_cons_eq_if_modifyHead, if_pos hc]
    · rw [hsegments, hsplit, List.flatMap_cons, List.flatMap_cons, hrest]
  | case6 c d p _ hc ih =>
    obtain ⟨first, rest, rest', hsegments, hsplit, hrest⟩ := ih
    refine ⟨c :: first, rest, rest', ?_, ?_, hrest⟩
    · rw [hsegments, List.modifyHead_cons]
    · rw [List.splitOnP_cons_eq_if_modifyHead, if_neg hc, hsplit, List.modifyHead_cons]

theorem kept_eq_segments (p : GoString) : kept p = ((segments p).map trimSpace).filter fun line =>
    line ≠ [] ∧ isIntermediateProgress line = false := by
  rw [kept_eq, ← flatMap_segments keptLine_nil]
  induction segments p with
  | nil => rfl
  | cons line lines ih =>
    rw [List.flatMap_cons, List.map_cons, ih, keptLine]
    by_cases hdropped : Dropped line
    · rw [if_pos hdropped, List.filter_cons_of_neg, List.nil_append]
      rw [Dropped, or_iff_not_imp_left] at hdropped
      simpa using hdropped
    · rw [if_neg hdropped, List.filter_cons_of_pos, List.singleton_append]
      rw [Dropped, not_or] at hdropped
      simpa using hdropped

theorem not_isLineEnd_of_mem {line : GoString} {c : UInt8} (h : line ∈ p.splitOnP isLineEnd)
    (hc : c ∈ line) : isLineEnd c = false := by
  induction p generalizing line with
  | nil =>
    rw [List.splitOnP_nil, List.mem_singleton] at h
    rw [h] at hc
    cases hc
  | cons b p ih =>
    obtain ⟨first, rest, hs⟩ := List.exists_cons_of_ne_nil (List.splitOnP_ne_nil isLineEnd p)
    rw [List.splitOnP_cons_eq_if_modifyHead, hs] at h
    rw [hs] at ih
    split at h
    · rcases List.mem_cons.mp h with rfl | h
      · cases hc
      · exact ih h hc
    · rename_i hb
      rcases List.mem_cons.mp h with rfl | h
      · rcases List.mem_cons.mp hc with rfl | hc
        · simpa using hb
        · exact ih List.mem_cons_self hc
      · exact ih (List.mem_cons_of_mem _ h) hc

/-- A kept line is a part of a line, and not empty. -/
theorem mem_keptLine {line k : GoString} (h : k ∈ keptLine line) : k = trimSpace line ∧ k ≠ [] := by
  rw [keptLine] at h
  split at h
  · cases h
  · rename_i hdropped
    rw [List.mem_singleton] at h
    exact ⟨h, fun hempty => hdropped (Or.inl (h ▸ hempty))⟩

theorem mem_kept {k : GoString} (h : k ∈ kept p) :
    k ≠ [] ∧ k.length ≤ p.length ∧ ∀ c ∈ k, isLineEnd c = false := by
  rw [kept_eq] at h
  obtain ⟨line, hline, hk⟩ := List.mem_flatMap.mp h
  obtain ⟨rfl, hne⟩ := mem_keptLine hk
  have hpart := trimSpace_isInfix line
  exact ⟨hne, Nat.le_trans hpart.length_le (length_le_of_mem_splitOnP hline),
    fun c hc => not_isLineEnd_of_mem hline (hpart.subset hc)⟩

theorem splitOnP_lines {lines : List GoString} (hne : lines ≠ [])
    (hlines : ∀ line ∈ lines, newline ∉ line) :
    ([newline].intercalate lines ++ [newline]).splitOnP isNewline = lines ++ [[]] := by
  have hsplit : ([newline].intercalate lines).splitOnP isNewline = lines :=
    List.splitOn_intercalate newline hlines hne
  have hnewline : isNewline newline = true := rfl
  rw [List.splitOnP_append_cons _ _ hnewline, hsplit]
  rfl

theorem filteredLines_eq (h : ∀ line ∈ kept p, line.length < maxScanTokenSize) :
    filteredLines p = kept p := by
  rw [filteredLines, output]
  by_cases hempty : kept p = []
  · rw [if_pos hempty, hempty]
  · rw [if_neg hempty]
    have hlines : ∀ line ∈ kept p, newline ∉ line := fun line hline hmem =>
      absurd ((mem_kept hline).2.2 newline hmem) (by decide)
    have hsplit := splitOnP_lines hempty hlines
    have hshort : Short ([newline].intercalate (kept p) ++ [newline]) := by
      intro line hline
      have hmem := mem_splitOnP_of_mem_linesFrom hline
      rw [hsplit, List.mem_append, List.mem_singleton] at hmem
      rcases hmem with hmem | rfl
      · exact h line hmem
      · decide
    have haccepted : ∀ line ∈ kept p, acceptedLine line = [line] := by
      intro line hline
      obtain ⟨hne, _, hends⟩ := mem_kept hline
      have hlast : line.getLast? ≠ some carriageReturn := fun hlast =>
        absurd (hends _ (List.mem_of_getLast? hlast)) (by decide)
      rw [acceptedLine, dropCR_of_ne hlast, if_neg hne]
    change acceptedLines ([newline].intercalate (kept p) ++ [newline]) = kept p
    rw [acceptedLines_eq hshort, hsplit, List.flatMap_append, List.flatMap_congr haccepted]
    simp

/-! ## A line and its pieces -/

theorem keptLine_congr {a b : GoString} (h : trimSpace a = trimSpace b) :
    keptLine a = keptLine b := by
  simp only [keptLine, Dropped, h]

theorem keptLine_eq_nil_iff {line : GoString} : keptLine line = [] ↔ Dropped line := by
  rw [keptLine]
  split
  · exact iff_of_true rfl ‹_›
  · exact iff_of_false (List.cons_ne_nil _ _) ‹_›

theorem flatMap_filter_trimSpace (ps : List GoString) :
    (ps.filter fun p => trimSpace p ≠ []).flatMap keptLine = ps.flatMap keptLine := by
  induction ps with
  | nil => rfl
  | cons p ps ih =>
    by_cases hp : trimSpace p = []
    · rw [List.filter_cons_of_neg (by simpa using hp), List.flatMap_cons,
        keptLine_eq_nil_iff.mpr (Or.inl hp), List.nil_append, ih]
    · rw [List.filter_cons_of_pos (by simpa using hp), List.flatMap_cons, List.flatMap_cons, ih]

/-- What a progress line may begin with. -/
def progressBeginnings : List GoString :=
  progressPrefixes ++ progressPrefixes.map fun pre => utf8 "remote: " ++ pre

/-- The rest of `done`. -/
def doneTail : GoString := utf8 "one"

theorem beginnings_solid : ∀ pre ∈ progressBeginnings, pre.head?.any isSolid = true ∧
    pre.getLast?.any isSolid = true ∧ pre.head?.any (fun c => decide (c ∈ doneTail)) = false := by
  decide

theorem isIntermediateProgress_iff {line : GoString} : isIntermediateProgress line = true ↔
    (∃ pre ∈ progressBeginnings, pre <+: line) ∧ ¬utf8 "done" <:+: line := by
  have hstripped : (progressPrefixes.any fun pre =>
      pre.isPrefixOf (trimPrefix line (utf8 "remote: "))) = true ↔
        ∃ pre ∈ progressBeginnings, pre <+: line := by
    have hapart : ∀ pre ∈ progressPrefixes, pre.head? ≠ (utf8 "remote: ").head? := by
      decide
    simp only [List.any_eq_true, List.isPrefixOf_iff_prefix, progressBeginnings, List.mem_append,
      List.mem_map]
    by_cases hremote : utf8 "remote: " <+: line
    · obtain ⟨t, rfl⟩ := hremote
      have ht : trimPrefix (utf8 "remote: " ++ t) (utf8 "remote: ") = t := by
        rw [trimPrefix, if_pos (List.isPrefixOf_iff_prefix.mpr (List.prefix_append _ _)),
          List.drop_left]
      rw [ht]
      constructor
      · rintro ⟨pre, hmem, hpre⟩
        exact ⟨_, Or.inr ⟨pre, hmem, rfl⟩, (List.prefix_append_right_inj _).mpr hpre⟩
      · rintro ⟨pre, hmem | ⟨pre, hmem, rfl⟩, hpre⟩
        · refine absurd ?_ (hapart pre hmem)
          cases pre with
          | nil => exact absurd hmem (by decide)
          | cons a pre => exact congrArg some (List.cons_prefix_cons.mp hpre).1
        · exact ⟨pre, hmem, (List.prefix_append_right_inj _).mp hpre⟩
    · rw [trimPrefix, if_neg (mt List.isPrefixOf_iff_prefix.mp hremote)]
      constructor
      · rintro ⟨pre, hmem, hpre⟩
        exact ⟨pre, Or.inl hmem, hpre⟩
      · rintro ⟨pre, hmem | ⟨pre, hmem, rfl⟩, hpre⟩
        · exact ⟨pre, hmem, hpre⟩
        · exact absurd ((List.prefix_append _ _).trans hpre) hremote
  rw [isIntermediateProgress, ← hstripped, ← contains_iff]
  split
  · rename_i hany
    simp [hany]
  · rename_i hany
    simp [hany]

/-- No dropped text could go on with `done` from the one before it. -/
theorem notMem_doneTail_of_dropped {c : UInt8} (h : Dropped (c :: p)) : c ∉ doneTail := by
  intro hc
  have hsolid : isSolid c = true := by
    have hall : ∀ c ∈ doneTail, isSolid c = true := by decide +kernel
    exact hall c hc
  have hpre : [] ++ [c] <+: trimSpace (c :: p) := by
    rw [trimSpace, trimLeft_cons_of_isSolid hsolid]
    exact isPrefix_trimRight hsolid (List.prefix_append [c] p)
  rcases h with hblank | hprogress
  · rw [hblank, List.prefix_nil] at hpre
    cases hpre
  · obtain ⟨⟨pre, hmem, hbegin⟩, _⟩ := isIntermediateProgress_iff.mp hprogress
    obtain ⟨hfirst, _, hhead⟩ := beginnings_solid pre hmem
    cases pre with
    | nil => cases hfirst
    | cons a pre =>
      obtain ⟨t, ht⟩ := hpre
      rw [← ht, List.nil_append, List.singleton_append, List.cons_prefix_cons] at hbegin
      rw [hbegin.1] at hhead
      simp [hc] at hhead

theorem head_of_dropped {c : UInt8} {t : GoString} (h : ∀ p ∈ ps, Dropped p)
    (hflatten : ps.flatten = c :: t) : c ∉ doneTail := by
  induction ps with
  | nil => cases hflatten
  | cons p ps ih =>
    cases p with
    | nil => exact ih (fun q hq => h q (List.mem_cons_of_mem _ hq)) hflatten
    | cons d p =>
      obtain rfl := (List.cons.inj hflatten).1
      exact notMem_doneTail_of_dropped (h _ List.mem_cons_self)

/-- Dropped pieces say `done` nowhere, nor do two of them together. -/
theorem not_done_of_dropped (h : ∀ p ∈ ps, Dropped p) : ¬utf8 "done" <:+: ps.flatten := by
  have hsolid : ∀ c ∈ utf8 "done", isSolid c = true := by decide +kernel
  have hne : utf8 "done" ≠ [] := by decide
  induction ps with
  | nil =>
    intro hpart
    exact hne (List.infix_nil.mp hpart)
  | cons p ps ih =>
    have hps : ∀ q ∈ ps, Dropped q := fun q hq => h q (List.mem_cons_of_mem _ hq)
    rw [List.flatten_cons, List.infix_append_iff_ne_nil]
    rintro (hp | hrest | ⟨before, behind, hbefore, hbehind, hdone, _, hpre⟩)
    · have hkept := isInfix_trimSpace hsolid hne hp
      rcases h p List.mem_cons_self with hblank | hprogress
      · rw [hblank, List.infix_nil] at hkept
        exact hne hkept
      · exact (isIntermediateProgress_iff.mp hprogress).2 hkept
    · exact ih hps hrest
    · obtain ⟨c, behind, rfl⟩ := List.exists_cons_of_ne_nil hbehind
      obtain ⟨d, before, rfl⟩ := List.exists_cons_of_ne_nil hbefore
      obtain ⟨t, ht⟩ := hpre
      refine head_of_dropped hps ht.symm ?_
      have htail : doneTail = before ++ c :: behind := (List.cons.inj hdone).2
      rw [htail]
      exact List.mem_append_right _ List.mem_cons_self

theorem dropped_flatten (h : ∀ p ∈ ps, Dropped p) : Dropped ps.flatten := by
  have hdone := not_done_of_dropped h
  suffices hbegin : trimSpace ps.flatten = [] ∨
      ∃ pre ∈ progressBeginnings, pre <+: trimSpace ps.flatten by
    rcases hbegin with hblank | hbegin
    · exact Or.inl hblank
    · exact Or.inr (isIntermediateProgress_iff.mpr
        ⟨hbegin, fun hpart => hdone (hpart.trans (trimSpace_isInfix _))⟩)
  -- the first piece that is not blank begins the line
  clear hdone
  induction ps with
  | nil => exact Or.inl rfl
  | cons p ps ih =>
    rw [List.flatten_cons]
    rcases h p List.mem_cons_self with hblank | hprogress
    · rw [trimSpace_eq_nil_iff] at hblank
      rw [trimSpace, trimLeft_append_of_nil hblank, ← trimSpace]
      exact ih fun q hq => h q (List.mem_cons_of_mem _ hq)
    · obtain ⟨⟨pre, hmem, hpre⟩, _⟩ := isIntermediateProgress_iff.mp hprogress
      obtain ⟨hfirst, hlast, _⟩ := beginnings_solid pre hmem
      exact Or.inr ⟨pre, hmem, isPrefix_trimSpace_append hfirst hlast hpre _⟩

theorem length_keptLine_le (line : GoString) : (keptLine line).length ≤ 1 := by
  rw [keptLine]
  split
  · exact Nat.zero_le _
  · exact Nat.le_refl _

/-- A line that is kept keeps a piece. -/
theorem length_keptLine_flatten (ps : List GoString) :
    (keptLine ps.flatten).length ≤ (ps.flatMap keptLine).length := by
  by_cases hnone : ps.flatMap keptLine = []
  · have hdropped : ∀ p ∈ ps, Dropped p := fun p hp =>
      keptLine_eq_nil_iff.mp (List.flatMap_eq_nil_iff.mp hnone p hp)
    rw [keptLine_eq_nil_iff.mpr (dropped_flatten hdropped)]
    exact Nat.zero_le _
  · have hone := length_keptLine_le ps.flatten
    have hpos := List.length_pos_iff.mpr hnone
    omega

theorem blank_of_dropped (h : Dropped p) (hcount : p.countP isSolid = 0) : trimSpace p = [] := by
  refine h.resolve_right fun hprogress => ?_
  obtain ⟨⟨pre, hmem, hpre⟩, _⟩ := isIntermediateProgress_iff.mp hprogress
  have hfirst := (beginnings_solid pre hmem).1
  have hle := hpre.sublist.countP_le (p := isSolid)
  rw [countP_trimSpace, hcount] at hle
  cases pre with
  | nil => cases hfirst
  | cons a pre =>
    have ha : isSolid a = true := hfirst
    rw [List.countP_cons_of_pos ha] at hle
    omega

theorem filter_of_dropped (h : ps.flatMap keptLine = [])
    (hcount : ps.flatten.countP isSolid = 0) : (ps.filter fun p => trimSpace p ≠ []) = [] := by
  rw [List.filter_eq_nil_iff]
  intro p hp
  have hdropped := keptLine_eq_nil_iff.mp (List.flatMap_eq_nil_iff.mp h p hp)
  have hpiece : p.countP isSolid = 0 := by
    rw [List.countP_eq_zero] at hcount ⊢
    exact fun c hc => hcount c (List.mem_flatten.mpr ⟨p, hp, hc⟩)
  simpa using blank_of_dropped hdropped hpiece

/-- A line is kept or dropped as it would be in one piece if and only if it is uncut. -/
theorem keptLine_flatten_iff (ps : List GoString) :
    keptLine ps.flatten = ps.flatMap keptLine ↔ Uncut ps := by
  constructor
  · intro heq
    by_cases hline : Dropped ps.flatten
    · rw [keptLine_eq_nil_iff.mpr hline, eq_comm, List.flatMap_eq_nil_iff] at heq
      exact Or.inl ⟨hline, fun p hp => keptLine_eq_nil_iff.mp (heq p hp)⟩
    · rw [keptLine, if_neg hline] at heq
      have hmem : trimSpace ps.flatten ∈ ps.flatMap keptLine := heq ▸ List.mem_cons_self
      obtain ⟨p, hp, hkept⟩ := List.mem_flatMap.mp hmem
      have htrim := (mem_keptLine hkept).1
      have hone : keptLine p = [trimSpace ps.flatten] := by
        rw [keptLine] at hkept ⊢
        split at hkept
        · cases hkept
        · rename_i hdropped
          rw [if_neg hdropped, htrim]
      obtain ⟨before, behind, rfl⟩ := List.append_of_mem hp
      -- the other pieces are dropped, and no solid byte of the line is in them
      rw [List.flatMap_append, List.flatMap_cons, hone] at heq
      have hlength := congrArg List.length heq
      simp only [List.length_append, List.length_singleton] at hlength
      have hbefore : before.flatMap keptLine = [] := List.length_eq_zero_iff.mp (by omega)
      have hbehind : behind.flatMap keptLine = [] := List.length_eq_zero_iff.mp (by omega)
      have hcount := congrArg (List.countP isSolid) htrim
      rw [countP_trimSpace, countP_trimSpace, List.flatten_append, List.flatten_cons,
        List.countP_append, List.countP_append] at hcount
      have hpiece : trimSpace p ≠ [] := htrim ▸ (mem_keptLine hkept).2
      refine Or.inr ?_
      rw [List.filter_append, List.filter_cons_of_pos (by simpa using hpiece),
        filter_of_dropped hbefore (by omega), filter_of_dropped hbehind (by omega)]
      exact htrim.symm
  · rintro (⟨hline, hpieces⟩ | hone)
    · rw [keptLine_eq_nil_iff.mpr hline, eq_comm, List.flatMap_eq_nil_iff]
      exact fun p hp => keptLine_eq_nil_iff.mpr (hpieces p hp)
    · rw [← flatMap_filter_trimSpace]
      split at hone
      · rename_i p hp
        rw [hp, List.flatMap_singleton]
        exact keptLine_congr hone.symm
      · exact absurd hone id

/-! ## All lines -/

theorem filteredLines_chunks (h : Copied chunks) : chunks.flatMap filteredLines =
    (Chunks.pieces isLineEnd chunks).lines.flatMap fun ps => ps.flatMap keptLine := by
  rw [← Chunks.flatMap_pieces]
  refine List.flatMap_congr fun chunk hchunk => ?_
  rw [filteredLines_eq fun line hline => ?_, kept_eq]
  have hlength := (mem_kept hline).2.1
  have hchunk := h chunk hchunk
  rw [maxScanTokenSize]
  omega

theorem kept_chunks (chunks : List GoString) : kept chunks.flatten =
    (Chunks.pieces isLineEnd chunks).lines.flatMap fun ps => keptLine ps.flatten := by
  rw [kept_eq, Chunks.flatMap_lines]

/-- No line that is kept is `ErrTooLong` for the logger. -/
def Short (p : GoString) : Prop := ∀ line ∈ kept p, line.length < maxScanTokenSize

theorem short_of_allUncut (h : Copied chunks) (huncut : AllUncut chunks) :
    Short chunks.flatten := by
  intro line hline
  rw [kept_chunks] at hline
  obtain ⟨ps, hps, hline⟩ := List.mem_flatMap.mp hline
  rw [(keptLine_flatten_iff ps).mpr (huncut ps hps)] at hline
  obtain ⟨p, hp, hline⟩ := List.mem_flatMap.mp hline
  have hlength := length_piece_le h hps hp
  have hpart := (trimSpace_isInfix p).length_le
  rw [(mem_keptLine hline).1, maxScanTokenSize]
  omega

/-- Where no kept line is too long, chunks are filtered as the whole if and only if each line is
uncut. -/
theorem filteredLines_flatten_iff (h : Copied chunks) (hshort : Short chunks.flatten) :
    filteredLines chunks.flatten = chunks.flatMap filteredLines ↔ AllUncut chunks := by
  rw [filteredLines_eq hshort, filteredLines_chunks h, kept_chunks,
    Chunks.flatMap_eq_iff fun ps _ => length_keptLine_flatten ps]
  exact forall₂_congr fun ps _ => keptLine_flatten_iff ps

theorem filteredLines_flatten (h : Copied chunks) (huncut : AllUncut chunks) :
    filteredLines chunks.flatten = chunks.flatMap filteredLines :=
  (filteredLines_flatten_iff h (short_of_allUncut h huncut)).mpr huncut

end ProgressFilter

/-! ## The lines of a logger -/

namespace StreamLogger

variable {config : Config} {spare : List GoString → List GoString}

def State.writeAll (config : Config) (spare : List GoString → List GoString) (s : State)
    (ps : List GoString) : State :=
  ps.foldl (fun s p =>
    (s.addAll spare ((Scanner.acceptedLines p).map s.prefixed)).flushIfFull config) s

theorem frame_write (config : Config) (spare : List GoString → List GoString) (s : State)
    (p : GoString) :
    let t := (s.addAll spare ((Scanner.acceptedLines p).map s.prefixed)).flushIfFull config
    t.logged = s.logged ++ (Scanner.acceptedLines p).map s.prefixed ∧
      t.linePrefix = s.linePrefix ∧ t.holder = s.holder := by
  have hadd : ∀ (lines : List GoString) (s : State),
      (s.addAll spare lines).logged = s.logged ++ lines ∧
        (s.addAll spare lines).linePrefix = s.linePrefix ∧
        (s.addAll spare lines).holder = s.holder := by
    intro lines
    induction lines with
    | nil => exact fun s => ⟨(List.append_nil _).symm, rfl, rfl⟩
    | cons line lines ih =>
      intro s
      obtain ⟨hlogged, hsame, hholder⟩ := ih (s.add spare line)
      refine ⟨hlogged.trans ?_, hsame, hholder⟩
      exact List.append_cons s.logged line lines |>.symm
  obtain ⟨hlogged, hsame, hholder⟩ :=
    hadd ((Scanner.acceptedLines p).map s.prefixed) s
  refine ⟨logged_flushIfFull.trans hlogged, ?_, ?_⟩
  · rw [State.flushIfFull, State.flushLocked]
    split
    · split <;> exact hsame
    · exact hsame
  · rw [State.flushIfFull, State.flushLocked]
    split
    · split <;> exact hholder
    · exact hholder

theorem logged_writeAll (s : State) (ps : List GoString) :
    (s.writeAll config spare ps).logged =
      s.logged ++ (ps.flatMap Scanner.acceptedLines).map s.prefixed := by
  induction ps generalizing s with
  | nil => exact (List.append_nil _).symm
  | cons p ps ih =>
    obtain ⟨hlogged, hkept, _⟩ := frame_write config spare s p
    have hsame : ((s.addAll spare ((Scanner.acceptedLines p).map s.prefixed)).flushIfFull
        config).prefixed = s.prefixed := by
      funext line
      rw [State.prefixed, hkept, State.prefixed]
    rw [State.writeAll, List.foldl_cons, ← State.writeAll, ih, hlogged, hsame, List.flatMap_cons,
      List.map_append, List.append_assoc]

/-- `writeAll` is the run of the writes, where the lock is free. -/
theorem runEvents_writeAll {s : State} (hs : s.holder = none) (ps : List GoString) :
    runEvents (step config spare) s (ps.map Event.write) = some (s.writeAll config spare ps) := by
  induction ps generalizing s with
  | nil => rfl
  | cons p ps ih =>
    obtain ⟨_, _, hholder⟩ := frame_write config spare s p
    rw [List.map_cons, runEvents]
    simp only [step, if_pos hs, lockedStep]
    exact ih (hholder.trans hs)

theorem prefixed_injective (s : State) : Function.Injective s.prefixed := by
  intro a b h
  simp only [State.prefixed] at h
  split at h
  · exact List.append_cancel_left h
  · exact h

def loggedBy (config : Config) (spare : List GoString → List GoString) (s : State)
    (es : List Event) : Option (List GoString) :=
  (runEvents (step config spare) s es).map State.logged

theorem loggedBy_eq_iff (config : Config) (spare : List GoString → List GoString) {s : State}
    (hs : s.holder = none) (ps qs : List GoString) :
    loggedBy config spare s (ps.map Event.write) = loggedBy config spare s (qs.map Event.write) ↔
      ps.flatMap Scanner.acceptedLines = qs.flatMap Scanner.acceptedLines := by
  rw [loggedBy, loggedBy, runEvents_writeAll hs, runEvents_writeAll hs, Option.map_some,
    Option.map_some, Option.some.injEq, logged_writeAll, logged_writeAll,
    List.append_cancel_left_eq]
  exact (List.map_injective_iff.mpr (prefixed_injective s)).eq_iff

/-! ## One write through the filter -/

/-- The messages that the logger has handed off or holds in its buffer. -/
def State.accepted (s : State) : List GoString := s.handedOff.flatten ++ s.heap.read s.buffer

/-- `StreamLogger.Write` and the number of bytes it returns; it waits for the lock. -/
def State.write (config : Config) (spare : List GoString → List GoString) (s : State)
    (p : GoString) : Option (State × Nat) :=
  (step config spare s (.write p)).map fun t => (t, p.length)

/-- `ProgressFilter.Write` to a logger. -/
def filteredWrite (config : Config) (spare : List GoString → List GoString) (s : State)
    (p : GoString) : Option (State × Nat) :=
  match ProgressFilter.output p with
  | some out => (s.write config spare out).map fun t => (t.1, p.length)
  | none => some (s, p.length)

theorem accepted_eq (hs : Inv s) : s.accepted = s.logged := by
  rw [State.accepted, handedOff_eq hs, hs.logged, State.contents, List.flatMap_def]

/-- What a write through the filter adds are the segments of the text, trimmed, in their order,
without those that are blank or progress on the way. -/
theorem filteredWrite_eq (config : Config) (spare : List GoString → List GoString) (s : State)
    (p : GoString) (hreachable : Reachable config spare s) (hfree : s.holder = none)
    (hp : p.length ≤ 32 * 1024) :
    ∃ t, filteredWrite config spare s p = some (t, p.length) ∧
      t.accepted = s.accepted ++
        (((ProgressFilter.segments p).map GoString.trimSpace).filter fun line =>
          line ≠ [] ∧ ProgressFilter.isIntermediateProgress line = false).map s.prefixed := by
  obtain ⟨hs, hroom⟩ := kept_of_reachable hreachable
  have hshort : ∀ line ∈ ProgressFilter.kept p, line.length < Scanner.maxScanTokenSize := by
    intro line hline
    have hlength := (ProgressFilter.mem_kept hline).2.1
    rw [Scanner.maxScanTokenSize]
    omega
  have hlines := ProgressFilter.filteredLines_eq hshort
  rw [← ProgressFilter.kept_eq_segments, ← hlines, filteredWrite, ProgressFilter.filteredLines]
  cases ProgressFilter.output p with
  | none => exact ⟨s, rfl, (List.append_nil _).symm⟩
  | some out =>
    let t := (s.addAll spare ((Scanner.acceptedLines out).map s.prefixed)).flushIfFull config
    have hstep : step config spare s (.write out) = some t := by
      simp only [step, if_pos hfree, lockedStep, t]
    refine ⟨t, by simp only [State.write, hstep, Option.map_some], ?_⟩
    rw [accepted_eq (kept_step hs hroom hstep).inv, accepted_eq hs]
    exact (frame_write config spare s out).1

def shopProgress : GoString := utf8 "Receiving objects: 1%\rReceiving objects: done\r\n  Hello \n\n"

theorem filteredWrite_eq_shop :
    shopProgress.length ≤ 32 * 1024 ∧
      ∃ t, filteredWrite shopConfig (fun _ => []) (State.initial shopConfig 0) shopProgress =
          some (t, shopProgress.length) ∧
        t.accepted = [utf8 "Receiving objects: done", utf8 "Hello"] := by
  have hlength : shopProgress.length ≤ 32 * 1024 := by decide
  obtain ⟨t, ht, haccepted⟩ := filteredWrite_eq shopConfig (fun _ => [])
    (State.initial shopConfig 0) shopProgress ⟨0, .refl⟩ rfl hlength
  exact ⟨hlength, t, ht, haccepted.trans (by decide)⟩

/-- The writes of a text that goes through the filter in chunks. -/
def filteredWrites (chunks : List GoString) : List Event :=
  (chunks.filterMap ProgressFilter.output).map Event.write

theorem flatMap_output (chunks : List GoString) :
    (chunks.filterMap ProgressFilter.output).flatMap Scanner.acceptedLines =
      chunks.flatMap ProgressFilter.filteredLines := by
  induction chunks with
  | nil => rfl
  | cons chunk chunks ih =>
    rw [List.flatMap_cons, ← ih, ProgressFilter.filteredLines]
    cases houtput : ProgressFilter.output chunk with
    | none => rw [List.filterMap_cons_none houtput, List.nil_append]
    | some out => rw [List.filterMap_cons_some houtput, List.flatMap_cons]

/-- Chunks of at most 32 KiB add the lines of the whole text if they leave every line in one piece,
or cut off its carriage return only; where no line reaches 64 KiB, only then.  Through the filter
they do if every line is in one piece up to white space, or is dropped with all of its pieces;
where no kept line reaches 64 KiB, only then. -/
theorem write_chunks_iff (config : Config) (spare : List GoString → List GoString) (s : State)
    (hs : s.holder = none) (chunks : List GoString) (h : Scanner.Copied chunks) :
    (Scanner.AllUncut chunks → loggedBy config spare s (chunks.map Event.write) =
      loggedBy config spare s [.write chunks.flatten]) ∧
    (Scanner.Short chunks.flatten → (loggedBy config spare s (chunks.map Event.write) =
      loggedBy config spare s [.write chunks.flatten] ↔ Scanner.AllUncut chunks)) ∧
    (ProgressFilter.AllUncut chunks → loggedBy config spare s (filteredWrites chunks) =
      loggedBy config spare s (filteredWrites [chunks.flatten])) ∧
    (ProgressFilter.Short chunks.flatten → (loggedBy config spare s (filteredWrites chunks) =
      loggedBy config spare s (filteredWrites [chunks.flatten]) ↔
        ProgressFilter.AllUncut chunks)) := by
  have hdirect : loggedBy config spare s (chunks.map Event.write) =
      loggedBy config spare s [.write chunks.flatten] ↔
        Scanner.acceptedLines chunks.flatten = chunks.flatMap Scanner.acceptedLines := by
    have hiff := loggedBy_eq_iff config spare hs chunks [chunks.flatten]
    rw [List.flatMap_singleton] at hiff
    exact hiff.trans eq_comm
  have hfiltered : loggedBy config spare s (filteredWrites chunks) =
      loggedBy config spare s (filteredWrites [chunks.flatten]) ↔
        ProgressFilter.filteredLines chunks.flatten =
          chunks.flatMap ProgressFilter.filteredLines := by
    have hiff := loggedBy_eq_iff config spare hs
      (chunks.filterMap ProgressFilter.output) ([chunks.flatten].filterMap ProgressFilter.output)
    rw [flatMap_output, flatMap_output, List.flatMap_singleton] at hiff
    exact hiff.trans eq_comm
  rw [hdirect, hfiltered]
  exact ⟨Scanner.acceptedLines_flatten h, Scanner.acceptedLines_flatten_iff h,
    ProgressFilter.filteredLines_flatten h, ProgressFilter.filteredLines_flatten_iff h⟩

def shopChunks : List GoString := [utf8 "remote: done\nstep one\r\n", utf8 "step two\n"]

theorem write_chunks_shop :
    Scanner.Copied shopChunks ∧
      loggedBy shopConfig (fun _ => []) (State.initial shopConfig 0) (shopChunks.map Event.write) =
        loggedBy shopConfig (fun _ => []) (State.initial shopConfig 0)
          [.write shopChunks.flatten] := by
  have hcopied : Scanner.Copied shopChunks := by decide
  exact ⟨hcopied, (write_chunks_iff shopConfig (fun _ => []) (State.initial shopConfig 0) rfl
    shopChunks hcopied).1 (by decide)⟩

/-- A line that two writes share. -/
theorem not_write_chunks :
    ¬∀ (config : Config) (spare : List GoString → List GoString) (s : State)
      (chunks : List GoString),
      s.holder = none → Scanner.Copied chunks →
        loggedBy config spare s (chunks.map Event.write) =
          loggedBy config spare s [.write chunks.flatten] := by
  intro h
  have hsame := h shopConfig (fun _ => []) (State.initial shopConfig 0)
    [utf8 "step o", utf8 "ne\n"] rfl (by decide)
  have hdiffers : (loggedBy shopConfig (fun _ => []) (State.initial shopConfig 0)
      ([utf8 "step o", utf8 "ne\n"].map Event.write) ==
    loggedBy shopConfig (fun _ => []) (State.initial shopConfig 0)
      [.write [utf8 "step o", utf8 "ne\n"].flatten]) = false := by decide
  rw [hsame, beq_self_eq_true] at hdiffers
  cases hdiffers

end StreamLogger
end Worker
end Code2Cloud
