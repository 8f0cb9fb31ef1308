import Code2Cloud.Worker.GoString

/-!
# White space

`strings.TrimSpace` and `strings.Contains` on the bytes of a text.  A byte of one visible
character is no part of white space, and what such bytes say survives the trimming.
-/

namespace Code2Cloud
namespace Worker

namespace GoString

/-- `unicode.IsSpace` of a character of one byte. -/
def isSpace1 (a : UInt8) : Bool := (0x09 ≤ a && a ≤ 0x0d) || a == 0x20

/-- `U+0085` and `U+00A0` -/
def isSpace2 (a b : UInt8) : Bool := a == 0xc2 && (b == 0x85 || b == 0xa0)

/-- `U+1680`, `U+2000` to `U+200A`, `U+2028`, `U+2029`, `U+202F`, `U+205F` and `U+3000` -/
def isSpace3 (a b c : UInt8) : Bool :=
  (a == 0xe1 && b == 0x9a && c == 0x80) ||
    (a == 0xe2 && b == 0x80 && ((0x80 ≤ c && c ≤ 0x8a) || c == 0xa8 || c == 0xa9 || c == 0xaf)) ||
    (a == 0xe2 && b == 0x81 && c == 0x9f) || (a == 0xe3 && b == 0x80 && c == 0x80)

/-- `strings.TrimLeftFunc(s, unicode.IsSpace)` -/
def trimLeft : GoString → GoString
  | [] => []
  | [a] => if isSpace1 a then [] else [a]
  | [a, b] => if isSpace1 a then trimLeft [b] else if isSpace2 a b then [] else [a, b]
  | a :: b :: c :: s =>
    if isSpace1 a then trimLeft (b :: c :: s)
    else if isSpace2 a b then trimLeft (c :: s)
    else if isSpace3 a b c then trimLeft s
    else a :: b :: c :: s

/-- `trimRight`, on the reversed string. -/
def trimLast : GoString → GoString
  | [] => []
  | [c] => if isSpace1 c then [] else [c]
  | [c, b] => if isSpace1 c then trimLast [b] else if isSpace2 b c then [] else [c, b]
  | c :: b :: a :: s =>
    if isSpace1 c then trimLast (b :: a :: s)
    else if isSpace2 b c then trimLast (a :: s)
    else if isSpace3 a b c then trimLast s
    else c :: b :: a :: s

/-- `strings.TrimRightFunc(s, unicode.IsSpace)` -/
def trimRight (s : GoString) : GoString := (trimLast s.reverse).reverse

/-- `strings.TrimSpace` -/
def trimSpace (s : GoString) : GoString := trimRight (trimLeft s)

/-- `strings.Contains` -/
def contains (sub : GoString) : GoString → Bool
  | [] => sub.isPrefixOf []
  | c :: s => sub.isPrefixOf (c :: s) || contains sub s

def isSolid (c : UInt8) : Bool := 0x21 ≤ c && c ≤ 0x7e

variable {a b c : UInt8} {s sub p : GoString}

/-! ## Parts of a text -/

theorem trimLeft_suffix (s : GoString) : trimLeft s <:+ s := by
  fun_induction trimLeft s <;> simp_all [List.suffix_rfl, List.suffix_cons_iff]

theorem trimLast_suffix (s : GoString) : trimLast s <:+ s := by
  fun_induction trimLast s <;> simp_all [List.suffix_rfl, List.suffix_cons_iff]

theorem trimRight_isPrefix (s : GoString) : trimRight s <+: s := by
  have hsuffix := trimLast_suffix s.reverse
  rw [trimRight, ← List.reverse_suffix, List.reverse_reverse]
  exact hsuffix

theorem trimSpace_isInfix (s : GoString) : trimSpace s <:+: s :=
  (trimRight_isPrefix _).isInfix.trans (trimLeft_suffix s).isInfix

/-! ## Solid bytes -/

theorem not_isSolid_of_isSpace1 (h : isSpace1 a = true) : isSolid a = false := by
  simp only [isSpace1, isSolid, Bool.or_eq_true, Bool.and_eq_true, decide_eq_true_eq, beq_iff_eq,
    Bool.and_eq_false_iff, decide_eq_false_iff_not, UInt8.le_iff_toNat_le, ← UInt8.toNat_inj,
    UInt8.reduceToNat] at h ⊢
  omega

theorem not_isSolid_of_isSpace2 (h : isSpace2 a b = true) :
    isSolid a = false ∧ isSolid b = false := by
  simp only [isSpace2, Bool.and_eq_true, Bool.or_eq_true, beq_iff_eq] at h
  obtain ⟨rfl, rfl | rfl⟩ := h <;> decide

theorem not_isSolid_of_isSpace3 (h : isSpace3 a b c = true) :
    isSolid a = false ∧ isSolid b = false ∧ isSolid c = false := by
  have hhigh : (0x80 ≤ c && c ≤ 0x8a) = true → isSolid c = false := by
    simp only [isSolid, Bool.and_eq_true, decide_eq_true_eq, Bool.and_eq_false_iff,
      decide_eq_false_iff_not, UInt8.le_iff_toNat_le, UInt8.reduceToNat]
    omega
  simp only [isSpace3, Bool.and_eq_true, Bool.or_eq_true, beq_iff_eq] at h
  rcases h with ((⟨⟨rfl, rfl⟩, rfl⟩ | ⟨⟨rfl, rfl⟩, ((hc | rfl) | rfl) | rfl⟩) | ⟨⟨rfl, rfl⟩, rfl⟩) |
    ⟨⟨rfl, rfl⟩, rfl⟩
  · decide
  · exact ⟨rfl, rfl, hhigh (by simpa using hc)⟩
  all_goals decide

theorem countP_trimLeft (s : GoString) : (trimLeft s).countP isSolid = s.countP isSolid := by
  fun_induction trimLeft s with
  | case1 => rfl
  | case2 a h => simp [not_isSolid_of_isSpace1 h]
  | case3 => rfl
  | case4 a b h ih => simp [ih, not_isSolid_of_isSpace1 h]
  | case5 a b _ h => simp [not_isSolid_of_isSpace2 h]
  | case6 => rfl
  | case7 a b c s h ih => simpa [List.countP_cons, not_isSolid_of_isSpace1 h] using ih
  | case8 a b c s _ h ih => simp [ih, not_isSolid_of_isSpace2 h]
  | case9 a b c s _ _ h ih => simp [ih, not_isSolid_of_isSpace3 h]
  | case10 => rfl

theorem countP_trimLast (s : GoString) : (trimLast s).countP isSolid = s.countP isSolid := by
  fun_induction trimLast s with
  | case1 => rfl
  | case2 a h => simp [not_isSolid_of_isSpace1 h]
  | case3 => rfl
  | case4 c b h ih => simp [ih, not_isSolid_of_isSpace1 h]
  | case5 c b _ h => simp [not_isSolid_of_isSpace2 h]
  | case6 => rfl
  | case7 c b a s h ih => simpa [List.countP_cons, not_isSolid_of_isSpace1 h] using ih
  | case8 c b a s _ h ih => simp [ih, not_isSolid_of_isSpace2 h]
  | case9 c b a s _ _ h ih => simp [ih, not_isSolid_of_isSpace3 h]
  | case10 => rfl

theorem countP_trimRight (s : GoString) : (trimRight s).countP isSolid = s.countP isSolid := by
  rw [trimRight, List.countP_reverse, countP_trimLast, List.countP_reverse]

theorem countP_trimSpace (s : GoString) : (trimSpace s).countP isSolid = s.countP isSolid := by
  rw [trimSpace, countP_trimRight, countP_trimLeft]

/-- What begins with solid bytes still begins with them when its end is trimmed. -/
theorem isPrefix_trimRight {pre : GoString} (hlast : isSolid c = true) (h : pre ++ [c] <+: s) :
    pre ++ [c] <+: trimRight s := by
  rcases List.prefix_or_prefix_of_prefix h (trimRight_isPrefix s) with hpre | hshort
  · exact hpre
  · -- otherwise the byte `c` would have been taken away
    rcases List.prefix_concat_iff.mp hshort with heq | hbefore
    · exact heq ▸ List.prefix_rfl
    · have hall := (h.sublist.countP_le (p := isSolid))
      have hcut := (hbefore.sublist.countP_le (p := isSolid))
      rw [List.countP_append, List.countP_singleton, if_pos hlast] at hall
      rw [countP_trimRight] at hcut
      omega

/-- Solid bytes are not found across bytes that are not. -/
theorem isInfix_of_append {w t : GoString} (hw : ∀ c ∈ w, isSolid c = false)
    (hsub : ∀ c ∈ sub, isSolid c = true) (hne : sub ≠ []) (h : sub <:+: w ++ t) : sub <:+: t := by
  induction w with
  | nil => exact h
  | cons b w ih =>
    rcases List.infix_cons_iff.mp h with hpre | hpart
    · obtain ⟨c, rest, rfl⟩ := List.exists_cons_of_ne_nil hne
      have hb := hw b List.mem_cons_self
      rw [← (List.cons_prefix_cons.mp hpre).1, hsub c List.mem_cons_self] at hb
      cases hb
    · exact ih (fun c hc => hw c (List.mem_cons_of_mem b hc)) hpart

theorem isInfix_trimSpace (hsub : ∀ c ∈ sub, isSolid c = true) (hne : sub ≠ [])
    (h : sub <:+: s) : sub <:+: trimSpace s := by
  obtain ⟨w, z, hparts⟩ := trimSpace_isInfix s
  have hcount := congrArg (List.countP isSolid) hparts
  rw [List.countP_append, List.countP_append, countP_trimSpace] at hcount
  have hw : w.countP isSolid = 0 := by omega
  have hz : z.reverse.countP isSolid = 0 := by
    rw [List.countP_reverse]
    omega
  rw [← hparts, List.append_assoc] at h
  have hfront := isInfix_of_append (by simpa [List.countP_eq_zero] using hw) hsub hne h
  rw [← List.reverse_infix, List.reverse_append] at hfront
  rw [← List.reverse_infix]
  refine isInfix_of_append (by simpa only [List.countP_eq_zero, Bool.not_eq_true] using hz)
    (fun c hc => hsub c (List.mem_reverse.mp hc)) ?_ hfront
  exact fun hnil => hne (List.reverse_eq_nil_iff.mp hnil)

/-! ## Leading white space -/

theorem trimLeft_cons_of_isSpace1 (h : isSpace1 a = true) (s : GoString) :
    trimLeft (a :: s) = trimLeft s := by
  match s with
  | [] => exact if_pos h
  | [b] => exact if_pos h
  | b :: c :: s => exact if_pos h

theorem trimLeft_cons_of_isSpace2 (h : isSpace2 a b = true) (s : GoString) :
    trimLeft (a :: b :: s) = trimLeft s := by
  have hnot : ¬isSpace1 a = true := by
    rw [isSpace2, Bool.and_eq_true, beq_iff_eq] at h
    rw [h.1]
    decide
  match s with
  | [] => exact (if_neg hnot).trans (if_pos h)
  | c :: s => rw [trimLeft, if_neg hnot, if_pos h]

theorem trimLeft_cons_of_isSpace3 (h : isSpace3 a b c = true) (s : GoString) :
    trimLeft (a :: b :: c :: s) = trimLeft s := by
  have hnot : ¬isSpace1 a = true ∧ ¬isSpace2 a b = true := by
    simp only [isSpace3, Bool.and_eq_true, Bool.or_eq_true, beq_iff_eq] at h
    rcases h with ((⟨⟨rfl, rfl⟩, _⟩ | ⟨⟨rfl, rfl⟩, _⟩) | ⟨⟨rfl, rfl⟩, _⟩) | ⟨⟨rfl, rfl⟩, _⟩ <;>
      decide
  rw [trimLeft, if_neg hnot.1, if_neg hnot.2, if_pos h]

theorem trimLeft_cons_of_isSolid (h : isSolid a = true) (s : GoString) :
    trimLeft (a :: s) = a :: s := by
  have h1 : ¬isSpace1 a = true := fun hspace => by
    rw [not_isSolid_of_isSpace1 hspace] at h
    cases h
  have h2 (b : UInt8) : ¬isSpace2 a b = true := fun hspace => by
    rw [(not_isSolid_of_isSpace2 hspace).1] at h
    cases h
  have h3 (b c : UInt8) : ¬isSpace3 a b c = true := fun hspace => by
    rw [(not_isSolid_of_isSpace3 hspace).1] at h
    cases h
  match s with
  | [] => rw [trimLeft, if_neg h1]
  | [b] => rw [trimLeft, if_neg h1, if_neg (h2 b)]
  | b :: c :: s => rw [trimLeft, if_neg h1, if_neg (h2 b), if_neg (h3 b c)]

/-- White space in front of a text goes with its own. -/
theorem trimLeft_append_of_nil (h : trimLeft p = []) (s : GoString) :
    trimLeft (p ++ s) = trimLeft s := by
  fun_induction trimLeft p with
  | case1 => rfl
  | case2 a ha => exact trimLeft_cons_of_isSpace1 ha s
  | case3 => cases h
  | case4 a b ha ih => rw [List.cons_append, trimLeft_cons_of_isSpace1 ha, ih h]
  | case5 a b _ hab => exact trimLeft_cons_of_isSpace2 hab s
  | case6 => cases h
  | case7 a b c p ha ih => rw [List.cons_append, trimLeft_cons_of_isSpace1 ha, ih h]
  | case8 a b c p _ hab ih =>
    rw [List.cons_append, List.cons_append, trimLeft_cons_of_isSpace2 hab, ih h]
  | case9 a b c p _ _ habc ih =>
    rw [List.cons_append, List.cons_append, List.cons_append, trimLeft_cons_of_isSpace3 habc, ih h]
  | case10 => cases h

/-- Up to a solid byte only the leading white space is trimmed. -/
theorem trimLeft_append_of_isSolid {t : GoString} (h : trimLeft p = a :: t) (ha : isSolid a = true)
    (s : GoString) : trimLeft (p ++ s) = a :: t ++ s := by
  fun_induction trimLeft p with
  | case1 => cases h
  | case2 => cases h
  | case3 b _ =>
    cases h
    exact trimLeft_cons_of_isSolid ha s
  | case4 b c hb ih => rw [List.cons_append, trimLeft_cons_of_isSpace1 hb, ih h]
  | case5 => cases h
  | case6 =>
    cases h
    exact trimLeft_cons_of_isSolid ha _
  | case7 b c d p hb ih => rw [List.cons_append, trimLeft_cons_of_isSpace1 hb, ih h]
  | case8 b c d p _ hbc ih =>
    rw [List.cons_append, List.cons_append, trimLeft_cons_of_isSpace2 hbc, ih h]
  | case9 b c d p _ _ hbcd ih =>
    rw [List.cons_append, List.cons_append, List.cons_append, trimLeft_cons_of_isSpace3 hbcd, ih h]
  | case10 =>
    cases h
    exact trimLeft_cons_of_isSolid ha _

theorem trimLeft_trimLeft (s : GoString) : trimLeft (trimLeft s) = trimLeft s := by
  fun_induction trimLeft s with
  | case1 => rfl
  | case2 => rfl
  | case3 a ha => rw [trimLeft, if_neg ha]
  | case4 a b ha ih => exact ih
  | case5 => rfl
  | case6 a b ha hab => rw [trimLeft, if_neg ha, if_neg hab]
  | case7 a b c s ha ih => exact ih
  | case8 a b c s _ _ ih => exact ih
  | case9 a b c s _ _ _ ih => exact ih
  | case10 a b c s ha hab habc => rw [trimLeft, if_neg ha, if_neg hab, if_neg habc]

theorem trimLeft_reverse_of_trimLast (h : trimLast s = []) : trimLeft s.reverse = [] := by
  fun_induction trimLast s with
  | case1 => rfl
  | case2 c hc => exact trimLeft_cons_of_isSpace1 hc []
  | case3 => cases h
  | case4 c b hc ih =>
    rw [List.reverse_cons, trimLeft_append_of_nil (ih h)]
    exact trimLeft_cons_of_isSpace1 hc []
  | case5 c b _ hbc => exact trimLeft_cons_of_isSpace2 hbc []
  | case6 => cases h
  | case7 c b a s hc ih =>
    rw [List.reverse_cons, trimLeft_append_of_nil (ih h)]
    exact trimLeft_cons_of_isSpace1 hc []
  | case8 c b a s _ hbc ih =>
    rw [List.reverse_cons, List.reverse_cons, List.append_assoc, trimLeft_append_of_nil (ih h)]
    exact trimLeft_cons_of_isSpace2 hbc []
  | case9 c b a s _ _ habc ih =>
    rw [List.reverse_cons, List.reverse_cons, List.reverse_cons, List.append_assoc,
      List.append_assoc, trimLeft_append_of_nil (ih h)]
    exact trimLeft_cons_of_isSpace3 habc []
  | case10 => cases h

/-- A blank text is white space from its front on. -/
theorem trimSpace_eq_nil_iff : trimSpace s = [] ↔ trimLeft s = [] := by
  constructor
  · intro h
    rw [trimSpace, trimRight, List.reverse_eq_nil_iff] at h
    have hblank := trimLeft_reverse_of_trimLast h
    rwa [List.reverse_reverse, trimLeft_trimLeft] at hblank
  · intro h
    rw [trimSpace, h]
    rfl

/-- A beginning between solid bytes stays one, whatever follows. -/
theorem isPrefix_trimSpace_append {pre : GoString} (hfirst : pre.head?.any isSolid = true)
    (hlast : pre.getLast?.any isSolid = true) (h : pre <+: trimSpace p) (s : GoString) :
    pre <+: trimSpace (p ++ s) := by
  have hleft := h.trans (trimRight_isPrefix (trimLeft p))
  rw [Option.any_eq_true] at hlast
  obtain ⟨c, hc, hsolid⟩ := hlast
  obtain ⟨before, hpre⟩ := List.getLast?_eq_some_iff.mp hc
  cases pre with
  | nil => cases hfirst
  | cons a t =>
    obtain ⟨rest, hrest⟩ := hleft
    rw [List.cons_append] at hrest
    rw [trimSpace, trimLeft_append_of_isSolid hrest.symm hfirst, hpre]
    refine isPrefix_trimRight hsolid ?_
    rw [← hpre]
    exact ⟨rest ++ s, by simp⟩

theorem contains_iff : contains sub s = true ↔ sub <:+: s := by
  induction s with
  | nil => rw [contains, List.isPrefixOf_iff_prefix, List.prefix_nil, List.infix_nil]
  | cons c s ih =>
    rw [contains, Bool.or_eq_true, List.isPrefixOf_iff_prefix, ih, List.infix_cons_iff]

end GoString
end Worker
end Code2Cloud
