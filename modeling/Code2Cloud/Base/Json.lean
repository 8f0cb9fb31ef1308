import Code2Cloud.Base.Hex
import Mathlib.Data.List.TakeWhile

/-!
# JSON

Values, the compact text that a runtime writes for one, and a reader of any text.  What was
written reads back as the value it was written for.
-/

namespace Code2Cloud

/-- A JSON value.  A number is the text of its literal. -/
inductive Json
  | null
  | bool (b : Bool)
  | num (literal : String)
  | str (text : String)
  | arr (elems : List Json)
  | obj (members : List (String × Json))

namespace Json

/-! ## Writing -/

/-- The characters that a writer escapes although the grammar lets them stand. -/
structure Escaping where
  also : Char → Bool
  basic : ∀ c, also c = true → c.toNat < 0x10000

/-- Only what must be escaped is. -/
def Escaping.minimal : Escaping where
  also := fun _ => false
  basic := by simp

/-- `\u` with the four digits of a code unit. -/
def unicodeEscape (n : Nat) : List Char :=
  ['\\', 'u', Hex.digit (n / 0x1000 % 0x10), Hex.digit (n / 0x100 % 0x10),
    Hex.digit (n / 0x10 % 0x10), Hex.digit (n % 0x10)]

def quoteChar (e : Escaping) (c : Char) : List Char :=
  if c = '"' then ['\\', '"']
  else if c = '\\' then ['\\', '\\']
  else if c = '\x08' then ['\\', 'b']
  else if c = '\t' then ['\\', 't']
  else if c = '\n' then ['\\', 'n']
  else if c = '\x0c' then ['\\', 'f']
  else if c = '\r' then ['\\', 'r']
  else if c.toNat < 0x20 ∨ e.also c = true then unicodeEscape c.toNat
  else [c]

def quote (e : Escaping) (s : String) : List Char :=
  '"' :: s.toList.flatMap (quoteChar e) ++ ['"']

mutual

def print (e : Escaping) : Json → List Char
  | null => "null".toList
  | bool true => "true".toList
  | bool false => "false".toList
  | num literal => literal.toList
  | str text => quote e text
  | arr elems => '[' :: [','].intercalate (printElems e elems) ++ [']']
  | obj members => '\x7b' :: [','].intercalate (printMembers e members) ++ ['\x7d']

def printElems (e : Escaping) : List Json → List (List Char)
  | [] => []
  | j :: js => print e j :: printElems e js

def printMembers (e : Escaping) : List (String × Json) → List (List Char)
  | [] => []
  | (key, j) :: ms => (quote e key ++ ':' :: print e j) :: printMembers e ms

end

/-! ## Reading -/

def isSpace (c : Char) : Bool := c == ' ' || c == '\t' || c == '\n' || c == '\r'

def skipSpace (cs : List Char) : List Char := cs.dropWhile isSpace

/-- What follows a word that a text begins with. -/
def after (word cs : List Char) : Option (List Char) :=
  if word.isPrefixOf cs then some (cs.drop word.length) else none

def codeUnit : List Char → Option (Nat × List Char)
  | c₃ :: c₂ :: c₁ :: c₀ :: cs =>
    match Hex.value c₃, Hex.value c₂, Hex.value c₁, Hex.value c₀ with
    | some n₃, some n₂, some n₁, some n₀ =>
      some (((n₃ * 0x10 + n₂) * 0x10 + n₁) * 0x10 + n₀, cs)
    | _, _, _, _ => none
  | _ => none

/-- The character of a code unit, with the second half of a pair where one follows.  Half a
pair alone is `U+FFFD`. -/
def charOfUnit (n : Nat) (cs : List Char) : Char × List Char :=
  if n < 0xd800 ∨ 0xdfff < n then (Char.ofNat n, cs)
  else
    match (after ['\\', 'u'] cs).bind codeUnit with
    | some (m, cs') =>
      if n < 0xdc00 ∧ 0xdc00 ≤ m ∧ m ≤ 0xdfff then
        (Char.ofNat (0x10000 + (n - 0xd800) * 0x400 + (m - 0xdc00)), cs')
      else (Utf8.replacement, cs)
    | none => (Utf8.replacement, cs)

/-- The character that a letter behind a backslash stands for. -/
def escaped (c : Char) : Option Char :=
  if c = '"' ∨ c = '\\' ∨ c = '/' then some c
  else if c = 'b' then some '\x08'
  else if c = 't' then some '\t'
  else if c = 'n' then some '\n'
  else if c = 'f' then some '\x0c'
  else if c = 'r' then some '\r'
  else none

def quotedChar : List Char → Option (Char × List Char)
  | [] => none
  | c :: cs =>
    if c = '\\' then
      match cs with
      | [] => none
      | d :: cs =>
        if d = 'u' then (codeUnit cs).map fun r => charOfUnit r.1 r.2
        else (escaped d).map fun d => (d, cs)
    else if c.toNat < 0x20 then none
    else some (c, cs)

def quoted : Nat → List Char → Option (List Char × List Char)
  | 0, _ => none
  | fuel + 1, cs =>
    if cs.head? = some '"' then some ([], cs.tail)
    else
      match quotedChar cs with
      | none => none
      | some (c, cs) => (quoted fuel cs).map fun r => (c :: r.1, r.2)

def text (cs : List Char) : Option (String × List Char) :=
  (quoted (cs.length + 1) cs).map fun r => (String.ofList r.1, r.2)

def digits (cs : List Char) : Option (List Char × List Char) :=
  if (cs.takeWhile Char.isDigit).isEmpty then none
  else some (cs.takeWhile Char.isDigit, cs.dropWhile Char.isDigit)

def sign (cs : List Char) : List Char × List Char :=
  if cs.head? = some '-' then (['-'], cs.tail) else ([], cs)

def integerPart (cs : List Char) : Option (List Char × List Char) :=
  if cs.head? = some '0' then some (['0'], cs.tail) else digits cs

def fraction (cs : List Char) : Option (List Char × List Char) :=
  if cs.head? = some '.' then (digits cs.tail).map fun r => ('.' :: r.1, r.2) else some ([], cs)

def exponent : List Char → Option (List Char × List Char)
  | [] => some ([], [])
  | c :: cs =>
    if c = 'e' ∨ c = 'E' then
      if cs.head? = some '+' ∨ cs.head? = some '-' then
        (digits cs.tail).map fun r => (c :: cs.take 1 ++ r.1, r.2)
      else (digits cs).map fun r => (c :: r.1, r.2)
    else some ([], c :: cs)

/-- The literal of a number, which must not begin with a needless zero. -/
def number (cs : List Char) : Option (List Char × List Char) :=
  let (s, cs) := sign cs
  match integerPart cs with
  | none => none
  | some (i, cs) =>
    match fraction cs with
    | none => none
    | some (f, cs) => (exponent cs).map fun r => (s ++ i ++ f ++ r.1, r.2)

def items {α : Type} (item : List Char → Option (α × List Char)) (close : Char) :
    Nat → List Char → Option (List α × List Char)
  | 0, _ => none
  | fuel + 1, cs =>
    match item cs with
    | none => none
    | some (a, cs) =>
      match skipSpace cs with
      | [] => none
      | c :: cs =>
        if c = ',' then (items item close fuel cs).map fun r => (a :: r.1, r.2)
        else if c = close then some ([a], cs)
        else none

def list {α : Type} (item : List Char → Option (α × List Char)) (close : Char)
    (cs : List Char) : Option (List α × List Char) :=
  if (skipSpace cs).head? = some close then some ([], (skipSpace cs).tail)
  else items item close cs.length cs

def member (value : List Char → Option (Json × List Char)) (cs : List Char) :
    Option ((String × Json) × List Char) :=
  match skipSpace cs with
  | [] => none
  | c :: cs =>
    if c = '"' then
      match text cs with
      | none => none
      | some (key, cs) =>
        match skipSpace cs with
        | [] => none
        | c :: cs =>
          if c = ':' then (value cs).map fun r => ((key, r.1), r.2) else none
    else none

/-- A value, with the reader for those inside it, where there may be any. -/
def valueWith (nested : Option (List Char → Option (Json × List Char))) (cs : List Char) :
    Option (Json × List Char) :=
  match skipSpace cs with
  | [] => none
  | c :: cs =>
    if c = '"' then (text cs).map fun r => (str r.1, r.2)
    else if c = '[' then
      nested.bind fun value => (list value ']' cs).map fun r => (arr r.1, r.2)
    else if c = '\x7b' then
      nested.bind fun value => (list (member value) '\x7d' cs).map fun r => (obj r.1, r.2)
    else if c = 'n' then (after "ull".toList cs).map fun cs => (null, cs)
    else if c = 't' then (after "rue".toList cs).map fun cs => (bool true, cs)
    else if c = 'f' then (after "alse".toList cs).map fun cs => (bool false, cs)
    else (number (c :: cs)).map fun r => (num (String.ofList r.1), r.2)

/-- A value that nests no deeper. -/
def value : Nat → List Char → Option (Json × List Char)
  | 0 => valueWith none
  | depth + 1 => valueWith (some (value depth))

def parse (depth : Nat) (cs : List Char) : Option Json :=
  match value depth cs with
  | none => none
  | some (j, cs) => if (skipSpace cs).isEmpty then some j else none

/-! ## Texts -/

theorem codeUnit_digits {n : Nat} (h : n < 0x10000) (cs : List Char) :
    codeUnit (Hex.digit (n / 0x1000 % 0x10) :: Hex.digit (n / 0x100 % 0x10) ::
      Hex.digit (n / 0x10 % 0x10) :: Hex.digit (n % 0x10) :: cs) = some (n, cs) := by
  rw [codeUnit, Hex.value_digit (by omega), Hex.value_digit (by omega),
    Hex.value_digit (by omega), Hex.value_digit (by omega)]
  simp only [Option.some.injEq, Prod.mk.injEq, and_true]
  omega

/-- A character that is no half of a pair is read from its one unit. -/
theorem charOfUnit_char (c : Char) (cs : List Char) : charOfUnit c.toNat cs = (c, cs) := by
  have hvalid := Utf8.toNat_valid c
  rw [charOfUnit, if_pos (by omega), Char.ofNat_toNat]

theorem quotedChar_unicodeEscape {c : Char} (h : c.toNat < 0x10000) (cs : List Char) :
    quotedChar (unicodeEscape c.toNat ++ cs) = some (c, cs) := by
  simp only [unicodeEscape, List.cons_append, List.nil_append, quotedChar, if_true]
  rw [codeUnit_digits h, Option.map_some, charOfUnit_char]

theorem quotedChar_quoteChar (e : Escaping) (c : Char) (cs : List Char) :
    quotedChar (quoteChar e c ++ cs) = some (c, cs) := by
  unfold quoteChar
  split_ifs with hquote hback hb ht hn hf hr hescaped
  · subst hquote; rfl
  · subst hback; rfl
  · subst hb; rfl
  · subst ht; rfl
  · subst hn; rfl
  · subst hf; rfl
  · subst hr; rfl
  · refine quotedChar_unicodeEscape ?_ cs
    rcases hescaped with hcontrol | halso
    · omega
    · exact e.basic c halso
  · have hplain : ¬c.toNat < 0x20 := fun hlt => hescaped (Or.inl hlt)
    simp only [List.cons_append, List.nil_append, quotedChar, if_neg hback, if_neg hplain]

/-- What stands for a character inside quotes does not begin with the closing one. -/
theorem head_quoteChar (e : Escaping) (c : Char) (cs : List Char) :
    (quoteChar e c ++ cs).head? ≠ some '"' := by
  unfold quoteChar unicodeEscape
  split_ifs <;> simp_all

theorem quoted_flatMap (e : Escaping) (s cs : List Char) {fuel : Nat} (h : s.length < fuel) :
    quoted fuel (s.flatMap (quoteChar e) ++ '"' :: cs) = some (s, cs) := by
  induction s generalizing fuel with
  | nil =>
    obtain ⟨fuel, rfl⟩ : ∃ k, fuel = k + 1 := ⟨fuel - 1, by simp at h; omega⟩
    rfl
  | cons c s ih =>
    obtain ⟨fuel, rfl⟩ : ∃ k, fuel = k + 1 := ⟨fuel - 1, by simp at h; omega⟩
    rw [List.flatMap_cons, List.append_assoc, quoted, if_neg (head_quoteChar e c _),
      quotedChar_quoteChar]
    simp [ih (by simpa using h)]

theorem one_le_length_quoteChar (e : Escaping) (c : Char) : 1 ≤ (quoteChar e c).length := by
  unfold quoteChar unicodeEscape
  split_ifs <;> simp

theorem length_le_flatMap_quoteChar (e : Escaping) (s : List Char) :
    s.length ≤ (s.flatMap (quoteChar e)).length := by
  induction s with
  | nil => simp
  | cons c s ih =>
    have hc := one_le_length_quoteChar e c
    rw [List.flatMap_cons, List.length_append, List.length_cons]
    omega

/-- A text that was written is read back, whatever follows it. -/
theorem text_quote (e : Escaping) (s : String) (cs : List Char) :
    text ((quote e s).tail ++ cs) = some (s, cs) := by
  have hlength := length_le_flatMap_quoteChar e s.toList
  simp only [quote, List.cons_append, List.tail_cons, List.append_assoc, List.nil_append]
  have hfuel : s.toList.length <
      (s.toList.flatMap (quoteChar e) ++ '"' :: cs).length + 1 := by
    rw [List.length_append]
    omega
  rw [text, quoted_flatMap e s.toList cs hfuel, Option.map_some, String.ofList_toList]

/-! ## Numbers -/

/-- What comes next cannot continue a number. -/
def Delimited (cs : List Char) : Prop :=
  ∀ c, cs.head? = some c → c = ',' ∨ c = ']' ∨ c = '\x7d'

def IsNumber (literal : String) : Prop :=
  number literal.toList = some (literal.toList, [])

theorem delimited_nil : Delimited [] := by simp [Delimited]

theorem delimited_cons {c : Char} (h : c = ',' ∨ c = ']' ∨ c = '\x7d') (cs : List Char) :
    Delimited (c :: cs) := by
  simpa [Delimited] using h

namespace Delimited

variable {rest : List Char} (h : Delimited rest)

include h

theorem takeWhile_isDigit : rest.takeWhile Char.isDigit = [] := by
  cases rest with
  | nil => rfl
  | cons c rest =>
    rcases h c rfl with rfl | rfl | rfl <;> rfl

theorem digits_append {cs : List Char} {r : List Char × List Char} (hr : digits cs = some r) :
    digits (cs ++ rest) = some (r.1, r.2 ++ rest) := by
  unfold digits at hr ⊢
  split at hr
  · cases hr
  · rename_i hne
    rw [Option.some.injEq] at hr
    subst hr
    have htake : (cs ++ rest).takeWhile Char.isDigit = cs.takeWhile Char.isDigit := by
      rw [List.takeWhile_append]
      split
      · rename_i hall
        rw [h.takeWhile_isDigit, List.append_nil]
        exact (List.IsPrefix.eq_of_length (List.takeWhile_prefix _) hall).symm
      · rfl
    have hdrop : (cs ++ rest).dropWhile Char.isDigit = cs.dropWhile Char.isDigit ++ rest := by
      have hsplit := List.takeWhile_append_dropWhile (p := Char.isDigit) (l := cs ++ rest)
      rw [htake] at hsplit
      have hcs := List.takeWhile_append_dropWhile (p := Char.isDigit) (l := cs)
      conv_rhs at hsplit => rw [← hcs, List.append_assoc]
      exact List.append_cancel_left hsplit
    rw [htake, hdrop, if_neg hne]

/-- No character that may stand inside a number comes next. -/
theorem head_append {cs : List Char} {c : Char}
    (hc : c ≠ ',' ∧ c ≠ ']' ∧ c ≠ '\x7d') :
    (cs ++ rest).head? = some c ↔ cs.head? = some c := by
  cases cs with
  | nil =>
    refine ⟨fun hhead => ?_, by simp⟩
    rcases h c (by simpa using hhead) with rfl | rfl | rfl <;> simp at hc
  | cons d cs => simp

theorem integerPart_append {cs : List Char} {r : List Char × List Char}
    (hr : integerPart cs = some r) : integerPart (cs ++ rest) = some (r.1, r.2 ++ rest) := by
  unfold integerPart at hr ⊢
  rw [if_congr (h.head_append (by decide)) rfl rfl]
  split at hr
  · rename_i hzero
    rw [Option.some.injEq] at hr
    subst hr
    rw [if_pos hzero, List.tail_append_of_ne_nil (by rintro rfl; simp at hzero)]
  · rename_i hzero
    rw [if_neg hzero]
    exact h.digits_append hr

theorem fraction_append {cs : List Char} {r : List Char × List Char}
    (hr : fraction cs = some r) : fraction (cs ++ rest) = some (r.1, r.2 ++ rest) := by
  unfold fraction at hr ⊢
  rw [if_congr (h.head_append (by decide)) rfl rfl]
  split at hr
  · rename_i hpoint
    obtain ⟨q, hq, rfl⟩ := Option.map_eq_some_iff.mp hr
    rw [if_pos hpoint, List.tail_append_of_ne_nil (by rintro rfl; simp at hpoint),
      h.digits_append hq, Option.map_some]
  · rename_i hpoint
    rw [Option.some.injEq] at hr
    subst hr
    rw [if_neg hpoint]

theorem exponent_append {cs : List Char} {r : List Char × List Char}
    (hr : exponent cs = some r) : exponent (cs ++ rest) = some (r.1, r.2 ++ rest) := by
  cases cs with
  | nil =>
    rw [exponent, Option.some.injEq] at hr
    subst hr
    rw [List.nil_append]
    cases rest with
    | nil => rfl
    | cons c rest =>
      rw [exponent, if_neg]
      rcases h c rfl with rfl | rfl | rfl <;> decide
  | cons c cs =>
    rw [List.cons_append]
    simp only [exponent] at hr ⊢
    have hplus : (cs ++ rest).head? = some '+' ↔ cs.head? = some '+' :=
      h.head_append (by decide)
    have hminus : (cs ++ rest).head? = some '-' ↔ cs.head? = some '-' :=
      h.head_append (by decide)
    rw [if_congr (or_congr hplus hminus) rfl rfl]
    split at hr
    · rename_i he
      rw [if_pos he]
      split at hr
      · rename_i hsign
        have hne : cs ≠ [] := by rintro rfl; simp at hsign
        obtain ⟨q, hq, rfl⟩ := Option.map_eq_some_iff.mp hr
        rw [if_pos hsign, List.tail_append_of_ne_nil hne, h.digits_append hq,
          List.take_append_of_le_length (List.length_pos_iff.mpr hne), Option.map_some]
      · rename_i hsign
        obtain ⟨q, hq, rfl⟩ := Option.map_eq_some_iff.mp hr
        rw [if_neg hsign, h.digits_append hq, Option.map_some]
    · rename_i he
      rw [Option.some.injEq] at hr
      subst hr
      rw [if_neg he, List.cons_append]

end Delimited

/-- A literal is read whole, whatever follows that cannot continue it. -/
theorem number_append {literal : String} (hl : IsNumber literal) {rest : List Char}
    (h : Delimited rest) : number (literal.toList ++ rest) = some (literal.toList, rest) := by
  unfold IsNumber number at hl
  unfold number
  have hsign : sign (literal.toList ++ rest) =
      ((sign literal.toList).1, (sign literal.toList).2 ++ rest) := by
    unfold sign
    rw [if_congr (h.head_append (by decide)) rfl rfl]
    split
    · rename_i hminus
      rw [List.tail_append_of_ne_nil (by intro hnil; simp [hnil] at hminus)]
    · rfl
  rw [hsign]
  dsimp only at hl ⊢
  cases hi : integerPart (sign literal.toList).2 with
  | none => simp [hi] at hl
  | some i =>
    rw [h.integerPart_append hi]
    cases hf : fraction i.2 with
    | none => simp [hi, hf] at hl
    | some f =>
      simp only [hi, hf] at hl
      obtain ⟨x, hx, hmk⟩ := Option.map_eq_some_iff.mp hl
      simp only [Prod.mk.injEq] at hmk
      dsimp only
      rw [h.fraction_append hf]
      dsimp only
      rw [h.exponent_append hx, Option.map_some, hmk.1, hmk.2, List.nil_append]

/-- A number begins with its sign or a digit. -/
theorem exists_head_of_isNumber {literal : String} (h : IsNumber literal) :
    ∃ c cs, literal.toList = c :: cs ∧ (c = '-' ∨ c.isDigit = true) := by
  unfold IsNumber number at h
  cases hcs : literal.toList with
  | nil => simp [hcs, sign, integerPart, digits] at h
  | cons c cs =>
    refine ⟨c, cs, rfl, ?_⟩
    by_contra hc
    simp only [not_or, Bool.not_eq_true] at hc
    have hzero : c ≠ '0' := by
      rintro rfl
      simp at hc
    simp [hcs, sign, integerPart, digits, hc.1, hc.2, hzero] at h

theorem head_toDigits {n : Nat} (hn : 0 < n) : (Nat.toDigits 10 n).head? ≠ some '0' := by
  induction n using Nat.strongRecOn with
  | _ n ih =>
    by_cases hsmall : n < 10
    · have hall : ∀ m ∈ List.range 10, 0 < m → [m.digitChar].head? ≠ some '0' := by decide
      rw [Nat.toDigits_of_lt_base hsmall]
      exact hall n (List.mem_range.mpr hsmall) hn
    · rw [Nat.toDigits_of_base_le (by decide) (by omega),
        List.head?_append_of_ne_nil _ Nat.toDigits_ne_nil]
      exact ih (n / 10) (by omega) (by omega)

theorem isNumber_toString (n : Nat) : IsNumber (toString n) := by
  rw [show toString n = n.repr from rfl, IsNumber, Nat.toList_repr]
  by_cases hn : n = 0
  · subst hn
    rfl
  · have hdigit : ∀ c ∈ Nat.toDigits 10 n, c.isDigit = true := fun c hc =>
      Nat.isDigit_of_mem_toDigits (by decide) (by decide) hc
    have hzero := head_toDigits (Nat.pos_of_ne_zero hn)
    have hminus : (Nat.toDigits 10 n).head? ≠ some '-' := by
      intro h
      exact absurd (hdigit '-' (List.mem_of_mem_head? h)) (by decide)
    have htake : (Nat.toDigits 10 n).takeWhile Char.isDigit = Nat.toDigits 10 n :=
      List.takeWhile_eq_self_iff.mpr hdigit
    have hdrop : (Nat.toDigits 10 n).dropWhile Char.isDigit = [] :=
      List.dropWhile_eq_nil_iff.mpr hdigit
    have hne : (Nat.toDigits 10 n).isEmpty = false := by simp
    simp [number, sign, if_neg hminus, integerPart, if_neg hzero, digits, htake, hdrop, hne,
      fraction, exponent]

/-! ## Values -/

/-- A value nests no deeper, and its numbers are literals. -/
def Fits : Nat → Json → Prop
  | _, num literal => IsNumber literal
  | 0, arr _ => False
  | depth + 1, arr elems => ∀ j ∈ elems, Fits depth j
  | 0, obj _ => False
  | depth + 1, obj members => ∀ m ∈ members, Fits depth m.2
  | _, _ => True

theorem Fits.mono {depth depth' : Nat} {j : Json} (h : Fits depth j) (hle : depth ≤ depth') :
    Fits depth' j := by
  induction depth generalizing depth' j with
  | zero =>
    cases j with
    | arr elems => exact h.elim
    | obj members => exact h.elim
    | num literal => cases depth' <;> exact h
    | _ => cases depth' <;> trivial
  | succ depth ih =>
    obtain ⟨depth', rfl⟩ : ∃ k, depth' = k + 1 := ⟨depth' - 1, by omega⟩
    cases j with
    | arr elems => exact fun j hj => ih (h j hj) (by omega)
    | obj members => exact fun m hm => ih (h m hm) (by omega)
    | num literal => exact h
    | _ => trivial

theorem printElems_eq_map (e : Escaping) (js : List Json) : printElems e js = js.map (print e) := by
  induction js with
  | nil => rfl
  | cons j js ih => rw [printElems, ih, List.map_cons]

def printMember (e : Escaping) (m : String × Json) : List Char := quote e m.1 ++ ':' :: print e m.2

theorem printMembers_eq_map (e : Escaping) (ms : List (String × Json)) :
    printMembers e ms = ms.map (printMember e) := by
  induction ms with
  | nil => rfl
  | cons m ms ih => rw [printMembers, ih, List.map_cons, printMember]

theorem skipSpace_cons {c : Char} (h : isSpace c = false) (cs : List Char) :
    skipSpace (c :: cs) = c :: cs := by
  rw [skipSpace, List.dropWhile_cons, h]
  rfl

/-- The first character of a value is no space and closes nothing. -/
theorem exists_head_print (e : Escaping) {depth : Nat} {j : Json} (h : Fits depth j) :
    ∃ c cs, print e j = c :: cs ∧ isSpace c = false ∧ c ≠ ']' ∧ c ≠ '\x7d' := by
  cases j with
  | null => exact ⟨_, _, rfl, by decide⟩
  | bool b => cases b <;> exact ⟨_, _, rfl, by decide⟩
  | num literal =>
    have hliteral : IsNumber literal := by
      cases depth <;> exact h
    obtain ⟨c, cs, hcs, hc⟩ := exists_head_of_isNumber hliteral
    refine ⟨c, cs, hcs, ?_⟩
    rcases hc with rfl | hc
    · decide
    · refine ⟨?_, ?_, ?_⟩
      · simp only [isSpace, Bool.or_eq_false_iff, beq_eq_false_iff_ne, ne_eq]
        refine ⟨⟨⟨?_, ?_⟩, ?_⟩, ?_⟩ <;> (rintro rfl; simp at hc)
      · rintro rfl
        simp at hc
      · rintro rfl
        simp at hc
  | str text => exact ⟨_, _, rfl, by decide⟩
  | arr elems => exact ⟨_, _, rfl, by decide⟩
  | obj members => exact ⟨_, _, rfl, by decide⟩

theorem length_le_intercalate {α : Type} (f : α → List Char) :
    ∀ xs : List α, (∀ a ∈ xs, f a ≠ []) →
      xs.length ≤ ([','].intercalate (xs.map f)).length := by
  intro xs hf
  induction xs with
  | nil => simp
  | cons a xs ih =>
    have ha : 1 ≤ (f a).length := List.length_pos_iff.mpr (hf a List.mem_cons_self)
    have hxs := ih fun b hb => hf b (List.mem_cons_of_mem a hb)
    cases xs with
    | nil => simpa using ha
    | cons b xs =>
      rw [List.map_cons, List.map_cons, List.intercalate_cons_cons]
      simp only [List.map_cons] at hxs
      simp only [List.length_append, List.length_cons, List.length_nil] at hxs ⊢
      omega

theorem length_le_intercalate_of_mem {l : List Char} {ls : List (List Char)} (h : l ∈ ls) :
    l.length ≤ ([','].intercalate ls).length := by
  induction ls with
  | nil => cases h
  | cons x xs ih =>
    cases xs with
    | nil =>
      rw [List.mem_singleton.mp h, List.intercalate_singleton]
    | cons y ys =>
      rw [List.intercalate_cons_cons, List.length_append, List.length_append]
      rcases List.mem_cons.mp h with rfl | hmem
      · omega
      · have hrest := ih hmem
        omega

theorem fits_length (e : Escaping) {depth : Nat} {j : Json} (h : Fits depth j) :
    Fits (print e j).length j := by
  induction depth generalizing j with
  | zero => exact h.mono (Nat.zero_le _)
  | succ depth ih =>
    cases j with
    | arr elems =>
      rw [print, List.length_append, List.length_cons, printElems_eq_map]
      intro a ha
      have hlength := length_le_intercalate_of_mem (List.mem_map_of_mem (f := print e) ha)
      exact (ih (h a ha)).mono (by omega)
    | obj members =>
      rw [print, List.length_append, List.length_cons, printMembers_eq_map]
      intro m hm
      have hlength := length_le_intercalate_of_mem (List.mem_map_of_mem (f := printMember e) hm)
      have hvalue : (print e m.2).length ≤ (printMember e m).length := by
        rw [printMember, List.length_append, List.length_cons]
        omega
      exact (ih (h m hm)).mono (by omega)
    | num literal => exact Fits.mono (show Fits 0 (num literal) from h) (Nat.zero_le _)
    | null => exact Fits.mono (show Fits 0 null from trivial) (Nat.zero_le _)
    | bool b => exact Fits.mono (show Fits 0 (bool b) from trivial) (Nat.zero_le _)
    | str text => exact Fits.mono (show Fits 0 (str text) from trivial) (Nat.zero_le _)

/-- Items that are read back one by one are read back with commas between them. -/
theorem items_intercalate {α : Type} {item : List Char → Option (α × List Char)} {close : Char}
    (hclose : close = ']' ∨ close = '\x7d') (f : α → List Char) (rest : List Char) :
    ∀ (xs : List α) (fuel : Nat), xs ≠ [] → xs.length ≤ fuel →
      (∀ a ∈ xs, ∀ cs, Delimited cs → item (f a ++ cs) = some (a, cs)) →
      items item close fuel ([','].intercalate (xs.map f) ++ close :: rest) = some (xs, rest) := by
  intro xs
  induction xs with
  | nil => simp
  | cons a xs ih =>
    intro fuel _ hfuel hitem
    obtain ⟨fuel, rfl⟩ : ∃ k, fuel = k + 1 := ⟨fuel - 1, by simp at hfuel; omega⟩
    have ha := hitem a List.mem_cons_self
    cases xs with
    | nil =>
      have hspace : isSpace close = false := by rcases hclose with rfl | rfl <;> decide
      have hcomma : close ≠ ',' := by rcases hclose with rfl | rfl <;> decide
      simp only [List.map_cons, List.map_nil, List.intercalate_singleton]
      rw [items, ha _ (delimited_cons (Or.inr hclose) rest)]
      simp only [skipSpace_cons hspace, if_neg hcomma, if_true]
    | cons b xs =>
      have hrest := ih fuel (by simp) (by simpa using hfuel)
        fun c hc => hitem c (List.mem_cons_of_mem a hc)
      rw [List.map_cons, List.map_cons, List.intercalate_cons_cons, List.append_assoc,
        List.append_assoc, items, List.cons_append, List.nil_append,
        ha _ (delimited_cons (Or.inl rfl) _)]
      simp only [skipSpace_cons (show isSpace ',' = false by decide), if_true]
      rw [← List.map_cons, hrest, Option.map_some]

theorem list_intercalate {α : Type} {item : List Char → Option (α × List Char)} {close : Char}
    (hclose : close = ']' ∨ close = '\x7d') (f : α → List Char) (xs : List α) (rest : List Char)
    (hhead : ∀ a ∈ xs, ∃ c cs, f a = c :: cs ∧ isSpace c = false ∧ c ≠ close)
    (hitem : ∀ a ∈ xs, ∀ cs, Delimited cs → item (f a ++ cs) = some (a, cs)) :
    list item close ([','].intercalate (xs.map f) ++ close :: rest) = some (xs, rest) := by
  have hspace : isSpace close = false := by rcases hclose with rfl | rfl <;> decide
  cases xs with
  | nil =>
    have hnil : [','].intercalate (([] : List α).map f) ++ close :: rest = close :: rest := rfl
    rw [hnil, list, skipSpace_cons hspace, List.head?_cons, if_pos rfl, List.tail_cons]
  | cons a xs =>
    obtain ⟨c, cs, hfa, hc, hne⟩ := hhead a List.mem_cons_self
    have hbegins : ∃ cs', [','].intercalate ((a :: xs).map f) ++ close :: rest = c :: cs' := by
      cases xs with
      | nil => simp [hfa]
      | cons b xs => simp [List.intercalate_cons_cons, hfa]
    have hnonempty : ∀ b ∈ a :: xs, f b ≠ [] := by
      intro b hb
      obtain ⟨d, ds, hfb, _⟩ := hhead b hb
      simp [hfb]
    have hlength := length_le_intercalate f (a :: xs) hnonempty
    have hitems := items_intercalate hclose f rest (a :: xs)
      ([','].intercalate ((a :: xs).map f) ++ close :: rest).length (by simp)
      (by rw [List.length_append]; omega) hitem
    obtain ⟨cs', hcs'⟩ := hbegins
    rw [hcs'] at hitems ⊢
    rw [list, skipSpace_cons hc, if_neg (by simpa using hne), hitems]

theorem valueWith_num (nested : Option (List Char → Option (Json × List Char)))
    {literal : String} (hl : IsNumber literal) {rest : List Char} (hrest : Delimited rest) :
    valueWith nested (literal.toList ++ rest) = some (num literal, rest) := by
  obtain ⟨c, cs, hcs, hc⟩ := exists_head_of_isNumber hl
  have hnumber := number_append hl hrest
  obtain ⟨d, ds, hds, hspace, _⟩ := exists_head_print .minimal (show Fits 0 (num literal) from hl)
  have hfirst : c = d := by
    rw [print, hcs] at hds
    exact (List.cons.inj hds).1
  subst hfirst
  have hother (q : Char) (hq : q ≠ '-' ∧ q.isDigit = false) : c ≠ q := by
    rintro rfl
    rcases hc with rfl | hc
    · exact hq.1 rfl
    · rw [hq.2] at hc
      cases hc
  rw [hcs, List.cons_append] at hnumber ⊢
  rw [valueWith, skipSpace_cons hspace]
  simp only [if_neg (hother '"' (by decide)), if_neg (hother '[' (by decide)),
    if_neg (hother '\x7b' (by decide)), if_neg (hother 'n' (by decide)),
    if_neg (hother 't' (by decide)), if_neg (hother 'f' (by decide)), hnumber, Option.map_some]
  rw [← hcs, String.ofList_toList]

theorem valueWith_str (e : Escaping) (nested : Option (List Char → Option (Json × List Char)))
    (s : String) (rest : List Char) :
    valueWith nested (quote e s ++ rest) = some (str s, rest) := by
  have htext := text_quote e s rest
  rw [quote, List.cons_append, List.tail_cons] at htext
  rw [quote, List.cons_append, List.cons_append, valueWith, skipSpace_cons (by decide)]
  simp only [if_true]
  rw [htext, Option.map_some]

/-- The values that hold no others. -/
theorem valueWith_print (e : Escaping) (nested : Option (List Char → Option (Json × List Char)))
    {j : Json} (hj : Fits 0 j) {rest : List Char} (hrest : Delimited rest) :
    valueWith nested (print e j ++ rest) = some (j, rest) := by
  cases j with
  | null => rfl
  | bool b => cases b <;> rfl
  | num literal => exact valueWith_num nested hj hrest
  | str text => exact valueWith_str e nested text rest
  | arr elems => exact hj.elim
  | obj members => exact hj.elim

theorem member_printMember (e : Escaping) {value : List Char → Option (Json × List Char)}
    {m : String × Json} {rest : List Char} (h : value (print e m.2 ++ rest) = some (m.2, rest)) :
    member value (printMember e m ++ rest) = some (m, rest) := by
  have htext := text_quote e m.1 (':' :: print e m.2 ++ rest)
  rw [quote, List.cons_append, List.tail_cons] at htext
  rw [printMember, quote, List.cons_append, List.cons_append, List.cons_append, member,
    skipSpace_cons (by decide)]
  simp only [if_true]
  rw [List.append_assoc, htext, List.cons_append]
  simp only [skipSpace_cons (show isSpace ':' = false by decide), if_true, h, Option.map_some]

/-- A value that was written is read back, whatever follows it that cannot continue it. -/
theorem value_print (e : Escaping) {depth : Nat} {j : Json} (hj : Fits depth j)
    {rest : List Char} (hrest : Delimited rest) :
    value depth (print e j ++ rest) = some (j, rest) := by
  induction depth generalizing j rest with
  | zero => exact valueWith_print e none hj hrest
  | succ depth ih =>
    rw [value]
    cases j with
    | null => exact valueWith_print e _ (j := null) trivial hrest
    | bool b => exact valueWith_print e _ (j := bool b) trivial hrest
    | num literal => exact valueWith_print e _ (j := num literal) hj hrest
    | str text => exact valueWith_print e _ (j := str text) trivial hrest
    | arr elems =>
      have hlist := list_intercalate (.inl rfl) (print e) elems rest
        (fun a ha => by
          obtain ⟨c, cs, hc, hspace, hne, _⟩ := exists_head_print e (hj a ha)
          exact ⟨c, cs, hc, hspace, hne⟩)
        fun a ha cs hcs => ih (hj a ha) hcs
      rw [print, printElems_eq_map, List.cons_append, List.cons_append, List.append_assoc,
        valueWith, skipSpace_cons (by decide), List.cons_append, List.nil_append]
      simp [hlist]
    | obj members =>
      have hlist := list_intercalate (.inr rfl) (printMember e) members rest
        (fun m _ => ⟨'"', _, by rw [printMember, quote, List.cons_append, List.cons_append],
          by decide⟩)
        fun m hm cs hcs => member_printMember e (ih (hj m hm) hcs)
      rw [print, printMembers_eq_map, List.cons_append, List.cons_append, List.append_assoc,
        valueWith, skipSpace_cons (by decide), List.cons_append, List.nil_append]
      simp [hlist]

theorem parse_print (e : Escaping) {depth : Nat} {j : Json} (h : Fits depth j) :
    parse depth (print e j) = some j := by
  have hvalue := value_print e h delimited_nil
  rw [List.append_nil] at hvalue
  rw [parse, hvalue]
  rfl

end Json
end Code2Cloud
