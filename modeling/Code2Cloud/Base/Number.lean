import Code2Cloud.Base.Json
import Code2Cloud.Base.Rounding

/-!
# Numbers of JavaScript

The number that `Number` makes of a text, as `JSON.stringify` writes it.
-/

namespace Code2Cloud

/-- A number as JSON has it: its literal, and none where `null` is written. -/
abbrev Number := Option {literal : String // Json.IsNumber literal}

namespace Number

def json : Number → Json
  | some literal => .num literal.val
  | none => .null

def text : Number → String
  | some literal => literal.val
  | none => "null"

/-! ## Literals -/

/-- The literal with these digits before the point, behind it and in the exponent. -/
def literal (negative : Bool) (i f x : List Char) : List Char :=
  (if negative then ['-'] else []) ++ i ++ (if f = [] then [] else '.' :: f) ++
    (if x = [] then [] else 'e' :: x)

def IsDigits (ds : List Char) : Prop := ds ≠ [] ∧ ∀ c ∈ ds, c.isDigit = true

theorem digits_append {ds rest : List Char} (hds : IsDigits ds)
    (hrest : ∀ c ∈ rest.head?, c.isDigit = false) : Json.digits (ds ++ rest) = some (ds, rest) := by
  have hhead : rest.takeWhile Char.isDigit = [] := by
    cases rest with
    | nil => rfl
    | cons c rest =>
      rw [List.takeWhile_cons_of_neg]
      rw [hrest c rfl]
      exact Bool.false_ne_true
  have htail : rest.dropWhile Char.isDigit = rest := by
    have hsplit := List.takeWhile_append_dropWhile (p := Char.isDigit) (l := rest)
    rwa [hhead, List.nil_append] at hsplit
  have htake : (ds ++ rest).takeWhile Char.isDigit = ds := by
    rw [List.takeWhile_append_of_pos hds.2, hhead, List.append_nil]
  have hdrop : (ds ++ rest).dropWhile Char.isDigit = rest := by
    rw [List.dropWhile_append_of_pos hds.2, htail]
  have hne : ds.isEmpty = false := List.isEmpty_eq_false_iff.mpr hds.1
  rw [Json.digits, htake, hdrop, hne]
  rfl

/-- The point and the exponent stop the digits before them. -/
theorem head_tail {f x : List Char} :
    ∀ c ∈ ((if f = [] then [] else '.' :: f) ++ if x = [] then [] else 'e' :: x).head?,
      c = '.' ∨ c = 'e' := by
  intro c hc
  by_cases hf : f = []
  · rw [if_pos hf, List.nil_append] at hc
    split at hc
    · cases hc
    · exact Or.inr (Option.some.inj hc).symm
  · rw [if_neg hf] at hc
    exact Or.inl (Option.some.inj hc).symm

theorem sign_literal {negative : Bool} {i rest : List Char} (hi : i = ['0'] ∨ IsDigits i) :
    Json.sign ((if negative then ['-'] else []) ++ (i ++ rest)) =
      (if negative then ['-'] else [], i ++ rest) := by
  have hhead : (i ++ rest).head? ≠ some '-' := by
    rcases hi with rfl | hdigits
    · intro h
      cases h
    · rw [List.head?_append_of_ne_nil _ hdigits.1]
      intro h
      exact absurd (hdigits.2 '-' (List.mem_of_mem_head? h)) (by decide)
  rw [Json.sign]
  cases negative with
  | true => rfl
  | false => exact if_neg hhead

theorem integerPart_append {i rest : List Char}
    (hi : i = ['0'] ∨ IsDigits i ∧ i.head? ≠ some '0')
    (hrest : ∀ c ∈ rest.head?, c.isDigit = false) :
    Json.integerPart (i ++ rest) = some (i, rest) := by
  rcases hi with rfl | ⟨hdigits, hzero⟩
  · rfl
  · rw [Json.integerPart, List.head?_append_of_ne_nil _ hdigits.1, if_neg hzero]
    exact digits_append hdigits hrest

theorem fraction_append {f power : List Char} (hf : ∀ c ∈ f, c.isDigit = true)
    (hpower : ∀ c ∈ power.head?, c = 'e') :
    Json.fraction ((if f = [] then [] else '.' :: f) ++ power) =
      some (if f = [] then [] else '.' :: f, power) := by
  by_cases hnil : f = []
  · have hnot : power.head? ≠ some '.' := by
      intro h
      exact absurd (hpower '.' h) (by decide)
    rw [if_pos hnil, List.nil_append, Json.fraction, if_neg hnot]
  · have hdigits : Json.digits (f ++ power) = some (f, power) := by
      refine digits_append ⟨hnil, hf⟩ fun c hc => ?_
      rw [hpower c hc]
      rfl
    rw [if_neg hnil, Json.fraction, List.cons_append, List.head?_cons, if_pos rfl,
      List.tail_cons, hdigits]
    rfl

theorem exponent_literal {x : List Char}
    (hx : x = [] ∨ ∃ c ds, x = c :: ds ∧ (c = '+' ∨ c = '-') ∧ IsDigits ds) :
    Json.exponent (if x = [] then [] else 'e' :: x) =
      some (if x = [] then [] else 'e' :: x, []) := by
  rcases hx with rfl | ⟨c, ds, rfl, hc, hdigits⟩
  · rfl
  · have hds : Json.digits (ds ++ []) = some (ds, []) :=
      digits_append hdigits (by intro c hc; cases hc)
    rw [List.append_nil] at hds
    have hhead : (c :: ds).head? = some '+' ∨ (c :: ds).head? = some '-' := by
      rcases hc with rfl | rfl
      · exact Or.inl rfl
      · exact Or.inr rfl
    change Json.exponent ('e' :: c :: ds) = some ('e' :: c :: ds, [])
    rw [Json.exponent, if_pos (Or.inl rfl), if_pos hhead, List.tail_cons, hds]
    rfl

theorem number_literal {negative : Bool} {i f x : List Char}
    (hi : i = ['0'] ∨ IsDigits i ∧ i.head? ≠ some '0') (hf : ∀ c ∈ f, c.isDigit = true)
    (hx : x = [] ∨ ∃ c ds, x = c :: ds ∧ (c = '+' ∨ c = '-') ∧ IsDigits ds) :
    Json.number (literal negative i f x) = some (literal negative i f x, []) := by
  let point := if f = [] then [] else '.' :: f
  let power := if x = [] then [] else 'e' :: x
  have hstop : ∀ c ∈ (point ++ power).head?, c.isDigit = false := by
    intro c hc
    rcases head_tail c hc with rfl | rfl <;> rfl
  have hpower : ∀ c ∈ power.head?, c = 'e' := by
    intro c hc
    by_cases hnil : x = []
    · simp [power, hnil] at hc
    · simpa [power, hnil, eq_comm] using hc
  have hsign : Json.sign (literal negative i f x) =
      (if negative then ['-'] else [], i ++ (point ++ power)) := by
    rw [literal, List.append_assoc, List.append_assoc]
    exact sign_literal (hi.imp_right And.left)
  have hinteger : Json.integerPart (i ++ (point ++ power)) = some (i, point ++ power) :=
    integerPart_append hi hstop
  have hfraction : Json.fraction (point ++ power) = some (point, power) :=
    fraction_append hf hpower
  have hexponent : Json.exponent power = some (power, []) := exponent_literal hx
  rw [Json.number, hsign]
  simp only [hinteger, hfraction, hexponent, Option.map_some]
  rw [literal, List.append_assoc, List.append_assoc]

theorem isDigits_toDigits (n : Nat) : IsDigits (Nat.toDigits 10 n) :=
  ⟨Nat.toDigits_ne_nil, fun _ hc => Nat.isDigit_of_mem_toDigits (by decide) (by decide) hc⟩

/-! ## Doubles -/

/-- The double next to a number that is not negative; none where it is infinite. -/
def double (q : ℚ) : Option ℚ :=
  let x : ℚ :=
    -- below the normal numbers the last digit stays where it is
    if Int.log 2 q < -1022 then Rounding.halfEven (q / 2 ^ (-1074 : ℤ)) * 2 ^ (-1074 : ℤ)
    else Rounding.roundTo 53 q
  if x < 2 ^ 1024 then some x else none

/-! ## Writing -/

/-- The two decimals of `k` digits around a number below `10 ^ n`, the nearer one first. -/
def decimalsAround (x : ℚ) (n : ℤ) (k : ℕ) : List (ℕ × ℤ) :=
  let scaled := x / 10 ^ (n - k)
  let below := (⌊scaled⌋.toNat, n)
  let above :=
    if ⌊scaled⌋.toNat + 1 = 10 ^ k then (10 ^ (k - 1), n + 1) else (⌊scaled⌋.toNat + 1, n)
  if Int.fract scaled ≤ 1 / 2 then [below, above] else [above, below]

/-- The decimal with the fewest digits that is read as the double: its digits as a number, and how
many of them stand before the point.  Seventeen digits are enough for every double. -/
def shortest (x : ℚ) : Option (ℕ × ℤ) :=
  ((List.range 17).flatMap fun i =>
    (decimalsAround x (Int.log 10 x + 1) (i + 1)).filter fun d =>
      decide (double (d.1 * 10 ^ (d.2 - (i + 1 : ℤ))) = some x)).find? fun d => 0 < d.1

/-- The digits before the point, behind it and in the exponent. -/
def parts (ds : List Char) (n : ℤ) : List Char × List Char × List Char :=
  if ds.length ≤ n ∧ n ≤ 21 then (ds ++ List.replicate (n - ds.length).toNat '0', [], [])
  else if 0 < n ∧ n ≤ 21 then (ds.take n.toNat, ds.drop n.toNat, [])
  else if -6 < n ∧ n ≤ 0 then (['0'], List.replicate (-n).toNat '0' ++ ds, [])
  else (ds.take 1, ds.drop 1, (if 0 < n then '+' else '-') :: Nat.toDigits 10 (n - 1).natAbs)

theorem number_parts (negative : Bool) {ds : List Char} (hds : IsDigits ds)
    (hzero : ds.head? ≠ some '0') (n : ℤ) :
    Json.IsNumber (String.ofList
      (literal negative (parts ds n).1 (parts ds n).2.1 (parts ds n).2.2)) := by
  rw [Json.IsNumber, String.toList_ofList]
  have htake {m : ℕ} (hm : 0 < m) : IsDigits (ds.take m) ∧ (ds.take m).head? ≠ some '0' := by
    obtain ⟨c, ds', rfl⟩ := List.exists_cons_of_ne_nil hds.1
    obtain ⟨m, rfl⟩ := Nat.exists_eq_succ_of_ne_zero hm.ne'
    exact ⟨⟨List.cons_ne_nil _ _, fun d hd => hds.2 d (List.mem_of_mem_take hd)⟩, hzero⟩
  have hdrop {m : ℕ} : ∀ c ∈ ds.drop m, c.isDigit = true :=
    fun c hc => hds.2 c (List.mem_of_mem_drop hc)
  have hpad {m : ℕ} : ∀ c ∈ List.replicate m '0', c.isDigit = true := by
    intro c hc
    rw [List.eq_of_mem_replicate hc]
    rfl
  rw [parts]
  split
  · refine number_literal (Or.inr ⟨⟨?_, ?_⟩, ?_⟩) (by simp) (Or.inl rfl)
    · exact List.append_ne_nil_of_left_ne_nil hds.1 _
    · exact fun c hc => (List.mem_append.mp hc).elim (hds.2 c) (hpad c)
    · rw [List.head?_append_of_ne_nil _ hds.1]
      exact hzero
  · split
    · rename_i hn
      exact number_literal (Or.inr (htake (by omega))) hdrop (Or.inl rfl)
    · split
      · refine number_literal (Or.inl rfl) ?_ (Or.inl rfl)
        exact fun c hc => (List.mem_append.mp hc).elim (hpad c) (hds.2 c)
      · refine number_literal (Or.inr (htake Nat.one_pos)) hdrop (Or.inr ⟨_, _, rfl, ?_, ?_⟩)
        · split
          · exact Or.inl rfl
          · exact Or.inr rfl
        · exact isDigits_toDigits _

/-- `Number::toString`, for a positive decimal. -/
def ofDecimal (negative : Bool) (s : ℕ) (n : ℤ) (h : 0 < s) : Number :=
  let ps := parts (Nat.toDigits 10 s) n
  some ⟨String.ofList (literal negative ps.1 ps.2.1 ps.2.2),
    number_parts negative (isDigits_toDigits s) (Json.head_toDigits h) n⟩

def ofNat (n : ℕ) : Number := some ⟨toString n, Json.isNumber_toString n⟩

@[simp]
theorem text_ofNat (n : ℕ) : (ofNat n).text = toString n := rfl

instance (n : ℕ) : OfNat Number n := ⟨ofNat n⟩

/-- The double next to a number, as it is written: `-0` as `0`, and what is not finite as `null`. -/
def ofRat (negative : Bool) (q : ℚ) : Number :=
  match double q with
  | none => none
  | some x =>
    if x = 0 then ofNat 0
    else
      match h : shortest x with
      | none => none
      | some d => ofDecimal negative d.1 d.2 (by simpa using List.find?_some h)

/-! ## Reading -/

def valueOfDigits (base : ℕ) (cs : List Char) : Option ℕ :=
  if cs.isEmpty then none
  else cs.foldl (fun n c => n.bind fun n =>
    ((Hex.value c).filter (· < base)).map fun d => base * n + d) (some 0)

/-- A decimal without its sign: digits with a point anywhere among them, and an exponent. -/
def decimal (cs : List Char) : Option ℚ :=
  let i := cs.takeWhile Char.isDigit
  let rest := cs.dropWhile Char.isDigit
  let (f, rest) := if rest.head? = some '.' then
    (rest.tail.takeWhile Char.isDigit, rest.tail.dropWhile Char.isDigit) else ([], rest)
  if (i ++ f).isEmpty then none
  else
    let mantissa : ℚ := Nat.ofDigitChars 10 (i ++ f) 0 / 10 ^ f.length
    match rest with
    | [] => some mantissa
    | c :: rest =>
      if c = 'e' ∨ c = 'E' then
        let negative := rest.head? = some '-'
        let ds := if negative ∨ rest.head? = some '+' then rest.tail else rest
        (valueOfDigits 10 ds).map fun n =>
          mantissa * 10 ^ (if negative then -(n : ℤ) else n)
      else none

/-- A number with its sign, or in the digits of another base, which have none. -/
def ofNumeral (cs : List Char) : Number :=
  match cs with
  | '0' :: x :: ds =>
    if x = 'x' ∨ x = 'X' then (valueOfDigits 16 ds).bind fun n => ofRat false n
    else if x = 'o' ∨ x = 'O' then (valueOfDigits 8 ds).bind fun n => ofRat false n
    else if x = 'b' ∨ x = 'B' then (valueOfDigits 2 ds).bind fun n => ofRat false n
    else (decimal cs).bind (ofRat false)
  | '-' :: cs => (decimal cs).bind (ofRat true)
  | '+' :: cs => (decimal cs).bind (ofRat false)
  | cs => (decimal cs).bind (ofRat false)

/-- `Number(text)`, for a text without white space at its ends; what is no number is `null`. -/
def ofTrimmed (cs : List Char) : Number :=
  -- every natural number up to here is a double and is written in its digits
  if cs.all Char.isDigit ∧ Nat.ofDigitChars 10 cs 0 ≤ 2 ^ 53 then ofNat (Nat.ofDigitChars 10 cs 0)
  else ofNumeral cs

theorem fits_json (x : Number) (depth : ℕ) : Json.Fits depth x.json := by
  cases x with
  | none => cases depth <;> trivial
  | some literal => cases depth <;> exact literal.property

end Number
end Code2Cloud
