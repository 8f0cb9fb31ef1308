import Code2Cloud.Api.Settings
import Code2Cloud.Base.Regex
import Code2Cloud.Base.Trim

/-!
# Importing an `.env` file

The two functions `importEnvFile`, of the panel with a project's variables and of the dialog for a
new project, as far as they read a file.
-/

namespace Code2Cloud
namespace Web

open Api.SettingsService (isTrimmed)

namespace EnvFile

/-- What both read off a line. -/
structure Pair where
  key : String
  value : String
  deriving DecidableEq

/-- `text.split("\n")` -/
def lines (text : String) : List (List Char) := text.toList.splitOn '\n'

/-- `[\w.-]` -/
def isKeyChar (c : Char) : Bool :=
  ('a' ≤ c && c ≤ 'z') || ('A' ≤ c && c ≤ 'Z') || ('0' ≤ c && c ≤ '9') || ['_', '.', '-'].contains c

/-- `.`, which matches no line terminator. -/
def isDot (c : Char) : Bool := !([0x0a, 0x0d, 0x2028, 0x2029].contains c.toNat)

/-- `['"]` -/
def isQuote (c : Char) : Bool := c == '\'' || c == '"'

end EnvFile

open EnvFile

/-! ## The panel -/

namespace EnvVarsPanel

open Regex

/-- `\s*(.*)?\s*$` -/
def envValue : Regex Char :=
  seq (many isTrimmed) (seq (opt (group 2 (many isDot))) (seq (many isTrimmed) finish))

/-- `\s*=\s*(.*)?\s*$` -/
def envBinding : Regex Char := seq (many isTrimmed) (seq (one (· == '=')) envValue)

/-- `/^\s*([\w.-]+)\s*=\s*(.*)?\s*$/` -/
def envLine : Regex Char :=
  seq start (seq (many isTrimmed) (seq (group 1 (many1 isKeyChar)) envBinding))

/-- `/^['"]|['"]$/` -/
def quote : Regex Char := alt (seq start (one isQuote)) (seq (one isQuote) finish)

def parseEnvLine (line : List Char) : Option Pair :=
  (search envLine line).map fun found =>
    let value := (captured found 2).getD []
    { key := String.ofList (trim isTrimmed ((captured found 1).getD []))
      value := String.ofList (trim isTrimmed (remove quote value)) }

/-- `parsed` of `importEnvFile` -/
def parsed (text : String) : List Pair := (lines text).filterMap parseEnvLine

end EnvVarsPanel

/-! ## The dialog -/

namespace NewProjectDialog

/-- What the reduction appends for a line. -/
def parseLine (line : List Char) : Option Pair :=
  let trimmed := trim isTrimmed line
  if trimmed ≠ [] ∧ trimmed.head? ≠ some '#' ∧ '=' ∈ trimmed then
    match trimmed.splitOn '=' with
    | key :: rest =>
      some { key := String.ofList key, value := String.ofList (['='].intercalate rest) }
    | [] => none
  else none

/-- `parsed` of `importEnvFile` -/
def parsed (text : String) : List Pair := (lines text).filterMap parseLine

end NewProjectDialog

/-! ## The classes of characters -/

namespace EnvFile

theorem toNat_of_isKeyChar {c : Char} (h : isKeyChar c = true) :
    (0x30 ≤ c.toNat ∧ c.toNat ≤ 0x39) ∨ (0x41 ≤ c.toNat ∧ c.toNat ≤ 0x5a) ∨
      (0x61 ≤ c.toNat ∧ c.toNat ≤ 0x7a) ∨ c.toNat ∈ [0x5f, 0x2e, 0x2d] := by
  simp only [isKeyChar, Bool.or_eq_true, Bool.and_eq_true, decide_eq_true_eq,
    List.contains_iff_mem] at h
  rcases h with ((h | h) | h) | h
  · exact Or.inr (Or.inr (Or.inl h))
  · exact Or.inr (Or.inl h)
  · exact Or.inl h
  · simp only [List.mem_cons, List.not_mem_nil, or_false] at h
    rcases h with rfl | rfl | rfl <;> decide

theorem isTrimmed_of_isKeyChar {c : Char} (h : isKeyChar c = true) : isTrimmed c = false := by
  have hrange := toNat_of_isKeyChar h
  simp only [List.mem_cons, List.not_mem_nil, or_false] at hrange
  rw [← Bool.not_eq_true]
  intro htrimmed
  simp only [isTrimmed, Bool.or_eq_true, Bool.and_eq_true, decide_eq_true_eq,
    List.contains_iff_mem, List.mem_cons, List.not_mem_nil, or_false] at htrimmed
  omega

theorem ne_of_isKeyChar {c : Char} (h : isKeyChar c = true) : c ≠ '=' ∧ c ≠ '#' := by
  constructor <;>
  · rintro rfl
    exact absurd h (by decide)

end EnvFile

/-! ## What the regular expressions do -/

namespace EnvVarsPanel

open Regex Trim

/-- The value of a line, from what stands behind the `=` and its blanks. -/
def scanValue (s : List Char) : Option (List Char) :=
  if (s.dropWhile isDot).all isTrimmed then some (s.takeWhile isDot) else none

/-- What stands behind the key, after its blanks. -/
def scanBinding : List Char → Option (List Char)
  | [] => none
  | c :: rest => if c == '=' then scanValue (rest.dropWhile isTrimmed) else none

def capturesOf (value : List Char) (cs : Captures Char) : Captures Char :=
  if value = [] then cs else (2, value) :: cs

theorem dropWhile_append_suffix (p : Char → Bool) (w s : List Char) :
    s.dropWhile p <:+ (w ++ s).dropWhile p := by
  rw [List.dropWhile_append]
  split
  · exact List.suffix_refl _
  · exact (List.dropWhile_suffix p).trans (List.suffix_append _ _)

/-- Blanks that are left to the value do not help to match it. -/
theorem scanValue_append_eq_none {w s : List Char} (h : scanValue s = none) :
    scanValue (w ++ s) = none := by
  rw [scanValue, ite_eq_right_iff] at h ⊢
  intro hall
  refine absurd (h (List.all_eq_true.mpr fun c hc => ?_)) (Option.some_ne_none _)
  exact List.all_eq_true.mp hall c ((dropWhile_append_suffix isDot w s).subset hc)

theorem run_value (x : Place Char) (cs : Captures Char) :
    (seq (opt (group 2 (many isDot))) (seq (many isTrimmed) finish)).run
        (fun _ ds => some ds) x cs =
      (scanValue x.rest).map fun value => capturesOf value cs := by
  have hend : (seq (many isTrimmed) finish).run (fun _ ds => some ds) =
      fun (y : Place Char) ds => if y.rest.all isTrimmed then some ds else none := by
    funext y ds
    exact run_many_finish ds some y
  have hsplit : x.rest.takeWhile isDot ++ x.rest.dropWhile isDot = x.rest :=
    List.takeWhile_append_dropWhile
  have hlength := congrArg List.length hsplit
  rw [List.length_append] at hlength
  rw [run, hend, run, run, run, runMany_eq, take_length_sub_dropWhile, scanValue]
  · dsimp only
    by_cases hall : (x.rest.dropWhile isDot).all isTrimmed = true
    · rw [if_pos hall, if_pos hall]
      by_cases hnil : x.rest.takeWhile isDot = []
      · rw [hnil, List.nil_append] at hsplit
        rw [hsplit] at hall
        rw [if_pos (by rw [hsplit]), if_pos hall, hnil]
        rfl
      · have hpos := List.length_pos_iff.mpr hnil
        rw [if_neg (by omega), Option.map_some, capturesOf, if_neg hnil]
        rfl
    · have hrest : ¬x.rest.all isTrimmed = true := fun h => hall (List.all_eq_true.mpr fun c hc =>
        List.all_eq_true.mp h c ((List.dropWhile_suffix isDot).subset hc))
      rw [if_neg hall, if_neg hall, if_neg hrest, ite_self]
      rfl
  · -- a shorter value leaves more of the text behind it
    intro hnone first' a c t hrest ha hc
    dsimp only at hnone ⊢
    have hdrop : x.rest.dropWhile isDot <:+ c :: t := by
      rw [← hrest, dropWhile_append_of_all ha]
      exact List.dropWhile_suffix isDot
    have hne : (x.rest.dropWhile isDot).length ≠ x.rest.length := by
      have hlt : (x.rest.dropWhile isDot).length ≤ t.length := by
        rw [← hrest, dropWhile_append_of_all ha, List.dropWhile_cons_of_pos hc]
        exact (List.dropWhile_suffix isDot).length_le
      have hlength := congrArg List.length hrest
      rw [List.length_append, List.length_cons] at hlength
      omega
    rw [if_neg hne] at hnone
    have hall : ¬(c :: t).all isTrimmed = true := fun h => by
      rw [if_pos (List.all_eq_true.mpr fun d hd => List.all_eq_true.mp h d (hdrop.subset hd))]
        at hnone
      cases hnone
    rw [if_neg hall, ite_self]

theorem run_envValue (x : Place Char) (cs : Captures Char) :
    envValue.run (fun _ ds => some ds) x cs =
      (scanValue (x.rest.dropWhile isTrimmed)).map fun value => capturesOf value cs := by
  have hrest : (fun y : Place Char => (seq (opt (group 2 (many isDot)))
      (seq (many isTrimmed) finish)).run (fun _ ds => some ds) y cs) =
      fun y => (scanValue y.rest).map fun value => capturesOf value cs :=
    funext fun y => run_value y cs
  rw [envValue, run, run, hrest, runMany_eq]
  intro hnone _ a c t hx ha _
  rw [Option.map_eq_none_iff] at hnone ⊢
  have hcut : (c :: t).takeWhile isTrimmed ++ x.rest.dropWhile isTrimmed = c :: t := by
    rw [← hx, dropWhile_append_of_all ha, List.takeWhile_append_dropWhile]
  dsimp only
  rw [← hcut]
  exact scanValue_append_eq_none hnone

theorem run_envBinding (x : Place Char) (cs : Captures Char) :
    envBinding.run (fun _ ds => some ds) x cs =
      (scanBinding (x.rest.dropWhile isTrimmed)).map fun value => capturesOf value cs := by
  have hequals (y : Place Char) : (seq (one (· == '=')) envValue).run (fun _ ds => some ds) y cs =
      (scanBinding y.rest).map fun value => capturesOf value cs := by
    rw [run, run]
    cases y.rest with
    | nil => rfl
    | cons c rest =>
      dsimp only
      rw [scanBinding]
      split
      · exact run_envValue ⟨false, rest⟩ cs
      · rfl
  rw [envBinding, run, run, funext hequals, runMany_of_fails]
  intro _ c t hc
  have hne : ¬(c == '=') = true := fun heq => by
    rw [beq_iff_eq.mp heq] at hc
    exact absurd hc (by decide)
  rw [scanBinding, if_neg hne]
  rfl

/-- The key and the value of a line as they are captured. -/
def scanLine (line : List Char) : Option (List Char × List Char) :=
  let s := line.dropWhile isTrimmed
  if s.takeWhile isKeyChar = [] then none
  else
    (scanBinding ((s.dropWhile isKeyChar).dropWhile isTrimmed)).map fun value =>
      (s.takeWhile isKeyChar, value)

theorem run_key (x : Place Char) :
    (seq (group 1 (many1 isKeyChar)) envBinding).run (fun _ ds => some ds) x [] =
      if x.rest.takeWhile isKeyChar = [] then none
      else
        (scanBinding ((x.rest.dropWhile isKeyChar).dropWhile isTrimmed)).map fun value =>
          capturesOf value [(1, x.rest.takeWhile isKeyChar)] := by
  rw [run, run, many1, run, run]
  cases hrest : x.rest with
  | nil => rfl
  | cons c s =>
    dsimp only
    by_cases hc : isKeyChar c = true
    · have htake := take_length_sub_dropWhile isKeyChar (c :: s)
      rw [List.takeWhile_cons_of_pos hc, List.dropWhile_cons_of_pos hc] at htake
      rw [if_pos hc, List.takeWhile_cons_of_pos hc, List.dropWhile_cons_of_pos hc,
        if_neg (List.cons_ne_nil _ _), run, runMany_of_fails]
      · rw [run_envBinding, htake]
      · intro _ d t hd
        have hblank : ¬isTrimmed d = true := by
          rw [isTrimmed_of_isKeyChar hd]
          exact Bool.false_ne_true
        have hequals : ¬(d == '=') = true := fun heq =>
          (ne_of_isKeyChar hd).1 (beq_iff_eq.mp heq)
        rw [run_envBinding, List.dropWhile_cons_of_neg hblank, scanBinding, if_neg hequals]
        rfl
    · rw [if_neg hc, List.takeWhile_cons_of_neg hc, if_pos rfl]

theorem search_envLine (line : List Char) :
    search envLine line =
      (scanLine line).map fun found => capturesOf found.2 [(1, found.1)] := by
  rw [envLine, search_start, run, run, runMany_of_fails]
  · rw [run_key, scanLine]
    dsimp only
    split
    · rfl
    · rw [Option.map_map]
      rfl
  · intro _ c t hc
    have hkey : ¬isKeyChar c = true := fun h => by
      rw [isTrimmed_of_isKeyChar h] at hc
      cases hc
    rw [run_key, List.takeWhile_cons_of_neg hkey, if_pos rfl]

/-- A line that is accepted has a key, a `=` with blanks at most before it, and a value. -/
theorem exists_of_scanLine {line : List Char} {found : List Char × List Char}
    (h : scanLine line = some found) :
    found.1 ≠ [] ∧ (∀ c ∈ found.1, isKeyChar c = true) ∧
      ∃ w rest, w.all isTrimmed = true ∧
        line.dropWhile isTrimmed = found.1 ++ (w ++ '=' :: rest) ∧
        scanValue (rest.dropWhile isTrimmed) = some found.2 := by
  rw [scanLine] at h
  split at h
  · cases h
  · next hne =>
    obtain ⟨value, hvalue, rfl⟩ := Option.map_eq_some_iff.mp h
    refine ⟨hne, fun _ hc => List.mem_takeWhile_imp hc,
      ((line.dropWhile isTrimmed).dropWhile isKeyChar).takeWhile isTrimmed, ?_⟩
    cases hrest : ((line.dropWhile isTrimmed).dropWhile isKeyChar).dropWhile isTrimmed with
    | nil =>
      rw [hrest] at hvalue
      cases hvalue
    | cons c rest =>
      rw [hrest, scanBinding] at hvalue
      split at hvalue
      · next hc =>
        refine ⟨rest, List.all_takeWhile, ?_, hvalue⟩
        dsimp only
        rw [← beq_iff_eq.mp hc, ← hrest, List.takeWhile_append_dropWhile,
          List.takeWhile_append_dropWhile]
      · cases hvalue

theorem scanLine_eq {line key w rest : List Char} (hne : key ≠ [])
    (hkey : ∀ c ∈ key, isKeyChar c = true) (hw : w.all isTrimmed = true)
    (hline : line.dropWhile isTrimmed = key ++ (w ++ '=' :: rest)) :
    scanLine line = (scanValue (rest.dropWhile isTrimmed)).map fun value => (key, value) := by
  have hequals : ¬isKeyChar '=' = true := by decide
  have hblank : ¬isTrimmed '=' = true := by decide
  have hbinding : scanBinding ('=' :: rest) = scanValue (rest.dropWhile isTrimmed) := rfl
  -- the key ends where the blanks or the `=` begin
  have hstop : (w ++ '=' :: rest).takeWhile isKeyChar = [] ∧
      (w ++ '=' :: rest).dropWhile isKeyChar = w ++ '=' :: rest := by
    cases w with
    | nil => exact ⟨List.takeWhile_cons_of_neg hequals, List.dropWhile_cons_of_neg hequals⟩
    | cons c w =>
      have hc : ¬isKeyChar c = true := fun h => by
        have hfirst := List.all_eq_true.mp hw c List.mem_cons_self
        rw [isTrimmed_of_isKeyChar h] at hfirst
        cases hfirst
      exact ⟨List.takeWhile_cons_of_neg hc, List.dropWhile_cons_of_neg hc⟩
  rw [scanLine, hline, List.takeWhile_append_of_pos hkey, List.dropWhile_append_of_pos hkey,
    hstop.1, hstop.2, List.append_nil, if_neg hne, dropWhile_append_of_all hw,
    List.dropWhile_cons_of_neg hblank, hbinding]

/-- What the panel makes of a captured value. -/
def readValue (value : List Char) : List Char := trim isTrimmed (remove quote value)

theorem parseEnvLine_eq (line : List Char) :
    parseEnvLine line = (scanLine line).map fun found =>
      { key := String.ofList found.1, value := String.ofList (readValue found.2) } := by
  rw [parseEnvLine, search_envLine, Option.map_map]
  refine Option.map_congr fun found hfound => ?_
  have hkey : ∀ c ∈ found.1, isTrimmed c = false := fun c hc =>
    isTrimmed_of_isKeyChar ((exists_of_scanLine hfound).2.1 c hc)
  have htrim : trim isTrimmed found.1 = found.1 := trim_of_trimmed
    ⟨fun c hc => hkey c (List.mem_of_head? hc), fun c hc => hkey c (List.mem_of_getLast? hc)⟩
  rw [Function.comp_apply, capturesOf]
  split
  · next hnil =>
    rw [hnil]
    exact congrArg (fun key => Pair.mk (String.ofList key) _) htrim
  · exact congrArg (fun key => Pair.mk (String.ofList key) _) htrim

end EnvVarsPanel
end Web
end Code2Cloud
