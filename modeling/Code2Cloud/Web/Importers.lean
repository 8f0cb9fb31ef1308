import Code2Cloud.Base.Table
import Code2Cloud.Web.EnvFile

/-!
# The two ways to read an `.env` file

The panel matches a line against a regular expression and takes quotes off the value.  The dialog
cuts the line at its first `=` and keeps what it finds.
-/

namespace Code2Cloud
namespace Web

open Api.SettingsService (isTrimmed)
open EnvFile Trim

/-! ## Taking quotes off -/

namespace EnvVarsPanel

open Regex

theorem isQuote_of_isTrimmed {c : Char} (h : isTrimmed c = true) : isQuote c = false := by
  rw [← Bool.not_eq_true]
  intro hquote
  rw [isQuote, Bool.or_eq_true, beq_iff_eq, beq_iff_eq] at hquote
  rcases hquote with rfl | rfl <;> exact absurd h (by decide)

theorem run_quote (k : Place Char → Captures Char → Option Nat) (first : Bool) (c : Char)
    (s : List Char) :
    quote.run k ⟨first, c :: s⟩ [] =
      if isQuote c = true ∧ (first = true ∨ s = []) then k ⟨false, s⟩ [] else none := by
  by_cases hc : isQuote c = true
  · cases first with
    | true => cases s <;> simp [quote, run, hc]
    | false => cases s <;> simp [quote, run, hc]
  · simp [quote, run, hc]

theorem removeFrom_quote_cons (first : Bool) (c : Char) (s : List Char) :
    removeFrom quote 0 first (c :: s) =
      if isQuote c = true ∧ (first = true ∨ s = []) then removeFrom quote 0 false s
      else c :: removeFrom quote 0 false s := by
  have hone : (c :: s).length - s.length = 1 := by rw [List.length_cons, Nat.add_sub_cancel_left]
  rw [removeFrom, run_quote, hone]
  by_cases hc : isQuote c = true ∧ (first = true ∨ s = [])
  · rw [if_pos hc, if_pos hc]
  · rw [if_neg hc, if_neg hc]

theorem removeFrom_quote_of_plain {first : Bool} {s : List Char}
    (hhead : first = true → ∀ c ∈ s.head?, isQuote c = false)
    (hlast : ∀ c ∈ s.getLast?, isQuote c = false) : removeFrom quote 0 first s = s := by
  induction s generalizing first with
  | nil => rfl
  | cons c s ih =>
    have hkept : ¬(isQuote c = true ∧ (first = true ∨ s = [])) := by
      rintro ⟨hc, hfirst | rfl⟩
      · rw [hhead hfirst c rfl] at hc
        cases hc
      · rw [hlast c rfl] at hc
        cases hc
    rw [removeFrom_quote_cons, if_neg hkept, ih (fun h => absurd h Bool.false_ne_true)]
    intro d hd
    refine hlast d ?_
    cases s with
    | nil => exact absurd hd (Option.not_mem_none d)
    | cons e s => rwa [List.getLast?_cons_cons]

theorem length_removeFrom_quote_lt {first : Bool} {s : List Char} {q : Char}
    (hlast : q ∈ s.getLast?) (hq : isQuote q = true) :
    (removeFrom quote 0 first s).length < s.length := by
  induction s generalizing first with
  | nil => exact absurd hlast (Option.not_mem_none q)
  | cons c s ih =>
    rw [removeFrom_quote_cons]
    split
    · exact Nat.lt_succ_of_le (length_removeFrom_le quote 0 false s)
    · next hkept =>
      cases s with
      | nil =>
        cases hlast
        exact absurd ⟨hq, Or.inr rfl⟩ hkept
      | cons d s =>
        rw [List.getLast?_cons_cons] at hlast
        exact Nat.succ_lt_succ (ih hlast)

theorem length_readValue_le (s : List Char) : (readValue s).length ≤ s.length :=
  (length_trim_le _).trans (length_removeFrom_le quote 0 true s)

theorem length_readValue_lt_of_last {s : List Char} {q : Char} (hlast : q ∈ s.getLast?)
    (hq : isQuote q = true) : (readValue s).length < s.length :=
  (length_trim_le _).trans_lt (length_removeFrom_quote_lt hlast hq)

/-- The last character of a text with blanks behind it. -/
theorem isQuote_getLast_append {v w : List Char} (hw : w.all isTrimmed = true)
    (hlast : w = [] → ∀ c ∈ v.getLast?, isQuote c = false) :
    ∀ c ∈ (v ++ w).getLast?, isQuote c = false := by
  intro c hc
  cases w with
  | nil =>
    rw [List.append_nil] at hc
    exact hlast rfl c hc
  | cons d w =>
    rw [List.getLast?_append_of_ne_nil v (List.cons_ne_nil d w)] at hc
    exact isQuote_of_isTrimmed (List.all_eq_true.mp hw c (List.mem_of_getLast? hc))

theorem length_readValue_lt {c : Char} {v w : List Char} (hc : isQuote c = true)
    (hw : w.all isTrimmed = true) : (readValue (c :: v ++ w)).length < (c :: v).length := by
  have hremove : remove quote (c :: v ++ w) = removeFrom quote 0 false (v ++ w) := by
    rw [remove, List.cons_append, removeFrom_quote_cons, if_pos ⟨hc, Or.inl rfl⟩]
  rw [readValue, hremove]
  refine Nat.lt_succ_of_le ?_
  by_cases hnil : w = []
  · rw [hnil, List.append_nil]
    exact (length_trim_le _).trans (length_removeFrom_le quote 0 false v)
  · rw [removeFrom_quote_of_plain (fun h => absurd h Bool.false_ne_true)
        (isQuote_getLast_append hw fun h => absurd h hnil), trim_append_right hw]
    exact length_trim_le v

end EnvVarsPanel

/-! ## A line that both read alike -/

namespace EnvFile

/-- The key and the value of a line, and the blanks at its end. -/
structure Plain (key value blanks : List Char) : Prop where
  key_ne : key ≠ []
  key_all : key.all isKeyChar = true
  value_all : value.all isDot = true
  head : ∀ c ∈ value.head?, isTrimmed c = false ∧ isQuote c = false
  /-- A quote at the end stays where the line ends in blanks that `.` matches. -/
  last : ∀ c ∈ value.getLast?, isQuote c = true → ∃ d ∈ blanks.head?, isDot d = true

/-- Whatever the line binds is bound plainly, unless it is a comment. -/
def Agrees (line : List Char) : Prop :=
  ∀ key value, '=' ∉ key → trim isTrimmed line = key ++ '=' :: value → key.head? ≠ some '#' →
    Plain key value (line.rtakeWhile isTrimmed)

theorem head?_binding_ne_iff {key value : List Char} :
    (key ++ '=' :: value).head? ≠ some '#' ↔ key.head? ≠ some '#' := by
  cases key with
  | nil =>
    refine iff_of_true (fun h => ?_) (Option.some_ne_none '#').symm
    exact absurd (Option.some.inj h) (by decide)
  | cons c key => exact Iff.rfl

/-- Where a text that is no comment is cut. -/
theorem exists_binding {s : List Char} (hcomment : s.head? ≠ some '#') (hequals : '=' ∈ s) :
    ∃ key value, '=' ∉ key ∧ s = key ++ '=' :: value ∧ key.head? ≠ some '#' := by
  obtain ⟨key, value, rfl, hkey⟩ := List.eq_append_cons_of_mem hequals
  exact ⟨key, value, hkey, rfl, head?_binding_ne_iff.mp hcomment⟩

end EnvFile

namespace EnvVarsPanel

theorem scanValue_append {v z : List Char} (hz : z.all isTrimmed = true)
    (hv : v.all isDot = true) :
    scanValue (v ++ z) = some (v ++ z.takeWhile isDot) := by
  have hdot : ∀ c ∈ v, isDot c = true := List.all_eq_true.mp hv
  rw [scanValue, List.dropWhile_append_of_pos hdot, List.takeWhile_append_of_pos hdot, if_pos]
  exact List.all_eq_true.mpr fun c hc =>
    List.all_eq_true.mp hz c ((List.dropWhile_suffix isDot).subset hc)

theorem all_takeWhile_of_all {z : List Char} (hz : z.all isTrimmed = true) :
    (z.takeWhile isDot).all isTrimmed = true :=
  List.all_eq_true.mpr fun c hc =>
    List.all_eq_true.mp hz c ((List.takeWhile_prefix isDot).subset hc)

/-- A value that begins with no blank stays when the blanks before it are skipped. -/
theorem dropWhile_append_of_head {v z : List Char} (hz : z.all isTrimmed = true)
    (hv : ∀ c ∈ v.head?, isTrimmed c = false) :
    (v ++ z).dropWhile isTrimmed = if v = [] then [] else v ++ z := by
  cases v with
  | nil => exact List.dropWhile_eq_nil_iff.mpr (List.all_eq_true.mp hz)
  | cons c v =>
    have hblank : ¬isTrimmed c = true := by
      rw [hv c rfl]
      exact Bool.false_ne_true
    exact List.dropWhile_cons_of_neg hblank

theorem readValue_of_plain {key v z : List Char} (h : Plain key v z)
    (hv : ∀ c ∈ v.getLast?, isTrimmed c = false) (hz : z.all isTrimmed = true) :
    readValue (v ++ z.takeWhile isDot) = v := by
  have hw := all_takeWhile_of_all hz
  have hremove : Regex.remove quote (v ++ z.takeWhile isDot) = v ++ z.takeWhile isDot := by
    refine removeFrom_quote_of_plain (fun _ c hc => ?_) (isQuote_getLast_append hw ?_)
    · cases v with
      | nil => exact isQuote_of_isTrimmed (List.all_eq_true.mp hw c (List.mem_of_head? hc))
      | cons d v => exact (h.head c hc).2
    · intro hnil c hc
      rw [← Bool.not_eq_true]
      intro hquote
      obtain ⟨d, hd, hdot⟩ := h.last c hc hquote
      cases z with
      | nil => exact absurd hd (Option.not_mem_none d)
      | cons e z =>
        cases hd
        rw [List.takeWhile_cons_of_pos hdot] at hnil
        exact absurd hnil (List.cons_ne_nil _ _)
  rw [readValue, hremove, trim_append_right hw,
    trim_of_trimmed ⟨fun c hc => (h.head c hc).1, hv⟩]

/-- A value that is read as it stands has nothing in it that would be cut off. -/
theorem plain_of_readValue {key v z : List Char} (hkey : key ≠ []) (hall : key.all isKeyChar = true)
    (hz : z.all isTrimmed = true)
    (hread : (scanValue ((v ++ z).dropWhile isTrimmed)).map readValue = some v) :
    Plain key v z := by
  obtain ⟨value, hscan, hvalue⟩ := Option.map_eq_some_iff.mp hread
  have hhead : ∀ c ∈ v.head?, isTrimmed c = false := fun c hc => by
    rw [← hvalue] at hc
    exact (trimmed_trim _).head c hc
  rw [dropWhile_append_of_head hz hhead] at hscan
  by_cases hnil : v = []
  · rw [hnil]
    exact ⟨hkey, hall, rfl, fun c hc => absurd hc (Option.not_mem_none c),
      fun c hc => absurd hc (Option.not_mem_none c)⟩
  rw [if_neg hnil] at hscan
  have hcut : value = (v ++ z).takeWhile isDot := by
    rw [scanValue] at hscan
    split at hscan
    · exact (Option.some.inj hscan).symm
    · cases hscan
  -- what is read is no longer than what is captured
  have hlength := length_readValue_le value
  rw [hvalue] at hlength
  have hdot : v.all isDot = true := by
    rw [hcut, List.takeWhile_append] at hlength
    split at hlength
    · next heq =>
      have hself := (List.takeWhile_prefix isDot).eq_of_length heq
      exact List.all_eq_true.mpr (List.takeWhile_eq_self_iff.mp hself)
    · next hne =>
      exact absurd (le_antisymm (List.takeWhile_prefix isDot).length_le hlength) hne
  rw [scanValue_append hz hdot] at hscan
  cases hscan
  have hkept : ¬(readValue (v ++ z.takeWhile isDot)).length < v.length := by
    rw [hvalue]
    exact Nat.lt_irrefl _
  refine ⟨hkey, hall, hdot, fun c hc => ⟨hhead c hc, ?_⟩, fun q hq hquote => ?_⟩
  · rw [← Bool.not_eq_true]
    intro hquote
    obtain ⟨v, rfl⟩ := List.head?_eq_some_iff.mp hc
    exact hkept (length_readValue_lt hquote (all_takeWhile_of_all hz))
  · by_contra hnone
    have hstop : z.takeWhile isDot = [] := by
      cases z with
      | nil => rfl
      | cons e z => exact List.takeWhile_cons_of_neg fun hdot => hnone ⟨e, rfl, hdot⟩
    rw [hstop, List.append_nil] at hkept
    exact hkept (length_readValue_lt_of_last hq hquote)

/-- The panel finds the value that stands behind the `=`. -/
theorem scanValue_eq_some_iff {key v z : List Char} (hkey : key ≠ [])
    (hall : key.all isKeyChar = true) (hv : ∀ c ∈ v.getLast?, isTrimmed c = false)
    (hz : z.all isTrimmed = true) :
    (scanValue ((v ++ z).dropWhile isTrimmed)).map readValue = some v ↔ Plain key v z := by
  refine ⟨plain_of_readValue hkey hall hz, fun hplain => ?_⟩
  rw [dropWhile_append_of_head hz fun c hc => (hplain.head c hc).1]
  by_cases hnil : v = []
  · rw [hnil, if_pos rfl]
    rfl
  · rw [if_neg hnil, scanValue_append hz hplain.value_all, Option.map_some,
      readValue_of_plain hplain hv hz]

/-- A line that binds `key` and `value`, as the panel reads it. -/
theorem parseEnvLine_eq_some_iff {line key value : List Char}
    (htrim : trim isTrimmed line = key ++ '=' :: value) :
    parseEnvLine line = some ⟨String.ofList key, String.ofList value⟩ ↔
      Plain key value (line.rtakeWhile isTrimmed) := by
  have hends := trimmed_trim (p := isTrimmed) line
  rw [htrim] at hends
  have hline : line.dropWhile isTrimmed = key ++ '=' :: (value ++ line.rtakeWhile isTrimmed) := by
    have hne : trim isTrimmed line ≠ [] := by
      rw [htrim]
      exact List.append_ne_nil_of_right_ne_nil key (List.cons_ne_nil _ _)
    rw [← rtakeWhile_dropWhile hne, ← List.cons_append, ← List.append_assoc, ← htrim, trim,
      List.rdropWhile_append_rtakeWhile]
  have hz := all_rtakeWhile isTrimmed line
  have hv : ∀ c ∈ value.getLast?, isTrimmed c = false := fun c hc => by
    refine hends.last c ?_
    rw [List.getLast?_append_of_ne_nil key (List.cons_ne_nil _ _)]
    cases value with
    | nil => exact absurd hc (Option.not_mem_none c)
    | cons d value => rwa [List.getLast?_cons_cons]
  rw [parseEnvLine_eq]
  constructor
  · intro hparse
    obtain ⟨found, hfound, hpair⟩ := Option.map_eq_some_iff.mp hparse
    obtain ⟨hne, hall, -⟩ := exists_of_scanLine hfound
    obtain ⟨hfst, hsnd⟩ := Pair.mk.inj hpair
    rw [String.ofList_injective hfst] at hne hall
    refine (scanValue_eq_some_iff hne (List.all_eq_true.mpr hall) hv hz).mp ?_
    rw [scanLine_eq (w := []) hne hall rfl hline] at hfound
    obtain ⟨captured, hcaptured, rfl⟩ := Option.map_eq_some_iff.mp hfound
    rw [hcaptured, Option.map_some, String.ofList_injective hsnd]
  · intro hplain
    have hvalue := (scanValue_eq_some_iff hplain.key_ne hplain.key_all hv hz).mpr hplain
    obtain ⟨captured, hcaptured, hread⟩ := Option.map_eq_some_iff.mp hvalue
    rw [scanLine_eq (w := []) hplain.key_ne (List.all_eq_true.mp hplain.key_all) rfl hline,
      hcaptured, Option.map_some, Option.map_some, hread]

theorem binds_of_parseEnvLine {line : List Char} (h : parseEnvLine line ≠ none) :
    (trim isTrimmed line).head? ≠ some '#' ∧ '=' ∈ trim isTrimmed line := by
  rw [parseEnvLine_eq, ne_eq, Option.map_eq_none_iff] at h
  obtain ⟨found, hfound⟩ := Option.ne_none_iff_exists'.mp h
  obtain ⟨hne, hall, w, rest, -, hline, -⟩ := exists_of_scanLine hfound
  have hequals : isTrimmed '=' = false := by decide
  have hcut : line.dropWhile isTrimmed =
      trim isTrimmed line ++ (line.dropWhile isTrimmed).rtakeWhile isTrimmed :=
    List.rdropWhile_append_rtakeWhile.symm
  have hmem : '=' ∈ trim isTrimmed line := by
    have hin : '=' ∈ line.dropWhile isTrimmed := by
      rw [hline]
      exact List.mem_append_right _ (List.mem_append_right _ List.mem_cons_self)
    rw [hcut] at hin
    refine (List.mem_append.mp hin).resolve_right fun hblank => ?_
    rw [List.mem_rtakeWhile_imp hblank] at hequals
    cases hequals
  refine ⟨fun hhead => ?_, hmem⟩
  have hfirst : (line.dropWhile isTrimmed).head? = some '#' := by
    rw [hcut, List.head?_append, hhead, Option.some_or]
  obtain ⟨c, key, hkey⟩ := List.exists_cons_of_ne_nil hne
  rw [hline, hkey] at hfirst
  cases hfirst
  refine (ne_of_isKeyChar (hall '#' ?_)).2 rfl
  rw [hkey]
  exact List.mem_cons_self

end EnvVarsPanel

namespace NewProjectDialog

/-- A line that binds `key` and `value`, as the dialog reads it. -/
theorem parseLine_eq_some {line key value : List Char} (hkey : '=' ∉ key)
    (htrim : trim isTrimmed line = key ++ '=' :: value) (hhead : key.head? ≠ some '#') :
    parseLine line = some ⟨String.ofList key, String.ofList value⟩ := by
  rw [parseLine, htrim, List.splitOn_append_cons_self_of_not_mem hkey]
  dsimp only
  rw [List.intercalate_splitOn, if_pos]
  exact ⟨List.append_ne_nil_of_right_ne_nil key (List.cons_ne_nil _ _),
    head?_binding_ne_iff.mpr hhead, List.mem_append_right _ List.mem_cons_self⟩

theorem parseLine_eq_none {line : List Char}
    (h : ¬((trim isTrimmed line).head? ≠ some '#' ∧ '=' ∈ trim isTrimmed line)) :
    parseLine line = none := by
  rw [parseLine]
  exact if_neg fun hbinds => h hbinds.2

end NewProjectDialog

namespace EnvFile

open EnvVarsPanel NewProjectDialog

/-- The lines that both read alike. -/
theorem parseEnvLine_eq_parseLine_iff (line : List Char) :
    parseEnvLine line = parseLine line ↔ Agrees line := by
  by_cases hbinds : (trim isTrimmed line).head? ≠ some '#' ∧ '=' ∈ trim isTrimmed line
  · constructor
    · intro heq key value hkey htrim hhead
      rw [parseLine_eq_some hkey htrim hhead] at heq
      exact (parseEnvLine_eq_some_iff htrim).mp heq
    · intro hagrees
      obtain ⟨key, value, hkey, htrim, hhead⟩ := exists_binding hbinds.1 hbinds.2
      rw [parseLine_eq_some hkey htrim hhead]
      exact (parseEnvLine_eq_some_iff htrim).mpr (hagrees key value hkey htrim hhead)
  · have hpanel : parseEnvLine line = none :=
      Classical.not_not.mp fun h => hbinds (binds_of_parseEnvLine h)
    rw [hpanel, parseLine_eq_none hbinds]
    refine iff_of_true rfl fun key value _ htrim hhead => ?_
    refine absurd ?_ hbinds
    rw [htrim]
    exact ⟨head?_binding_ne_iff.mpr hhead, List.mem_append_right _ List.mem_cons_self⟩

/-- The two read a file alike exactly when they read every line of it alike. -/
theorem parsed_eq_parsed_iff (text : String) :
    EnvVarsPanel.parsed text = NewProjectDialog.parsed text ↔ ∀ line ∈ lines text, Agrees line := by
  have hmore : ∀ line ∈ lines text, parseEnvLine line ≠ none → parseLine line ≠ none := by
    intro line _ hpanel
    obtain ⟨hcomment, hequals⟩ := binds_of_parseEnvLine hpanel
    obtain ⟨key, value, hkey, htrim, hhead⟩ := exists_binding hcomment hequals
    rw [parseLine_eq_some hkey htrim hhead]
    exact Option.some_ne_none _
  rw [EnvVarsPanel.parsed, NewProjectDialog.parsed, Table.filterMap_eq_filterMap_iff hmore]
  exact forall₂_congr fun line _ => parseEnvLine_eq_parseLine_iff line

/-- The panel takes the quotes off, the dialog does not. -/
theorem not_parsed_eq_parsed :
    ¬∀ text : String, EnvVarsPanel.parsed text = NewProjectDialog.parsed text := by
  intro h
  exact absurd (h "A=\"x\"") (by decide)

end EnvFile
end Web
end Code2Cloud
