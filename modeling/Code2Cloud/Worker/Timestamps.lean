import Code2Cloud.Base.Search
import Code2Cloud.Worker.PodLogs

/-!
# The timestamps of pod logs

The times that Kubernetes puts before the lines of a container, and what `stripK8sTimestamp`
leaves of such a line.
-/

namespace Code2Cloud
namespace Worker
namespace PodLogs

open GoString Search

def isLeap (year : Nat) : Bool := year % 4 == 0 && (year % 100 != 0 || year % 400 == 0)

def daysIn (year month : Nat) : Nat :=
  if month = 2 then if isLeap year then 29 else 28
  else if month ∈ [4, 6, 9, 11] then 30
  else 31

/-- A time of RFC 3339 in UTC, down to nanoseconds. -/
structure Timestamp where
  year : Nat
  month : Nat
  day : Nat
  hour : Nat
  minute : Nat
  /-- A leap second is the sixtieth. -/
  second : Nat
  /-- No digit, and there is no dot either. -/
  fraction : List (Fin 10)
  /-- Between the date and the time: a `T` of either case, or a blank. -/
  separator : UInt8
  hyear : year < 10000
  hmonth : 1 ≤ month ∧ month ≤ 12
  hday : 1 ≤ day ∧ day ≤ daysIn year month
  hhour : hour < 24
  hminute : minute < 60
  hsecond : second ≤ 60
  hfraction : fraction.length ≤ 9
  hseparator : separator ∈ [0x54, 0x74, 0x20]

def digit (d : Nat) : UInt8 := UInt8.ofNat (0x30 + d % 10)

/-- The last digits of a number, as many as there is room for. -/
def digits : Nat → Nat → GoString
  | 0, _ => []
  | width + 1, n => digits width (n / 10) ++ [digit n]

namespace Timestamp

variable (t : Timestamp)

def secfrac : GoString :=
  if t.fraction = [] then [] else 0x2e :: t.fraction.map fun d : Fin 10 => digit d.val

/-- The text without the `Z` that ends it. -/
def dateTime : GoString :=
  digits 4 t.year ++ 0x2d :: digits 2 t.month ++ 0x2d :: digits 2 t.day ++ t.separator ::
    digits 2 t.hour ++ 0x3a :: digits 2 t.minute ++ 0x3a :: digits 2 t.second ++ t.secfrac

def text : GoString := t.dateTime ++ [0x5a]

end Timestamp

theorem indexOfZone_eq (line : GoString) : indexOfZone line = indexOf [0x5a, 0x20] line := by
  induction line with
  | nil => rfl
  | cons c line ih =>
    have hbegins : [0x5a, 0x20] <+: c :: line ↔ c = 0x5a ∧ line.head? = some 0x20 := by
      rw [List.cons_prefix_cons, eq_comm]
      refine and_congr_right fun _ => ?_
      cases line with
      | nil => simp
      | cons d line => simp [List.cons_prefix_cons, eq_comm]
    rw [indexOfZone, ih]
    by_cases h : c = 0x5a ∧ line.head? = some 0x20
    · rw [if_pos h, indexOf_of_begins (hbegins.mpr h)]
    · rw [if_neg h, indexOf_cons_of_not_begins fun hp => h (hbegins.mp hp)]

/-! ## The bytes of a timestamp -/

theorem toNat_digit (d : Nat) : (digit d).toNat = 0x30 + d % 10 :=
  Utf8.toNat_ofNat_of_lt (by omega)

theorem isDigit_digit (d : Nat) : isDigit (digit d) = true := by
  have := toNat_digit d
  simp only [isDigit, Bool.and_eq_true, decide_eq_true_eq, UInt8.le_iff_toNat_le]
  change 48 ≤ _ ∧ _ ≤ 57
  omega

theorem length_digits (width n : Nat) : (digits width n).length = width := by
  induction width generalizing n with
  | zero => rfl
  | succ width ih => rw [digits, List.length_append, ih, List.length_singleton]

theorem isDigit_of_mem_digits {width n : Nat} {c : UInt8} (h : c ∈ digits width n) :
    isDigit c = true := by
  induction width generalizing n with
  | zero => exact absurd h List.not_mem_nil
  | succ width ih =>
    rcases List.mem_append.mp h with h | h
    · exact ih h
    · rw [List.mem_singleton.mp h]
      exact isDigit_digit n

namespace Timestamp

theorem length_secfrac_le (t : Timestamp) : t.secfrac.length ≤ 10 := by
  have := t.hfraction
  unfold secfrac
  split
  · exact Nat.zero_le _
  · rw [List.length_cons, List.length_map]
    omega

/-- The window of 35 bytes holds every timestamp. -/
theorem length_dateTime_le (t : Timestamp) : t.dateTime.length ≤ 29 := by
  have := t.length_secfrac_le
  simp only [dateTime, List.length_append, List.length_cons, length_digits]
  omega

theorem head?_dateTime (t : Timestamp) : t.dateTime.head?.any isDigit = true := by
  have hhead : t.dateTime.head? = some (digit (t.year / 10 / 10 / 10)) := rfl
  rw [hhead]
  exact isDigit_digit _

theorem zone_notMem_digits (width n : Nat) : (0x5a : UInt8) ∉ digits width n := fun h =>
  absurd (isDigit_of_mem_digits h) (by decide)

/-- The `Z` at its end is the only one. -/
theorem zone_notMem_dateTime (t : Timestamp) : (0x5a : UInt8) ∉ t.dateTime := by
  have hseparator : t.separator ≠ 0x5a := by
    intro h
    exact absurd (h ▸ t.hseparator) (by decide)
  have hsecfrac : (0x5a : UInt8) ∉ t.secfrac := by
    unfold secfrac
    split
    · exact List.not_mem_nil
    · rw [List.mem_cons, List.mem_map]
      rintro (h | ⟨d, _, hd⟩)
      · exact absurd h (by decide)
      · exact absurd (hd ▸ isDigit_digit d) (by decide)
  simp only [dateTime, List.mem_append, List.mem_cons, not_or]
  have hdigits := zone_notMem_digits
  exact ⟨⟨⟨⟨⟨⟨hdigits _ _, by decide, hdigits _ _⟩, by decide, hdigits _ _⟩, hseparator.symm,
    hdigits _ _⟩, by decide, hdigits _ _⟩, by decide, hdigits _ _⟩, hsecfrac⟩

end Timestamp

/-! ## Stripping -/

/-- Whatever a line contains, stripping takes its timestamp and the blank away, and no more. -/
theorem stripK8sTimestamp_text (t : Timestamp) (content : GoString) :
    stripK8sTimestamp (t.text ++ 0x20 :: content) = content := by
  have hline : t.text ++ 0x20 :: content = t.dateTime ++ ([0x5a, 0x20] ++ content) := by
    rw [Timestamp.text, List.append_assoc]
    rfl
  have hindex : indexOfZone (t.dateTime ++ ([0x5a, 0x20] ++ content)) = some t.dateTime.length := by
    rw [indexOfZone_eq]
    exact indexOf_append t.zone_notMem_dateTime content [0x20]
  have hhead := t.head?_dateTime
  have hlength := t.length_dateTime_le
  have hpos : 0 < t.dateTime.length := by
    cases hnil : t.dateTime with
    | nil => simp [hnil] at hhead
    | cons c rest => exact Nat.succ_pos _
  have hfirst : (t.dateTime ++ ([0x5a, 0x20] ++ content)).head?.any isDigit = true := by
    rwa [List.head?_append_of_ne_nil _ (List.ne_nil_of_length_pos hpos)]
  rw [hline, stripK8sTimestamp, hindex]
  simp only
  rw [if_pos ⟨hpos, by omega, hfirst⟩, ← List.append_assoc]
  exact List.drop_left' (by simp)

def shopTimestamp : Timestamp where
  year := 2026
  month := 2
  day := 8
  hour := 0
  minute := 54
  second := 51
  fraction := [1, 4, 5, 1, 7, 5, 8, 6, 8]
  separator := 0x54
  hyear := by decide
  hmonth := by decide
  hday := by decide
  hhour := by decide
  hminute := by decide
  hsecond := by decide
  hfraction := by decide
  hseparator := by decide

example : shopTimestamp.text = utf8 "2026-02-08T00:54:51.145175868Z" := by decide

end PodLogs
end Worker
end Code2Cloud
