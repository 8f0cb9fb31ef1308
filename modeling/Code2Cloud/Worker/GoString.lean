import Code2Cloud.Base.Case
import Code2Cloud.Base.Utf8

/-!
# Go strings

The worker indexes its strings by byte, so a Go string is a list of bytes.  A
string that crosses from the API arrives as its UTF-8 encoding.
-/

namespace Code2Cloud
namespace Worker

abbrev GoString := Bytes

namespace GoString

def dash : UInt8 := 0x2d

def isLower (c : UInt8) : Bool := 0x61 ≤ c && c ≤ 0x7a

def isUpper (c : UInt8) : Bool := 0x41 ≤ c && c ≤ 0x5a

def isDigit (c : UInt8) : Bool := 0x30 ≤ c && c ≤ 0x39

def lowerByte (c : UInt8) : UInt8 := if isUpper c then c + 0x20 else c

/-- The character that the bytes behind a first byte complete. -/
def complete (p : Utf8.Partial) : GoString → Option Char
  | [] => none
  | c :: s =>
    if p.lower ≤ c.toNat ∧ c.toNat ≤ p.upper then
      let codePoint := p.codePoint * 0x40 + c.toNat % 0x40
      match p.needed with
      | 0 | 1 => some (Char.ofNat codePoint)
      | needed + 1 => complete { codePoint, needed, lower := 0x80, upper := 0xbf } s
    else none

/-- The runes of a string behind some bytes to skip: a byte that begins none is `U+FFFD`. -/
def runes : Nat → GoString → List Char
  | _, [] => []
  | skip + 1, _ :: s => runes skip s
  | 0, c :: s =>
    match Utf8.lead c.toNat with
    | .char rune => rune :: runes 0 s
    | .sequence p =>
      match complete p s with
      | some rune => rune :: runes p.needed s
      | none => Utf8.replacement :: runes 0 s
    | .invalid => Utf8.replacement :: runes 0 s

/-- A string of these runes. -/
def ofRunes (cs : List Char) : GoString := cs.flatMap String.utf8EncodeChar

/-- `strings.ToLower`: bytes that are no text become `U+FFFD`, unless all of it is ASCII. -/
def toLower (s : GoString) : GoString :=
  if s.all (· < 0x80) then s.map lowerByte else ofRunes ((runes 0 s).map Case.toLower)

/-- `strings.EqualFold` -/
def equalFold (s t : GoString) : Bool := (runes 0 s).map Case.fold == (runes 0 t).map Case.fold

/-- `strings.TrimPrefix`. -/
def trimPrefix (s pre : GoString) : GoString :=
  if pre.isPrefixOf s then s.drop pre.length else s

/-- `strings.TrimSuffix`. -/
def trimSuffix (s suf : GoString) : GoString :=
  if suf.isSuffixOf s then s.take (s.length - suf.length) else s

/-- The part of `s` before its first `c`: `strings.Split(s, c)[0]`. -/
def before (c : UInt8) (s : GoString) : GoString := s.takeWhile (· != c)

@[simp] theorem toLower_nil : toLower [] = [] := rfl

/-! ## The runes of a string -/

theorem complete_tail {p : Utf8.Partial} {b : UInt8} (hlower : p.lower ≤ b.toNat)
    (hupper : b.toNat ≤ p.upper) (hneeded : 1 < p.needed) (s : GoString) :
    complete p (b :: s) =
      complete ⟨p.codePoint * 0x40 + b.toNat % 0x40, p.needed - 1, 0x80, 0xbf⟩ s := by
  obtain ⟨n, hn⟩ : ∃ n, p.needed = n + 2 := ⟨p.needed - 2, by omega⟩
  rw [complete, if_pos ⟨hlower, hupper⟩, hn]
  rfl

theorem complete_last {p : Utf8.Partial} {b : UInt8} (hlower : p.lower ≤ b.toNat)
    (hupper : b.toNat ≤ p.upper) (hneeded : p.needed = 1) (s : GoString) :
    complete p (b :: s) = some (Char.ofNat (p.codePoint * 0x40 + b.toNat % 0x40)) := by
  rw [complete, if_pos ⟨hlower, hupper⟩, hneeded]
  rfl

theorem runes_char {b : UInt8} {c : Char} (h : Utf8.lead b.toNat = .char c) (s : GoString) :
    runes 0 (b :: s) = c :: runes 0 s := by
  rw [runes, h]

theorem runes_skip (t s : GoString) : runes t.length (t ++ s) = runes 0 s := by
  induction t with
  | nil => rfl
  | cons b t ih => exact ih

theorem runes_sequence {b : UInt8} {p : Utf8.Partial} {c : Char} {t : GoString}
    (h : Utf8.lead b.toNat = .sequence p) (ht : t.length = p.needed) (s : GoString)
    (hc : complete p (t ++ s) = some c) : runes 0 (b :: t ++ s) = c :: runes 0 s := by
  rw [List.cons_append, runes, h]
  simp only [hc]
  rw [← ht, runes_skip]

theorem runes_encodeChar (c : Char) (s : GoString) :
    runes 0 (String.utf8EncodeChar c ++ s) = c :: runes 0 s := by
  have hvalid := Utf8.toNat_valid c
  have hval : c.val.toNat = c.toNat := rfl
  have hchar : Char.ofNat c.toNat = c := Char.ofNat_toNat c
  unfold String.utf8EncodeChar
  rw [hval]
  generalize c.toNat = v at hvalid hchar
  have htoNat : ∀ {n : Nat}, n < 256 → (UInt8.ofNat n).toNat = n := Utf8.toNat_ofNat_of_lt
  have hlast : (UInt8.ofNat (v % 0x40 + 0x80)).toNat = v % 0x40 + 0x80 := htoNat (by omega)
  have hsecond : (UInt8.ofNat (v / 64 % 0x40 + 0x80)).toNat = v / 64 % 0x40 + 0x80 :=
    htoNat (by omega)
  by_cases h1 : v ≤ 0x7f
  · rw [if_pos h1]
    refine runes_char ?_ s
    rw [htoNat (by omega), Utf8.lead, if_pos h1, hchar]
  rw [if_neg h1]
  by_cases h2 : v ≤ 0x7ff
  · have hlead := Utf8.lead_two (a := v / 64) (by omega) (by omega)
    rw [if_pos h2]
    refine runes_sequence (p := ⟨v / 64, 1, 0x80, 0xbf⟩) (t := [_]) ?_ rfl s ?_
    · rw [htoNat (by omega), Nat.mod_eq_of_lt (by omega), hlead]
    · rw [List.singleton_append, complete_last (by simp only; omega) (by simp only; omega) rfl,
        hlast]
      simp only [show v / 64 * 0x40 + (v % 0x40 + 0x80) % 0x40 = v by omega, hchar]
  rw [if_neg h2]
  by_cases h3 : v ≤ 0xffff
  · obtain ⟨lower, upper, hlead, hlo0, hlo, hupd, hup⟩ :=
      Utf8.lead_three (a := v / 4096) (by omega)
    rw [if_pos h3]
    refine runes_sequence (p := ⟨v / 4096, 2, lower, upper⟩) (t := [_, _]) ?_ rfl s ?_
    · rw [htoNat (by omega), Nat.mod_eq_of_lt (by omega), hlead]
    · rw [List.cons_append, List.singleton_append,
        complete_tail (by simp only; omega) (by simp only; omega) (by simp only; omega),
        complete_last (by simp only; omega) (by simp only; omega) rfl, hlast, hsecond]
      simp only [show (v / 4096 * 0x40 + (v / 64 % 0x40 + 0x80) % 0x40) * 0x40 +
        (v % 0x40 + 0x80) % 0x40 = v by omega, hchar]
  · have hthird : (UInt8.ofNat (v / 4096 % 0x40 + 0x80)).toNat = v / 4096 % 0x40 + 0x80 :=
      htoNat (by omega)
    obtain ⟨lower, upper, hlead, hlo0, hlo, hupd, hup⟩ :=
      Utf8.lead_four (a := v / 262144) (by omega)
    rw [if_neg h3]
    refine runes_sequence (p := ⟨v / 262144, 3, lower, upper⟩) (t := [_, _, _]) ?_ rfl s ?_
    · rw [htoNat (by omega), Nat.mod_eq_of_lt (by omega), hlead]
    · rw [List.cons_append, List.cons_append, List.singleton_append,
        complete_tail (by simp only; omega) (by simp only; omega) (by simp only; omega),
        complete_tail (by simp only; omega) (by simp only; omega) (by simp only; omega),
        complete_last (by simp only; omega) (by simp only; omega) rfl, hlast, hsecond, hthird]
      simp only [show ((v / 262144 * 0x40 + (v / 4096 % 0x40 + 0x80) % 0x40) * 0x40 +
        (v / 64 % 0x40 + 0x80) % 0x40) * 0x40 + (v % 0x40 + 0x80) % 0x40 = v by omega, hchar]

@[simp] theorem runes_ofRunes (cs : List Char) : runes 0 (ofRunes cs) = cs := by
  induction cs with
  | nil => rfl
  | cons c cs ih =>
    rw [ofRunes, List.flatMap_cons, runes_encodeChar, ← ofRunes, ih]

/-! ## Lower case -/

theorem isAscii_of_all {s : GoString} (h : s.all (· < 0x80) = true) {b : UInt8} (hb : b ∈ s) :
    b.toNat < 0x80 := by
  have hlt := List.all_eq_true.mp h b hb
  exact of_decide_eq_true hlt

theorem utf8EncodeChar_ascii {c : Char} (h : c.toNat < 0x80) :
    String.utf8EncodeChar c = [UInt8.ofNat c.toNat] := by
  have hval : c.val.toNat = c.toNat := rfl
  unfold String.utf8EncodeChar
  rw [hval, if_pos (by omega)]

theorem utf8_of_ascii {s : String} (h : ∀ c ∈ s.toList, c.toNat < 0x80) :
    utf8 s = s.toList.map fun c => UInt8.ofNat c.toNat := by
  rw [utf8, List.map_eq_flatMap]
  exact List.flatMap_congr fun c hc => utf8EncodeChar_ascii (h c hc)

theorem ofRunes_runes {s : GoString} (h : ∀ b ∈ s, b.toNat < 0x80) :
    ofRunes ((runes 0 s).map Case.toLower) = s.map lowerByte := by
  induction s with
  | nil => rfl
  | cons b s ih =>
    have hb : b.toNat < 0x80 := h b List.mem_cons_self
    have hlead : Utf8.lead b.toNat = .char (Char.ofNat b.toNat) := by
      rw [Utf8.lead, if_pos (by omega)]
    have hrune : (Char.ofNat b.toNat).toNat = b.toNat := Case.toNat_ofNat (by omega)
    have hlower := Case.toLower_ascii (c := Char.ofNat b.toNat) (by omega)
    rw [hrune] at hlower
    have hascii : (Case.toLower (Char.ofNat b.toNat)).toNat < 0x80 := by
      rw [hlower]
      split <;> omega
    have hbyte : (lowerByte b).toNat = (Case.toLower (Char.ofNat b.toNat)).toNat := by
      rw [hlower, lowerByte]
      by_cases hupper : 0x41 ≤ b.toNat ∧ b.toNat ≤ 0x5a
      · have hisUpper : isUpper b = true := by
          simpa [isUpper, UInt8.le_iff_toNat_le] using hupper
        rw [if_pos hupper, if_pos hisUpper, UInt8.toNat_add]
        exact Nat.mod_eq_of_lt (by simp; omega)
      · have hisUpper : ¬isUpper b = true := by
          simpa [isUpper, UInt8.le_iff_toNat_le] using hupper
        rw [if_neg hupper, if_neg hisUpper]
    rw [runes_char hlead, List.map_cons, ofRunes, List.flatMap_cons, ← ofRunes,
      ih fun b' hb' => h b' (List.mem_cons_of_mem b hb'),
      utf8EncodeChar_ascii hascii, List.map_cons, ← hbyte, UInt8.ofNat_toNat]
    rfl

theorem toLower_eq (s : GoString) : toLower s = ofRunes ((runes 0 s).map Case.toLower) := by
  unfold toLower
  split
  · rename_i h
    exact (ofRunes_runes fun b hb => isAscii_of_all h hb).symm
  · rfl

theorem toLower_of_ascii {s : GoString} (h : ∀ b ∈ s, b.toNat < 0x80) :
    toLower s = s.map lowerByte := by
  rw [toLower_eq, ofRunes_runes h]

@[simp] theorem toLower_toLower (s : GoString) : toLower (toLower s) = toLower s := by
  rw [toLower_eq (toLower s), toLower_eq s, runes_ofRunes, List.map_map]
  exact congrArg ofRunes (List.map_congr_left fun c _ => Case.toLower_toLower c)

/-! ## Counting runes -/

theorem runes_append_of_ascii {t : GoString} (ht : ∀ b ∈ t, b.toNat < 0x80) (s : GoString) :
    runes 0 (t ++ s) = t.map (fun b => Char.ofNat b.toNat) ++ runes 0 s := by
  induction t with
  | nil => rfl
  | cons b t ih =>
    have hb := ht b List.mem_cons_self
    have hlead : Utf8.lead b.toNat = .char (Char.ofNat b.toNat) := by
      rw [Utf8.lead, if_pos (by omega)]
    rw [List.cons_append, runes_char hlead, ih fun b' hb' => ht b' (List.mem_cons_of_mem b hb')]
    rfl

theorem length_runes_toLower (s : GoString) :
    (runes 0 (toLower s)).length = (runes 0 s).length := by
  rw [toLower_eq, runes_ofRunes, List.length_map]

theorem length_runes_of_equalFold {s t : GoString} (h : equalFold s t = true) :
    (runes 0 s).length = (runes 0 t).length := by
  have hlength := congrArg List.length (beq_iff_eq.mp h)
  rwa [List.length_map, List.length_map] at hlength

/-! ## Bytes of ASCII -/

theorem ge_of_mem_encodeChar {c : Char} (hc : ¬c.toNat < 0x80) {b : UInt8}
    (hb : b ∈ String.utf8EncodeChar c) : 0x80 ≤ b.toNat := by
  have hvalid := Utf8.toNat_valid c
  have hval : c.val.toNat = c.toNat := rfl
  unfold String.utf8EncodeChar at hb
  rw [hval] at hb
  generalize c.toNat = v at hvalid hc hb
  have htoNat : ∀ {n : Nat}, n < 256 → (UInt8.ofNat n).toNat = n := Utf8.toNat_ofNat_of_lt
  rw [if_neg (by omega)] at hb
  by_cases h2 : v ≤ 0x7ff
  · rw [if_pos h2] at hb
    simp only [List.mem_cons, List.not_mem_nil, or_false] at hb
    rcases hb with rfl | rfl <;> rw [htoNat (by omega)] <;> omega
  rw [if_neg h2] at hb
  by_cases h3 : v ≤ 0xffff
  · rw [if_pos h3] at hb
    simp only [List.mem_cons, List.not_mem_nil, or_false] at hb
    rcases hb with rfl | rfl | rfl <;> rw [htoNat (by omega)] <;> omega
  · rw [if_neg h3] at hb
    simp only [List.mem_cons, List.not_mem_nil, or_false] at hb
    rcases hb with rfl | rfl | rfl | rfl <;> rw [htoNat (by omega)] <;> omega

/-- A sequence under way that completes to no character of ASCII. -/
def Long (p : Utf8.Partial) : Prop :=
  2 ≤ p.codePoint ∨ 2 ≤ p.needed ∧ (1 ≤ p.codePoint ∨ 0x90 ≤ p.lower ∧ p.upper ≤ 0xbf)

theorem long_of_lead {b : Nat} {p : Utf8.Partial} (h : Utf8.lead b = .sequence p) : Long p := by
  unfold Utf8.lead at h
  unfold Long
  split at h
  · cases h
  repeat' split at h
  all_goals
    cases h
    try simp only
    try omega

/-- A sequence completes to a code point above ASCII. -/
theorem complete_long {p : Utf8.Partial} (hp : Long p) {s : GoString} {c : Char}
    (h : complete p s = some c) : ∃ n, 0x80 ≤ n ∧ c = Char.ofNat n := by
  induction s generalizing p with
  | nil => cases h
  | cons b s ih =>
    rw [complete] at h
    split at h
    · rename_i hb
      unfold Long at hp
      simp only at h
      split at h
      · exact ⟨_, by omega, (Option.some.inj h).symm⟩
      · exact ⟨_, by omega, (Option.some.inj h).symm⟩
      · exact ih (Or.inl (by simp only; omega)) h
    · cases h

/-- A rune of ASCII is a byte of the string. -/
theorem mem_of_mem_runes {c : Char} (hc : c.toNat < 0x80) (hnull : 0 < c.toNat) {skip : Nat}
    {s : GoString} (h : c ∈ runes skip s) : UInt8.ofNat c.toNat ∈ s := by
  have hne : ∀ n, 0x80 ≤ n → c ≠ Char.ofNat n := by
    rintro n hn rfl
    by_cases hvalid : n.isValidChar
    · rw [Case.toNat_ofNat hvalid] at hc
      omega
    · rw [Char.ofNat, dif_neg hvalid] at hnull
      exact absurd hnull (by decide)
  induction s generalizing skip with
  | nil => cases skip <;> cases h
  | cons b s ih =>
    cases skip with
    | succ skip => exact List.mem_cons_of_mem b (ih h)
    | zero =>
      rw [runes] at h
      split at h
      · rename_i rune hlead
        rcases List.mem_cons.mp h with rfl | h
        · have hb : b.toNat ≤ 0x7f ∧ c = Char.ofNat b.toNat := by
            unfold Utf8.lead at hlead
            split at hlead
            · rename_i hb
              exact ⟨hb, (Utf8.Lead.char.inj hlead).symm⟩
            · repeat' split at hlead
              all_goals cases hlead
          rw [hb.2, Case.toNat_ofNat (by omega), UInt8.ofNat_toNat]
          exact List.mem_cons_self
        · exact List.mem_cons_of_mem b (ih h)
      · rename_i p hlead
        split at h
        · rename_i rune hcomplete
          rcases List.mem_cons.mp h with rfl | h
          · obtain ⟨n, hn, heq⟩ := complete_long (long_of_lead hlead) hcomplete
            exact absurd heq (hne n hn)
          · exact List.mem_cons_of_mem b (ih h)
        · rcases List.mem_cons.mp h with rfl | h
          · exact absurd hc (by decide)
          · exact List.mem_cons_of_mem b (ih h)
      · rcases List.mem_cons.mp h with rfl | h
        · exact absurd hc (by decide)
        · exact List.mem_cons_of_mem b (ih h)

/-- Lowering adds no byte of ASCII other than letters. -/
theorem mem_of_mem_toLower {b : UInt8} {s : GoString} (hb : b.toNat < 0x80) (hnull : 0 < b.toNat)
    (hletter : isLower b = false) (h : b ∈ toLower s) : b ∈ s := by
  rw [toLower_eq, ofRunes] at h
  obtain ⟨r, hr, hbr⟩ := List.mem_flatMap.mp h
  obtain ⟨c, hc, rfl⟩ := List.mem_map.mp hr
  have hlower : (Case.toLower c).toNat < 0x80 := by
    by_contra hlarge
    have := ge_of_mem_encodeChar hlarge hbr
    omega
  rw [utf8EncodeChar_ascii hlower, List.mem_singleton] at hbr
  have hbyte : b.toNat = (Case.toLower c).toNat := by
    rw [hbr, Utf8.toNat_ofNat_of_lt (by omega)]
  have hnotLetter : ¬(0x61 ≤ b.toNat ∧ b.toNat ≤ 0x7a) := by
    simpa [isLower, UInt8.le_iff_toNat_le] using hletter
  by_cases hascii : c.toNat < 0x80
  · have hsame := Case.toLower_ascii hascii
    split at hsame
    · omega
    · have hmem := mem_of_mem_runes hascii (by omega) hc
      rwa [← hsame, ← hbr] at hmem
  · have hrange := Case.toNat_toLower hascii
    omega

end GoString
end Worker
end Code2Cloud
