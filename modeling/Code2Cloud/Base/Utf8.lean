import Mathlib.Data.List.Basic

/-!
# UTF-8

Encoding of text and the decoder that a runtime applies to arbitrary bytes: a
malformed sequence becomes one replacement character.  Encoded text decodes to
itself.
-/

namespace Code2Cloud

abbrev Bytes := List UInt8

def utf8 (s : String) : Bytes := s.toList.flatMap String.utf8EncodeChar

theorem utf8_append (s t : String) : utf8 (s ++ t) = utf8 s ++ utf8 t := by
  rw [utf8, String.toList_append, List.flatMap_append]
  rfl

namespace Utf8

def replacement : Char := '\uFFFD'

/-- A sequence under way: the bits read, how many bytes are missing, and the range of
the next one. -/
structure Partial where
  codePoint : Nat
  needed : Nat
  lower : Nat
  upper : Nat

/-- What a byte begins. -/
inductive Lead
  | char (c : Char)
  | sequence (p : Partial)
  | invalid

def lead (b : Nat) : Lead :=
  if b ≤ 0x7f then .char (Char.ofNat b)
  else if 0xc2 ≤ b ∧ b ≤ 0xdf then .sequence ⟨b % 0x20, 1, 0x80, 0xbf⟩
  else if b = 0xe0 then .sequence ⟨0, 2, 0xa0, 0xbf⟩
  else if b = 0xed then .sequence ⟨0xd, 2, 0x80, 0x9f⟩
  else if 0xe1 ≤ b ∧ b ≤ 0xef then .sequence ⟨b % 0x10, 2, 0x80, 0xbf⟩
  else if b = 0xf0 then .sequence ⟨0, 3, 0x90, 0xbf⟩
  else if b = 0xf4 then .sequence ⟨4, 3, 0x80, 0x8f⟩
  else if 0xf1 ≤ b ∧ b ≤ 0xf3 then .sequence ⟨b % 8, 3, 0x80, 0xbf⟩
  else .invalid

/-- The characters of a byte string, read after a sequence under way, if any. -/
def decodeFrom : Bytes → Option Partial → List Char
  | [], none => []
  | [], some _ => [replacement]
  | b :: bs, none =>
    match lead b.toNat with
    | .char c => c :: decodeFrom bs none
    | .sequence p => decodeFrom bs (some p)
    | .invalid => replacement :: decodeFrom bs none
  | b :: bs, some p =>
    if p.lower ≤ b.toNat ∧ b.toNat ≤ p.upper then
      let codePoint := p.codePoint * 0x40 + b.toNat % 0x40
      if p.needed ≤ 1 then Char.ofNat codePoint :: decodeFrom bs none
      else decodeFrom bs (some ⟨codePoint, p.needed - 1, 0x80, 0xbf⟩)
    else
      -- the byte ends the sequence before it and is read again as a first byte
      replacement ::
        match lead b.toNat with
        | .char c => c :: decodeFrom bs none
        | .sequence p => decodeFrom bs (some p)
        | .invalid => replacement :: decodeFrom bs none

def decode (bs : Bytes) : String := String.ofList (decodeFrom bs none)

/-! ## Decoding an encoded text -/

theorem decodeFrom_char {b : UInt8} {c : Char} (h : lead b.toNat = .char c) (bs : Bytes) :
    decodeFrom (b :: bs) none = c :: decodeFrom bs none := by
  rw [decodeFrom, h]

theorem decodeFrom_lead {b : UInt8} {p : Partial} (h : lead b.toNat = .sequence p) (bs : Bytes) :
    decodeFrom (b :: bs) none = decodeFrom bs (some p) := by
  rw [decodeFrom, h]

theorem decodeFrom_tail {b : UInt8} {p : Partial} (hlower : p.lower ≤ b.toNat)
    (hupper : b.toNat ≤ p.upper) (hneeded : 1 < p.needed) (bs : Bytes) :
    decodeFrom (b :: bs) (some p) =
      decodeFrom bs (some ⟨p.codePoint * 0x40 + b.toNat % 0x40, p.needed - 1, 0x80, 0xbf⟩) := by
  rw [decodeFrom, if_pos ⟨hlower, hupper⟩, if_neg (by omega)]

theorem decodeFrom_last {b : UInt8} {p : Partial} (hlower : p.lower ≤ b.toNat)
    (hupper : b.toNat ≤ p.upper) (hneeded : p.needed ≤ 1) (bs : Bytes) :
    decodeFrom (b :: bs) (some p) =
      Char.ofNat (p.codePoint * 0x40 + b.toNat % 0x40) :: decodeFrom bs none := by
  rw [decodeFrom, if_pos ⟨hlower, hupper⟩, if_pos hneeded]

theorem toNat_ofNat_of_lt {n : Nat} (h : n < 256) : (UInt8.ofNat n).toNat = n := by
  simp [UInt8.toNat_ofNat', Nat.mod_eq_of_lt h]

theorem toNat_valid (c : Char) : c.toNat < 0xd800 ∨ 0xdfff < c.toNat ∧ c.toNat < 0x110000 :=
  c.valid

theorem lead_two {a : Nat} (hlo : 2 ≤ a) (hhi : a < 0x20) :
    lead (a + 0xc0) = .sequence ⟨a, 1, 0x80, 0xbf⟩ := by
  unfold lead
  rw [if_neg (by omega), if_pos (by omega)]
  congr 2
  omega

theorem lead_three {a : Nat} (ha : a < 0x10) :
    ∃ lower upper, lead (a + 0xe0) = .sequence ⟨a, 2, lower, upper⟩ ∧
      (a = 0 → lower = 0xa0) ∧ (a ≠ 0 → lower = 0x80) ∧
      (a = 0xd → upper = 0x9f) ∧ (a ≠ 0xd → upper = 0xbf) := by
  unfold lead
  rw [if_neg (by omega), if_neg (by omega)]
  by_cases h0 : a = 0
  · subst h0
    exact ⟨_, _, rfl, by simp⟩
  · rw [if_neg (by omega)]
    by_cases hd : a = 0xd
    · subst hd
      exact ⟨_, _, rfl, by simp⟩
    · rw [if_neg (by omega), if_pos (by omega)]
      have hmod : (a + 0xe0) % 0x10 = a := by omega
      exact ⟨_, _, by rw [hmod], by simp [h0, hd]⟩

theorem lead_four {a : Nat} (ha : a ≤ 4) :
    ∃ lower upper, lead (a + 0xf0) = .sequence ⟨a, 3, lower, upper⟩ ∧
      (a = 0 → lower = 0x90) ∧ (a ≠ 0 → lower = 0x80) ∧
      (a = 4 → upper = 0x8f) ∧ (a ≠ 4 → upper = 0xbf) := by
  have hcases : a = 0 ∨ a = 1 ∨ a = 2 ∨ a = 3 ∨ a = 4 := by omega
  rcases hcases with rfl | rfl | rfl | rfl | rfl <;> exact ⟨_, _, rfl, by simp⟩

theorem decodeFrom_encodeChar (c : Char) (bs : Bytes) :
    decodeFrom (String.utf8EncodeChar c ++ bs) none = c :: decodeFrom bs none := by
  have hvalid := toNat_valid c
  have hval : c.val.toNat = c.toNat := rfl
  have hchar : Char.ofNat c.toNat = c := Char.ofNat_toNat c
  unfold String.utf8EncodeChar
  rw [hval]
  generalize c.toNat = v at hvalid hchar
  by_cases h1 : v ≤ 0x7f
  · rw [if_pos h1]
    have hb : (UInt8.ofNat v).toNat = v := toNat_ofNat_of_lt (by omega)
    refine decodeFrom_char ?_ bs
    rw [hb, lead, if_pos h1, hchar]
  · rw [if_neg h1]
    by_cases h2 : v ≤ 0x7ff
    · rw [if_pos h2]
      have ha : (UInt8.ofNat (v / 64 % 0x20 + 0xc0)).toNat = v / 64 + 0xc0 := by
        rw [toNat_ofNat_of_lt (by omega)]
        omega
      have hb : (UInt8.ofNat (v % 0x40 + 0x80)).toNat = v % 0x40 + 0x80 :=
        toNat_ofNat_of_lt (by omega)
      have hlead := lead_two (a := v / 64) (by omega) (by omega)
      rw [← ha] at hlead
      rw [List.cons_append, decodeFrom_lead hlead, List.cons_append,
        decodeFrom_last (by simp only; omega) (by simp only; omega) (by simp only; omega), hb]
      simp only [List.nil_append]
      rw [show v / 64 * 0x40 + (v % 0x40 + 0x80) % 0x40 = v by omega, hchar]
    · rw [if_neg h2]
      have hb : (UInt8.ofNat (v / 64 % 0x40 + 0x80)).toNat = v / 64 % 0x40 + 0x80 :=
        toNat_ofNat_of_lt (by omega)
      have hc : (UInt8.ofNat (v % 0x40 + 0x80)).toNat = v % 0x40 + 0x80 :=
        toNat_ofNat_of_lt (by omega)
      by_cases h3 : v ≤ 0xffff
      · rw [if_pos h3]
        have ha : (UInt8.ofNat (v / 4096 % 0x10 + 0xe0)).toNat = v / 4096 + 0xe0 := by
          rw [toNat_ofNat_of_lt (by omega)]
          omega
        obtain ⟨lower, upper, hlead, hlo0, hlo, hupd, hup⟩ :=
          lead_three (a := v / 4096) (by omega)
        rw [← ha] at hlead
        rw [List.cons_append, decodeFrom_lead hlead, List.cons_append,
          decodeFrom_tail (by simp only; omega) (by simp only; omega) (by simp only; omega),
          List.cons_append,
          decodeFrom_last (by simp only; omega) (by simp only; omega) (by simp only; omega)]
        simp only [List.nil_append, hb, hc]
        rw [show (v / 4096 * 0x40 + (v / 64 % 0x40 + 0x80) % 0x40) * 0x40 +
          (v % 0x40 + 0x80) % 0x40 = v by omega, hchar]
      · rw [if_neg h3]
        have ha : (UInt8.ofNat (v / 262144 % 0x08 + 0xf0)).toNat = v / 262144 + 0xf0 := by
          rw [toNat_ofNat_of_lt (by omega)]
          omega
        have hm : (UInt8.ofNat (v / 4096 % 0x40 + 0x80)).toNat = v / 4096 % 0x40 + 0x80 :=
          toNat_ofNat_of_lt (by omega)
        obtain ⟨lower, upper, hlead, hlo0, hlo, hupd, hup⟩ :=
          lead_four (a := v / 262144) (by omega)
        rw [← ha] at hlead
        rw [List.cons_append, decodeFrom_lead hlead, List.cons_append,
          decodeFrom_tail (by simp only; omega) (by simp only; omega) (by simp only; omega),
          List.cons_append,
          decodeFrom_tail (by simp only; omega) (by simp only; omega) (by simp only; omega),
          List.cons_append,
          decodeFrom_last (by simp only; omega) (by simp only; omega) (by simp only; omega)]
        simp only [List.nil_append, hb, hc, hm]
        rw [show ((v / 262144 * 0x40 + (v / 4096 % 0x40 + 0x80) % 0x40) * 0x40 +
          (v / 64 % 0x40 + 0x80) % 0x40) * 0x40 + (v % 0x40 + 0x80) % 0x40 = v by omega, hchar]

theorem decodeFrom_encode (cs : List Char) :
    decodeFrom (cs.flatMap String.utf8EncodeChar) none = cs := by
  induction cs with
  | nil => rfl
  | cons c cs ih => rw [List.flatMap_cons, decodeFrom_encodeChar, ih]

@[simp] theorem decode_utf8 (s : String) : decode (utf8 s) = s := by
  rw [decode, utf8, decodeFrom_encode, String.ofList_toList]

@[simp] theorem utf8_eq_nil_iff (s : String) : utf8 s = [] ↔ s = "" := by
  constructor
  · intro h
    have := decode_utf8 s
    rw [h] at this
    exact this.symm
  · rintro rfl
    rfl

end Utf8
end Code2Cloud
