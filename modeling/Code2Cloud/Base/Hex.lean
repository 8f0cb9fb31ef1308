import Code2Cloud.Base.Utf8

/-!
# Hexadecimal text

Two lower-case digits for each byte, and the reader that takes pairs of digits of
either case until it meets anything else.
-/

namespace Code2Cloud
namespace Hex

def digit (n : Nat) : Char :=
  if n < 10 then Char.ofNat (0x30 + n) else Char.ofNat (0x57 + n)

def encode (bs : Bytes) : List Char :=
  bs.flatMap fun b => [digit (b.toNat / 16), digit (b.toNat % 16)]

def value (c : Char) : Option Nat :=
  if '0' ≤ c ∧ c ≤ '9' then some (c.toNat - 0x30)
  else if 'a' ≤ c ∧ c ≤ 'f' then some (c.toNat - 0x57)
  else if 'A' ≤ c ∧ c ≤ 'F' then some (c.toNat - 0x37)
  else none

def decode : List Char → Bytes
  | c :: d :: rest =>
    match value c, value d with
    | some high, some low => UInt8.ofNat (16 * high + low) :: decode rest
    | _, _ => []
  | _ => []

theorem value_digit {n : Nat} (h : n < 16) : value (digit n) = some n := by
  have hall : ∀ m ∈ List.range 16, value (digit m) = some m := by decide
  exact hall n (List.mem_range.mpr h)

theorem digit_ne_colon {n : Nat} (h : n < 16) : digit n ≠ ':' := by
  have hall : ∀ m ∈ List.range 16, digit m ≠ ':' := by decide
  exact hall n (List.mem_range.mpr h)

@[simp] theorem encode_nil : encode [] = [] := rfl

theorem encode_cons (b : UInt8) (bs : Bytes) :
    encode (b :: bs) = digit (b.toNat / 16) :: digit (b.toNat % 16) :: encode bs := rfl

@[simp] theorem decode_encode (bs : Bytes) : decode (encode bs) = bs := by
  induction bs with
  | nil => rfl
  | cons b bs ih =>
    have hb : b.toNat < 256 := b.toNat_lt
    have hbyte : 16 * (b.toNat / 16) + b.toNat % 16 = b.toNat := by omega
    rw [encode_cons, decode, value_digit (by omega), value_digit (by omega)]
    simp only [hbyte, ih, UInt8.ofNat_toNat]

@[simp] theorem encode_eq_nil_iff (bs : Bytes) : encode bs = [] ↔ bs = [] := by
  cases bs <;> simp [encode_cons]

theorem colon_not_mem_encode (bs : Bytes) : ':' ∉ encode bs := by
  intro h
  obtain ⟨b, _, hmem⟩ := List.mem_flatMap.mp h
  have hb : b.toNat < 256 := b.toNat_lt
  simp only [List.mem_cons, List.not_mem_nil, or_false] at hmem
  rcases hmem with hd | hd
  · exact digit_ne_colon (by omega) hd.symm
  · exact digit_ne_colon (by omega) hd.symm

end Hex
end Code2Cloud
