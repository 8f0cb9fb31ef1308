import Code2Cloud.Base.Utf8

/-!
# Base64url

The unpadded encoding with the alphabet that is safe in URLs.  It encodes three bytes at
a time, so texts that start alike have encodings that start alike.
-/

namespace Code2Cloud
namespace Base64

def digit (n : Nat) : UInt8 :=
  if n < 26 then UInt8.ofNat (0x41 + n)
  else if n < 52 then UInt8.ofNat (0x61 + (n - 26))
  else if n < 62 then UInt8.ofNat (0x30 + (n - 52))
  else if n = 62 then 0x2d
  else 0x5f

def encode : Bytes → Bytes
  | [] => []
  | [a] => [digit (a.toNat / 4), digit (a.toNat % 4 * 16)]
  | [a, b] =>
    [digit (a.toNat / 4), digit (a.toNat % 4 * 16 + b.toNat / 16), digit (b.toNat % 16 * 4)]
  | a :: b :: c :: rest =>
    digit (a.toNat / 4) :: digit (a.toNat % 4 * 16 + b.toNat / 16) ::
      digit (b.toNat % 16 * 4 + c.toNat / 64) :: digit (c.toNat % 64) :: encode rest

theorem zero_ne_digit (n : Nat) : 0 ≠ digit n := by
  have hofNat {m : Nat} (hpos : 0 < m) (hlt : m < 256) : 0 ≠ UInt8.ofNat m := by
    intro h
    have hzero := congrArg UInt8.toNat h
    rw [UInt8.toNat_ofNat_of_lt' hlt] at hzero
    exact absurd hzero (Nat.ne_of_lt hpos)
  unfold digit
  split
  · exact hofNat (by omega) (by omega)
  · split
    · exact hofNat (by omega) (by omega)
    · split
      · exact hofNat (by omega) (by omega)
      · split <;> decide

theorem zero_not_mem_encode (p : Bytes) : 0 ∉ encode p := by
  induction p using encode.induct with
  | case1 => exact List.not_mem_nil
  | case2 a => simp [encode, zero_ne_digit]
  | case3 a b => simp [encode, zero_ne_digit]
  | case4 a b c rest ih => simp [encode, zero_ne_digit, ih]

/-- Whole groups of three bytes are encoded by themselves. -/
theorem encode_append {k : Nat} {p : Bytes} (h : p.length = 3 * k) (q : Bytes) :
    encode (p ++ q) = encode p ++ encode q := by
  induction k generalizing p with
  | zero =>
    have hp : p = [] := List.eq_nil_of_length_eq_zero h
    subst hp
    rfl
  | succ k ih =>
    match p, h with
    | a :: b :: c :: p, h =>
      have hp : p.length = 3 * k := by
        simp only [List.length_cons] at h
        omega
      simp only [List.cons_append, encode, ih hp]

theorem length_encode {k : Nat} {p : Bytes} (h : p.length = 3 * k) :
    (encode p).length = 4 * k := by
  induction k generalizing p with
  | zero =>
    have hp : p = [] := List.eq_nil_of_length_eq_zero h
    subst hp
    rfl
  | succ k ih =>
    match p, h with
    | a :: b :: c :: p, h =>
      have hp : p.length = 3 * k := by
        simp only [List.length_cons] at h
        omega
      simp only [encode, List.length_cons, ih hp]
      omega

theorem le_length_encode {k : Nat} {p : Bytes} (h : 3 * k ≤ p.length) :
    4 * k ≤ (encode p).length := by
  have hlength : (p.take (3 * k)).length = 3 * k := by
    rw [List.length_take]
    omega
  rw [← List.take_append_drop (3 * k) p, encode_append hlength, List.length_append,
    length_encode hlength]
  exact Nat.le_add_right _ _

/-- The first digits depend on the first bytes only. -/
theorem take_encode {k : Nat} {p q : Bytes} (h : p.take (3 * k) = q.take (3 * k))
    (hp : 3 * k ≤ p.length) (hq : 3 * k ≤ q.length) :
    (encode p).take (4 * k) = (encode q).take (4 * k) := by
  have hlength (r : Bytes) (hr : 3 * k ≤ r.length) : (r.take (3 * k)).length = 3 * k := by
    rw [List.length_take]
    omega
  have htake (r : Bytes) (hr : 3 * k ≤ r.length) :
      (encode r).take (4 * k) = encode (r.take (3 * k)) := by
    conv_lhs => rw [← List.take_append_drop (3 * k) r]
    rw [encode_append (hlength r hr),
      List.take_append_of_le_length (Nat.le_of_eq (length_encode (hlength r hr)).symm),
      List.take_of_length_le (Nat.le_of_eq (length_encode (hlength r hr)))]
  rw [htake p hp, htake q hq, h]

end Base64
end Code2Cloud
