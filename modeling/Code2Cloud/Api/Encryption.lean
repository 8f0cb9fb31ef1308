import Code2Cloud.Base.Hex

/-!
# Encryption of stored values

`EncryptionService`: a value is stored as the hex texts of the nonce, the tag and the
ciphertext, separated by colons.  The cipher is AES-256-GCM of the runtime.
-/

namespace Code2Cloud
namespace Api

/-- An authenticated cipher that keeps lengths: what it seals under a key and a nonce
opens under the same ones to the same text, with a tag of 16 bytes. -/
structure Gcm where
  encrypt : (key iv plain : Bytes) → Bytes
  tag : (key iv plain : Bytes) → Bytes
  decrypt : (key iv authTag encrypted : Bytes) → Option Bytes
  decrypt_encrypt : ∀ key iv plain,
    decrypt key iv (tag key iv plain) (encrypt key iv plain) = some plain
  length_encrypt : ∀ key iv plain, (encrypt key iv plain).length = plain.length
  length_tag : ∀ key iv plain, (tag key iv plain).length = 16

/-- A nonce: `randomBytes(12)`. -/
abbrev Iv := {iv : Bytes // iv.length = 12}

def zeroIv : Iv := ⟨List.replicate 12 0, by decide⟩

structure EncryptionService where
  gcm : Gcm
  key : Bytes
  key_length : key.length = 32

/-- The errors `decrypt` throws: its own format check, and `decipher.final()`. -/
inductive DecryptError
  | invalidFormat
  | authentication
  deriving DecidableEq

namespace EncryptionService

variable (e : EncryptionService)

def encrypt (iv : Iv) (plainText : String) : String :=
  let plain := utf8 plainText
  let encrypted := e.gcm.encrypt e.key iv.val plain
  let authTag := e.gcm.tag e.key iv.val plain
  String.ofList (Hex.encode iv.val ++ ':' :: (Hex.encode authTag ++ ':' :: Hex.encode encrypted))

/-- The first three parts must be nonempty texts: a missing part is `undefined`, and
both that and an empty text are false. -/
def decrypt (payload : String) : Except DecryptError String :=
  match payload.toList.splitOnP (· == ':') with
  | ivHex :: authTagHex :: encryptedHex :: _ =>
    if ivHex.isEmpty || authTagHex.isEmpty || encryptedHex.isEmpty then .error .invalidFormat
    else
      let iv := Hex.decode ivHex
      let authTag := Hex.decode authTagHex
      let encrypted := Hex.decode encryptedHex
      match e.gcm.decrypt e.key iv authTag encrypted with
      | none => .error .authentication
      | some decrypted => .ok (Utf8.decode decrypted)
  | _ => .error .invalidFormat

/-! ## Round trip -/

theorem splitOnP_colon {s : List Char} (hs : ':' ∉ s) (rest : List Char) :
    (s ++ ':' :: rest).splitOnP (· == ':') = s :: rest.splitOnP (· == ':') := by
  induction s with
  | nil => simp [List.splitOnP_cons_eq_if_modifyHead]
  | cons c s ih =>
    have hc : c ≠ ':' := fun h => hs (h ▸ List.mem_cons_self)
    have hrest := ih fun h => hs (List.mem_cons_of_mem c h)
    rw [List.cons_append, List.splitOnP_cons_eq_if_modifyHead, hrest]
    simp [hc]

theorem splitOnP_no_colon {s : List Char} (hs : ':' ∉ s) : s.splitOnP (· == ':') = [s] := by
  induction s with
  | nil => rfl
  | cons c s ih =>
    have hc : c ≠ ':' := fun h => hs (h ▸ List.mem_cons_self)
    rw [List.splitOnP_cons_eq_if_modifyHead, ih fun h => hs (List.mem_cons_of_mem c h)]
    simp [hc]

theorem split_encrypt (iv : Iv) (s : String) :
    (e.encrypt iv s).toList.splitOnP (· == ':') =
      [Hex.encode iv.val, Hex.encode (e.gcm.tag e.key iv.val (utf8 s)),
        Hex.encode (e.gcm.encrypt e.key iv.val (utf8 s))] := by
  rw [encrypt, String.toList_ofList, splitOnP_colon (Hex.colon_not_mem_encode _),
    splitOnP_colon (Hex.colon_not_mem_encode _), splitOnP_no_colon (Hex.colon_not_mem_encode _)]

theorem ne_nil_of_length {bs : Bytes} {n : Nat} (h : bs.length = n + 1) : bs ≠ [] := by
  rintro rfl
  simp at h

theorem encrypt_eq_nil_iff (iv : Iv) (s : String) :
    e.gcm.encrypt e.key iv.val (utf8 s) = [] ↔ s = "" := by
  rw [← List.length_eq_zero_iff, e.gcm.length_encrypt, List.length_eq_zero_iff,
    Utf8.utf8_eq_nil_iff]

theorem decrypt_encrypt (iv : Iv) (s : String) :
    e.decrypt (e.encrypt iv s) = if s = "" then .error .invalidFormat else .ok s := by
  have hiv : iv.val ≠ [] := ne_nil_of_length iv.property
  have htag : e.gcm.tag e.key iv.val (utf8 s) ≠ [] := ne_nil_of_length (e.gcm.length_tag _ _ _)
  have hivHex : (Hex.encode iv.val).isEmpty = false := by simpa using hiv
  have htagHex : (Hex.encode (e.gcm.tag e.key iv.val (utf8 s))).isEmpty = false := by
    simpa using htag
  rw [decrypt, split_encrypt]
  simp only [hivHex, htagHex, Bool.false_or, Hex.decode_encode, e.gcm.decrypt_encrypt,
    Utf8.decode_utf8, List.isEmpty_iff, Hex.encode_eq_nil_iff, encrypt_eq_nil_iff]

theorem decrypt_encrypt_eq_ok_iff (iv : Iv) (s : String) :
    e.decrypt (e.encrypt iv s) = .ok s ↔ s ≠ "" := by
  rw [decrypt_encrypt]
  by_cases hs : s = ""
  · simp [hs]
  · simp [hs]

end EncryptionService
end Api
end Code2Cloud
