import Code2Cloud.System.Survival
import Code2Cloud.System.Wire

/-!
# Jobs that arrive

The jobs that wait in a run of the system, read back from their texts.
-/

namespace Code2Cloud
namespace System

open Api Worker

variable {cfg : Config} {s : State}

/-- Numbers as identifiers. -/
def decimalIds : IdText where
  text := Nat.repr
  injective m n h := by
    have hdigits : Nat.toDigits 10 m = Nat.toDigits 10 n := by
      rw [← Nat.toList_repr, ← Nat.toList_repr, h]
    rw [← Nat.ofDigitChars_ten_toDigits (n := m), hdigits, Nat.ofDigitChars_ten_toDigits]
  ne_empty id h := by
    have hdigits := congrArg String.toList h
    rw [Nat.toList_repr] at hdigits
    exact Nat.toDigits_ne_nil hdigits

end System
end Code2Cloud
