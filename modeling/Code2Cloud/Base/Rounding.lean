import Mathlib.Data.Int.Log
import Mathlib.Data.Rat.Floor
import Mathlib.Algebra.Order.Field.Power
import Mathlib.Algebra.Ring.Int.Parity
import Mathlib.Tactic.Linarith
import Mathlib.Tactic.FieldSimp

/-!
# Rounding

A rational rounded to a number of binary digits, to the nearest such number and to the even one of
two that are equally near, as arithmetic on floating-point numbers rounds its exact results.
-/

namespace Code2Cloud
namespace Rounding

/-! ## To integers -/

/-- The nearest integer, the even one of two that are equally near. -/
def halfEven (q : ℚ) : ℤ :=
  if Int.fract q < 1 / 2 ∨ Int.fract q = 1 / 2 ∧ Even ⌊q⌋ then ⌊q⌋ else ⌊q⌋ + 1

def RoundsUpTo (n : ℤ) (q : ℚ) : Prop := q < n + 1 / 2 ∨ q = n + 1 / 2 ∧ Even n

theorem roundsUpTo_iff_of_even {n : ℤ} {q : ℚ} (h : Even n) :
    RoundsUpTo n q ↔ q ≤ n + 1 / 2 := by
  rw [RoundsUpTo, and_iff_left h, le_iff_lt_or_eq]

theorem roundsUpTo_iff_of_odd {n : ℤ} {q : ℚ} (h : Odd n) : RoundsUpTo n q ↔ q < n + 1 / 2 := by
  rw [RoundsUpTo, or_iff_left fun hq => Int.not_even_iff_odd.mpr h hq.2]

theorem halfEven_le_iff {q : ℚ} {n : ℤ} : halfEven q ≤ n ↔ RoundsUpTo n q := by
  have hsplit : (⌊q⌋ : ℚ) + Int.fract q = q := Int.floor_add_fract q
  have hfract := Int.fract_lt_one q
  have hfract' := Int.fract_nonneg q
  -- below the integer's own unit and above it the rounding does not matter
  rcases lt_trichotomy ⌊q⌋ n with hlt | heq | hgt
  · have hn : (⌊q⌋ : ℚ) + 1 ≤ n := by exact_mod_cast hlt
    refine iff_of_true ?_ (Or.inl (by linarith))
    rw [halfEven]
    split <;> omega
  · subst heq
    rw [halfEven, RoundsUpTo]
    have hlt : q < (⌊q⌋ : ℚ) + 1 / 2 ↔ Int.fract q < 1 / 2 := by
      constructor <;> intro h <;> linarith
    have heq : q = (⌊q⌋ : ℚ) + 1 / 2 ↔ Int.fract q = 1 / 2 := by
      constructor <;> intro h <;> linarith
    rw [hlt, heq]
    split
    · next h => exact iff_of_true le_rfl h
    · next h => exact iff_of_false (by omega) h
  · have hn : (n : ℚ) + 1 ≤ ⌊q⌋ := by exact_mod_cast hgt
    refine iff_of_false ?_ ?_
    · rw [halfEven]
      split <;> omega
    · rintro (h | ⟨h, _⟩) <;> linarith

theorem halfEven_mono {q r : ℚ} (h : q ≤ r) : halfEven q ≤ halfEven r := by
  rw [halfEven_le_iff]
  rcases halfEven_le_iff.mp (le_refl (halfEven r)) with hlt | ⟨heq, heven⟩
  · exact Or.inl (h.trans_lt hlt)
  · rcases h.lt_or_eq with h | h
    · exact Or.inl (h.trans_eq heq)
    · exact Or.inr ⟨h.trans heq, heven⟩

theorem halfEven_intCast (n : ℤ) : halfEven n = n := by
  rw [halfEven, Int.fract_intCast, Int.floor_intCast, if_pos (Or.inl (by norm_num))]

/-! ## To binary digits -/

/-- The last of `p` binary digits of a number. -/
def ulp (p : ℕ) (q : ℚ) : ℚ := (2 : ℚ) ^ (Int.log 2 q - p + 1)

/-- A number that is not negative, rounded to `p` binary digits. -/
def roundTo (p : ℕ) (q : ℚ) : ℚ := halfEven (q / ulp p q) * ulp p q

variable {p : ℕ} {q : ℚ}

theorem ulp_pos (p : ℕ) (q : ℚ) : 0 < ulp p q := zpow_pos (by norm_num) _

theorem roundTo_zero (p : ℕ) : roundTo p 0 = 0 := by
  rw [roundTo, zero_div]
  have h : halfEven 0 = 0 := halfEven_intCast 0
  rw [h, Int.cast_zero, zero_mul]

theorem roundTo_nonneg (p : ℕ) (hq : 0 ≤ q) : 0 ≤ roundTo p q := by
  refine mul_nonneg ?_ (ulp_pos p q).le
  rw [Int.cast_nonneg_iff, ← halfEven_intCast 0]
  exact halfEven_mono (by rw [Int.cast_zero]; exact div_nonneg hq (ulp_pos p q).le)

theorem two_zpow_add (a b : ℤ) : (2 : ℚ) ^ a * 2 ^ b = 2 ^ (a + b) :=
  (zpow_add₀ (by norm_num) a b).symm

theorem roundTo_le (p : ℕ) (q : ℚ) : roundTo p q ≤ 2 ^ (Int.log 2 q + 1) := by
  have hlog : q < 2 ^ (Int.log 2 q + 1) := Int.lt_zpow_succ_log_self (by norm_num) q
  have hscale : (2 : ℚ) ^ (Int.log 2 q + 1) = ((2 ^ p : ℤ) : ℚ) * ulp p q := by
    rw [ulp, Int.cast_pow, Int.cast_ofNat, ← zpow_natCast, two_zpow_add]
    congr 1
    ring
  rw [hscale] at hlog ⊢
  refine mul_le_mul_of_nonneg_right ?_ (ulp_pos p q).le
  rw [Int.cast_le, ← halfEven_intCast (2 ^ p)]
  exact halfEven_mono ((div_le_iff₀ (ulp_pos p q)).mpr hlog.le)

theorem le_roundTo (hp : 0 < p) (hq : 0 < q) : 2 ^ Int.log 2 q ≤ roundTo p q := by
  have hlog : (2 : ℚ) ^ Int.log 2 q ≤ q := Int.zpow_log_le_self (by norm_num) hq
  have hscale : (2 : ℚ) ^ Int.log 2 q = ((2 ^ (p - 1) : ℤ) : ℚ) * ulp p q := by
    rw [ulp, Int.cast_pow, Int.cast_ofNat, ← zpow_natCast, two_zpow_add]
    congr 1
    push_cast [hp]
    ring
  rw [hscale] at hlog ⊢
  refine mul_le_mul_of_nonneg_right ?_ (ulp_pos p q).le
  rw [Int.cast_le, ← halfEven_intCast (2 ^ (p - 1))]
  exact halfEven_mono ((le_div_iff₀ (ulp_pos p q)).mpr hlog)

/-- What is rounded to a number of `p` digits or to a smaller one: it lies below the middle between
the number and the next, or is the middle and the number's last digit is even. -/
theorem roundTo_le_iff {n e : ℤ} (hp : 0 < p) (hq : 0 ≤ q) (hn : 2 ^ (p - 1) ≤ n)
    (hn' : n < 2 ^ p) :
    (roundTo p q ≤ n * 2 ^ e ↔ RoundsUpTo n (q / 2 ^ e)) ∧
      (roundTo p q < (n + 1) * 2 ^ e ↔ RoundsUpTo n (q / 2 ^ e)) := by
  have he : (0 : ℚ) < 2 ^ e := zpow_pos (by norm_num) e
  have hone : (1 : ℚ) ≤ n := by exact_mod_cast (one_le_pow₀ (by norm_num)).trans hn
  have htop (x : ℚ) : x < n * 2 ^ e → RoundsUpTo n (x / 2 ^ e) := by
    intro h
    have := (div_lt_iff₀ he).mpr h
    exact Or.inl (by linarith)
  rcases hq.eq_or_lt with rfl | hq
  · have hpos : (0 : ℚ) < n * 2 ^ e := by positivity
    rw [roundTo_zero]
    refine ⟨iff_of_true hpos.le (htop 0 hpos), iff_of_true ?_ (htop 0 hpos)⟩
    nlinarith
  have hlow : (2 : ℚ) ^ (e + p - 1) ≤ n * 2 ^ e := by
    have h : ((2 ^ (p - 1) : ℤ) : ℚ) ≤ n := by exact_mod_cast hn
    calc (2 : ℚ) ^ (e + p - 1) = ((2 ^ (p - 1) : ℤ) : ℚ) * 2 ^ e := by
          rw [Int.cast_pow, Int.cast_ofNat, ← zpow_natCast, two_zpow_add]
          congr 1
          push_cast [hp]
          ring
      _ ≤ n * 2 ^ e := mul_le_mul_of_nonneg_right h he.le
  have hhigh : (n + 1) * 2 ^ e ≤ (2 : ℚ) ^ (e + p) := by
    have h : (n : ℚ) + 1 ≤ ((2 ^ p : ℤ) : ℚ) := by exact_mod_cast hn'
    calc (n + 1) * 2 ^ e ≤ ((2 ^ p : ℤ) : ℚ) * 2 ^ e := mul_le_mul_of_nonneg_right h he.le
      _ = 2 ^ (e + p) := by
          rw [Int.cast_pow, Int.cast_ofNat, ← zpow_natCast, two_zpow_add]
          congr 1
          ring
  -- the number's digits end at the power of two, or it is a digit longer or shorter
  rcases lt_trichotomy (Int.log 2 q) (e + p - 1) with hlt | heq | hgt
  · have hpow : (2 : ℚ) ^ (Int.log 2 q + 1) ≤ 2 ^ (e + p - 1) :=
      zpow_le_zpow_right₀ (by norm_num) (by omega)
    have hround := (roundTo_le p q).trans (hpow.trans hlow)
    have hbelow : RoundsUpTo n (q / 2 ^ e) :=
      htop q ((Int.lt_zpow_succ_log_self (by norm_num) q).trans_le (hpow.trans hlow))
    refine ⟨iff_of_true hround hbelow, iff_of_true ?_ hbelow⟩
    nlinarith
  · have hulp : ulp p q = 2 ^ e := by
      rw [ulp, heq]
      congr 1
      ring
    rw [roundTo, hulp, mul_le_mul_iff_left₀ he, mul_lt_mul_iff_left₀ he, Int.cast_le,
      halfEven_le_iff, ← Int.cast_one, ← Int.cast_add, Int.cast_lt, Int.lt_add_one_iff,
      halfEven_le_iff]
    exact ⟨Iff.rfl, Iff.rfl⟩
  · have hpow : (2 : ℚ) ^ (e + p) ≤ 2 ^ Int.log 2 q :=
      zpow_le_zpow_right₀ (by norm_num) (by omega)
    have hround := (hhigh.trans hpow).trans (le_roundTo hp hq)
    have habove : ¬RoundsUpTo n (q / 2 ^ e) := by
      have hle := (hhigh.trans hpow).trans (Int.zpow_log_le_self (by norm_num) hq)
      have := (le_div_iff₀ he).mpr hle
      rintro (h | ⟨h, _⟩) <;> linarith
    refine ⟨iff_of_false (fun h => ?_) habove, iff_of_false (not_lt.mpr hround) habove⟩
    nlinarith

end Rounding
end Code2Cloud
