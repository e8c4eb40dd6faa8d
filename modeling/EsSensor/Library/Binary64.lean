import Mathlib.Algebra.Order.Field.Basic
import Mathlib.Data.Nat.Log
import Mathlib.Data.Rat.Cast.Order
import Mathlib.Tactic.FieldSimp
import Mathlib.Tactic.NormNum
import Mathlib.Tactic.Positivity
import Mathlib.Tactic.Ring

/-!
Whole numbers in double precision: the word of the nearest double, ties to even, and the
number that a word stands for. Up to 53 binary digits nothing is lost, and no rounding
leaves the octave of its number.
-/
namespace EsSensor.Binary64

/-- A quotient by a power of two, to the nearest whole number. -/
def roundShift (n s : ℕ) : ℕ :=
  if 2 * (n % 2 ^ s) < 2 ^ s ∨ 2 * (n % 2 ^ s) = 2 ^ s ∧ n / 2 ^ s % 2 = 0 then n / 2 ^ s
  else n / 2 ^ s + 1

/-- The 53 leading digits; rounding up may give one more. -/
def significand (n : ℕ) : ℕ :=
  if n.log2 ≤ 52 then n * 2 ^ (52 - n.log2) else roundShift n (n.log2 - 52)

/-- The word of a whole number. The leading digit is added to the exponent, and so is what
rounding carries over. -/
def ofNat (n : ℕ) : ℕ := if n = 0 then 0 else (n.log2 + 1022) * 2 ^ 52 + significand n

/-- What the fields of a word stand for, its sign apart. -/
def size (exponent fraction : ℕ) : ℚ :=
  if exponent = 0 then fraction / 2 ^ 1074 else (2 ^ 52 + fraction) * 2 ^ exponent / 2 ^ 1075

/-- The number that a word stands for, unless it stands for none. -/
def value (bits : ℕ) : Option ℚ :=
  let exponent := bits / 2 ^ 52 % 2 ^ 11
  let magnitude := size exponent (bits % 2 ^ 52)
  if exponent = 2047 then none
  else some (if bits / 2 ^ 63 % 2 = 1 then -magnitude else magnitude)

theorem log2_bounds {n : ℕ} (hn : n ≠ 0) : 2 ^ n.log2 ≤ n ∧ n < 2 ^ (n.log2 + 1) :=
  ⟨Nat.log2_self_le hn, Nat.lt_log2_self⟩

/-- The leading digit is where it belongs, or one place higher. -/
theorem significand_bounds {n : ℕ} (hn : n ≠ 0) :
    2 ^ 52 ≤ significand n ∧ significand n ≤ 2 ^ 53 := by
  obtain ⟨hlow, hhigh⟩ := log2_bounds hn
  unfold significand
  split
  · rename_i hsmall
    have hpow : 2 ^ n.log2 * 2 ^ (52 - n.log2) = 2 ^ 52 := by
      rw [← Nat.pow_add, Nat.add_sub_cancel' hsmall]
    have hdouble : 2 ^ (n.log2 + 1) * 2 ^ (52 - n.log2) = 2 ^ 53 := by
      rw [← Nat.pow_add]
      congr 1
      omega
    rw [← hpow, ← hdouble]
    exact ⟨Nat.mul_le_mul_right _ hlow, Nat.mul_le_mul_right _ hhigh.le⟩
  · rename_i hlarge
    have hpow : 2 ^ 52 * 2 ^ (n.log2 - 52) = 2 ^ n.log2 := by
      rw [← Nat.pow_add]
      congr 1
      omega
    have hdouble : 2 ^ 53 * 2 ^ (n.log2 - 52) = 2 ^ (n.log2 + 1) := by
      rw [← Nat.pow_add]
      congr 1
      omega
    have hquotient : 2 ^ 52 ≤ n / 2 ^ (n.log2 - 52) := by
      rw [Nat.le_div_iff_mul_le (Nat.two_pow_pos _), hpow]
      exact hlow
    have hquotient' : n / 2 ^ (n.log2 - 52) < 2 ^ 53 := by
      rw [Nat.div_lt_iff_lt_mul (Nat.two_pow_pos _), hdouble]
      exact hhigh
    unfold roundShift
    split <;> omega

/-- A magnitude without the bias of its exponent. -/
theorem size_of_biased (e fraction : ℕ) :
    size (e + 1023) fraction = (2 ^ 52 + fraction) * 2 ^ e / 2 ^ 52 := by
  have hbias : (2 : ℚ) ^ 1075 = 2 ^ 52 * 2 ^ 1023 := (pow_add 2 52 1023)
  have hpos : (2 : ℚ) ^ 1023 ≠ 0 := pow_ne_zero _ (by norm_num)
  rw [size, if_neg (by omega), hbias, pow_add, ← mul_assoc, mul_div_mul_right _ _ hpos]

theorem value_of_fields (bits exponent fraction : ℕ) (hsign : bits < 2 ^ 63)
    (hexponent : bits / 2 ^ 52 = exponent) (hfraction : bits % 2 ^ 52 = fraction)
    (hfinite : exponent < 2047) : value bits = some (size exponent fraction) := by
  have hpositive : bits / 2 ^ 63 % 2 = 0 := by omega
  have hfield : bits / 2 ^ 52 % 2 ^ 11 = exponent := by omega
  rw [value, hfield, hfraction, hpositive, if_neg (by omega), if_neg (by decide)]

/-- The fields of a word with the leading digit in its exponent. -/
theorem value_of_significand {e s : ℕ} (he : e ≤ 1022) (hlow : 2 ^ 52 ≤ s) (hhigh : s ≤ 2 ^ 53) :
    value ((e + 1022) * 2 ^ 52 + s) = some ((s : ℚ) * 2 ^ e / 2 ^ 52) := by
  rcases Nat.lt_or_eq_of_le hhigh with hlt | heq
  · have hcast : (2 : ℚ) ^ 52 + (s - 2 ^ 52 : ℕ) = s := by
      rw [Nat.cast_sub hlow]
      push_cast
      ring
    have hvalue := value_of_fields ((e + 1022) * 2 ^ 52 + s) (e + 1023) (s - 2 ^ 52)
      (by omega) (by omega) (by omega) (by omega)
    rw [hvalue, size_of_biased, hcast]
  · have hvalue := value_of_fields ((e + 1022) * 2 ^ 52 + s) (e + 1 + 1023) 0
      (by omega) (by omega) (by omega) (by omega)
    rw [hvalue, size_of_biased, heq]
    congr 2
    push_cast
    ring

theorem value_ofNat_eq {n : ℕ} (hn : n ≠ 0) (hlog : n.log2 ≤ 1022) :
    value (ofNat n) = some ((significand n : ℚ) * 2 ^ n.log2 / 2 ^ 52) := by
  obtain ⟨hlow, hhigh⟩ := significand_bounds hn
  rw [ofNat, if_neg hn]
  exact value_of_significand hlog hlow hhigh

theorem value_zero : value 0 = some 0 := by
  simp [value, size]

/-- Nothing is lost of a number that has no more than 53 digits. -/
theorem value_ofNat_of_lt {n : ℕ} (hn : n < 2 ^ 53) : value (ofNat n) = some (n : ℚ) := by
  by_cases hzero : n = 0
  · rw [hzero, ofNat, if_pos rfl, value_zero, Nat.cast_zero]
  · have hlog : n.log2 < 53 := (Nat.log2_lt hzero).mpr hn
    have hpow : (2 : ℚ) ^ (52 - n.log2) * 2 ^ n.log2 = 2 ^ 52 := by
      rw [← pow_add, Nat.sub_add_cancel (by omega)]
    rw [value_ofNat_eq hzero (by omega), significand, if_pos (by omega)]
    congr 1
    push_cast
    rw [mul_assoc, hpow, mul_div_assoc, div_self (by positivity), mul_one]

/-- Rounding stays within the octave. -/
theorem exists_value_ofNat {n : ℕ} (hn : n ≠ 0) (hlog : n.log2 ≤ 1022) :
    ∃ x : ℚ, value (ofNat n) = some x ∧ 2 ^ n.log2 ≤ x ∧ x ≤ 2 ^ (n.log2 + 1) := by
  obtain ⟨hlow, hhigh⟩ := significand_bounds hn
  have hlow' : (2 : ℚ) ^ 52 ≤ significand n := by exact_mod_cast hlow
  have hhigh' : (significand n : ℚ) ≤ 2 ^ 53 := by exact_mod_cast hhigh
  refine ⟨_, value_ofNat_eq hn hlog, ?_, ?_⟩
  · rw [le_div_iff₀ (by positivity), mul_comm]
    exact mul_le_mul_of_nonneg_right hlow' (by positivity)
  · rw [div_le_iff₀ (by positivity)]
    calc (significand n : ℚ) * 2 ^ n.log2
        ≤ 2 ^ 53 * 2 ^ n.log2 := mul_le_mul_of_nonneg_right hhigh' (by positivity)
      _ = 2 ^ (n.log2 + 1) * 2 ^ 52 := by ring

/-- The word of a number below the largest exponent has 63 bits. -/
theorem ofNat_lt {n : ℕ} (hlog : n.log2 ≤ 1022) : ofNat n < 2 ^ 63 := by
  unfold ofNat
  split
  · decide
  · rename_i hn
    have hhigh := (significand_bounds hn).2
    omega

end EsSensor.Binary64
