import Mathlib.Algebra.Order.Field.Power
import Mathlib.Data.Int.Log
import Mathlib.Data.Rat.Floor
import Mathlib.Tactic.Linarith
import Mathlib.Tactic.Ring

/-!
The result of an operation in a binary floating-point format: the exact result, rounded to
the nearest number of the format, ties to even. Results that are too small for a full
significand are rounded to the last digit that the format has. The exponents have no
upper end here: a result that would overflow is kept, as large as it is.
-/
namespace EsSensor.FloatRounding

/-- The nearest whole number, and the even one of two. -/
def roundEven (x : ℚ) : ℤ :=
  if x - ⌊x⌋ < 1 / 2 ∨ x - ⌊x⌋ = 1 / 2 ∧ ⌊x⌋ % 2 = 0 then ⌊x⌋ else ⌊x⌋ + 1

/-- The digits of a significand, and the exponent of the smallest positive number. -/
structure Format where
  precision : ℕ
  minExponent : ℤ
  precision_pos : 0 < precision

def binary32 : Format := ⟨24, -149, by decide⟩

def binary64 : Format := ⟨53, -1074, by decide⟩

theorem abs_sub_roundEven_le (x : ℚ) : |x - roundEven x| ≤ 1 / 2 := by
  have hlow := Int.floor_le x
  have hhigh := Int.lt_floor_add_one x
  unfold roundEven
  split
  · rename_i hdown
    have hhalf : x - ⌊x⌋ ≤ 1 / 2 := hdown.elim le_of_lt (fun h => h.1.le)
    rw [abs_le]
    constructor <;> linarith
  · rename_i hup
    have hhalf : 1 / 2 ≤ x - ⌊x⌋ := not_lt.mp (fun h => hup (Or.inl h))
    push_cast
    rw [abs_le]
    constructor <;> linarith

/-- At a tie the result is even. -/
theorem roundEven_even {x : ℚ} (htie : |x - roundEven x| = 1 / 2) : roundEven x % 2 = 0 := by
  have hlow := Int.floor_le x
  have hhigh := Int.lt_floor_add_one x
  unfold roundEven at htie ⊢
  split at htie
  · rename_i hdown
    rw [if_pos hdown]
    rw [abs_of_nonneg (by linarith)] at htie
    rcases hdown with hlt | ⟨_, heven⟩
    · exact absurd htie hlt.ne
    · exact heven
  · rename_i hup
    rw [if_neg hup]
    push_cast at htie
    rw [abs_of_nonpos (by linarith)] at htie
    have heq : x - ⌊x⌋ = 1 / 2 := by linarith
    have hodd : ⌊x⌋ % 2 ≠ 0 := fun h => hup (Or.inr ⟨heq, h⟩)
    omega

/-- No other whole number is as near, or as near and even. -/
theorem eq_roundEven {x : ℚ} {n : ℤ} (hnear : |x - n| ≤ 1 / 2)
    (heven : |x - n| = 1 / 2 → n % 2 = 0) : roundEven x = n := by
  have hnear' := abs_sub_roundEven_le x
  rw [abs_le] at hnear hnear'
  rcases lt_trichotomy (roundEven x) n with hlt | heq | hgt
  · have hstep : (roundEven x : ℚ) + 1 ≤ n := by exact_mod_cast hlt
    have hx : x = n - 1 / 2 := by linarith
    have htie : (roundEven x : ℚ) = n - 1 := by linarith
    have hn := heven (by rw [hx, sub_right_comm, sub_self, zero_sub, abs_neg]; norm_num)
    have hr := roundEven_even (x := x) (by rw [htie, hx]; norm_num)
    have htie' : roundEven x = n - 1 := by exact_mod_cast htie
    omega
  · exact heq
  · have hstep : (n : ℚ) + 1 ≤ roundEven x := by exact_mod_cast hgt
    have hx : x = n + 1 / 2 := by linarith
    have htie : (roundEven x : ℚ) = n + 1 := by linarith
    have hn := heven (by rw [hx, add_sub_cancel_left]; norm_num)
    have hr := roundEven_even (x := x) (by rw [htie, hx]; norm_num)
    have htie' : roundEven x = n + 1 := by exact_mod_cast htie
    omega

@[simp] theorem roundEven_intCast (n : ℤ) : roundEven n = n :=
  eq_roundEven (by norm_num) (by norm_num)

theorem roundEven_neg (x : ℚ) : roundEven (-x) = -roundEven x := by
  have hflip : |-x - (-roundEven x : ℤ)| = |x - roundEven x| := by
    rw [← abs_neg]
    congr 1
    push_cast
    ring
  refine eq_roundEven ?_ ?_
  · rw [hflip]
    exact abs_sub_roundEven_le x
  · rw [hflip]
    intro htie
    have heven := roundEven_even htie
    omega

theorem roundEven_mono {x y : ℚ} (hxy : x ≤ y) : roundEven x ≤ roundEven y := by
  by_contra hlt
  have hstep : (roundEven y : ℚ) + 1 ≤ roundEven x := by exact_mod_cast not_le.mp hlt
  have hx := abs_le.mp (abs_sub_roundEven_le x)
  have hy := abs_le.mp (abs_sub_roundEven_le y)
  -- both are half way between the two, and one number is not rounded two ways
  have heq : x = y := by linarith
  rw [heq] at hlt
  exact hlt le_rfl

namespace Format

variable (f : Format)

/-- The exponent of the last digit that is kept. -/
def lastExponent (x : ℚ) : ℤ :=
  if x = 0 then f.minExponent else max (Int.log 2 |x| - (f.precision - 1)) f.minExponent

/-- What one more in the last digit is worth. -/
def ulp (x : ℚ) : ℚ := 2 ^ f.lastExponent x

def round (x : ℚ) : ℚ := roundEven (x / f.ulp x) * f.ulp x

/-- The numbers of the format. -/
def Representable (x : ℚ) : Prop :=
  ∃ m e : ℤ, |(m : ℚ)| < 2 ^ f.precision ∧ f.minExponent ≤ e ∧ x = m * 2 ^ e

variable {f}

theorem ulp_pos (x : ℚ) : 0 < f.ulp x := zpow_pos (by norm_num) _

theorem lastExponent_le_iff {x : ℚ} {e : ℤ} :
    f.lastExponent x ≤ e ↔ f.minExponent ≤ e ∧ |x| < 2 ^ (e + f.precision) := by
  unfold lastExponent
  by_cases hzero : x = 0
  · have hpow : (0 : ℚ) < 2 ^ (e + f.precision) := zpow_pos (by norm_num) _
    rw [if_pos hzero, hzero, abs_zero, and_iff_left hpow]
  · have hlog := Int.lt_zpow_iff_log_lt (R := ℚ) (b := 2) (by decide) (x := e + f.precision)
      (abs_pos.mpr hzero)
    push_cast at hlog
    rw [if_neg hzero, max_le_iff, hlog]
    omega

theorem minExponent_le (x : ℚ) : f.minExponent ≤ f.lastExponent x :=
  (lastExponent_le_iff.mp le_rfl).1

theorem abs_lt_zpow (x : ℚ) : |x| < 2 ^ (f.lastExponent x + f.precision) :=
  (lastExponent_le_iff.mp le_rfl).2

theorem lastExponent_mono {x y : ℚ} (hxy : |x| ≤ |y|) : f.lastExponent x ≤ f.lastExponent y :=
  lastExponent_le_iff.mpr ⟨minExponent_le y, hxy.trans_lt (abs_lt_zpow y)⟩

@[simp] theorem lastExponent_neg (x : ℚ) : f.lastExponent (-x) = f.lastExponent x :=
  le_antisymm (lastExponent_mono (abs_neg x).le) (lastExponent_mono (abs_neg x).ge)

@[simp] theorem round_neg (x : ℚ) : f.round (-x) = -f.round x := by
  rw [round, ulp, lastExponent_neg, neg_div, roundEven_neg, round, ulp]
  push_cast
  ring

/-- A multiple of a higher power of two, in units of the last digit. -/
theorem exists_multiple {x : ℚ} {e : ℤ} (he : f.lastExponent x ≤ e) (n : ℤ) :
    ∃ m : ℤ, (n : ℚ) * 2 ^ e = m * f.ulp x := by
  obtain ⟨k, hk⟩ := Int.le.dest he
  refine ⟨n * 2 ^ k, ?_⟩
  rw [ulp, ← hk, zpow_add₀ two_ne_zero, zpow_natCast]
  push_cast
  ring

/-- Rounding does not pass a number that is as coarse as the last digit. -/
theorem round_le_of_le {x : ℚ} {n e : ℤ} (he : f.lastExponent x ≤ e) (hx : x ≤ n * 2 ^ e) :
    f.round x ≤ n * 2 ^ e := by
  obtain ⟨m, hm⟩ := exists_multiple he n
  rw [hm] at hx ⊢
  have hquotient := roundEven_mono ((div_le_iff₀ (ulp_pos (f := f) x)).mpr hx)
  rw [roundEven_intCast] at hquotient
  exact mul_le_mul_of_nonneg_right (by exact_mod_cast hquotient) (ulp_pos x).le

theorem le_round_of_le {x : ℚ} {n e : ℤ} (he : f.lastExponent x ≤ e) (hx : n * 2 ^ e ≤ x) :
    n * 2 ^ e ≤ f.round x := by
  have hneg := round_le_of_le (f := f) (x := -x) (n := -n) (e := e)
    (by rwa [lastExponent_neg]) (by push_cast; linarith)
  rw [round_neg] at hneg
  push_cast at hneg
  linarith

/-- The numbers of the format are kept. -/
theorem round_of_representable {x : ℚ} (hx : f.Representable x) : f.round x = x := by
  obtain ⟨m, e, hm, he, rfl⟩ := hx
  have hlast : f.lastExponent (m * 2 ^ e) ≤ e := by
    have hpow : (0 : ℚ) < 2 ^ e := zpow_pos (by norm_num) _
    rw [lastExponent_le_iff, abs_mul, abs_of_pos hpow, add_comm, zpow_add₀ two_ne_zero,
      zpow_natCast]
    exact ⟨he, mul_lt_mul_of_pos_right hm hpow⟩
  exact le_antisymm (round_le_of_le hlast le_rfl) (le_round_of_le hlast le_rfl)

theorem round_nonneg {x : ℚ} (hx : 0 ≤ x) : 0 ≤ f.round x := by
  have hle := le_round_of_le (f := f) (x := x) (n := 0) le_rfl (by simpa using hx)
  simpa using hle

/-- Where the last digit of the larger number is worth more, a power of two lies between. -/
theorem round_le_round_of_nonneg {x y : ℚ} (hx : 0 ≤ x) (hxy : x ≤ y) :
    f.round x ≤ f.round y := by
  have hle : f.lastExponent x ≤ f.lastExponent y :=
    lastExponent_mono (by rwa [abs_of_nonneg hx, abs_of_nonneg (hx.trans hxy)])
  rcases hle.eq_or_lt with heq | hlt
  · have hulp : f.ulp x = f.ulp y := by rw [ulp, heq, ulp]
    have hpos := ulp_pos (f := f) y
    rw [round, round, hulp]
    have hquotient := roundEven_mono ((div_le_div_iff_of_pos_right hpos).mpr hxy)
    exact mul_le_mul_of_nonneg_right (by exact_mod_cast hquotient) hpos.le
  · have hprecision := f.precision_pos
    have hmin := minExponent_le (f := f) x
    -- the power at which the exponent of the last digit reaches that of `y`
    have hbelow : |x| < 2 ^ (f.lastExponent y - 1 + f.precision) :=
      (lastExponent_le_iff.mp (by omega)).2
    have habove : 2 ^ (f.lastExponent y - 1 + f.precision) ≤ |y| := by
      by_contra hlt'
      have hlow := lastExponent_le_iff.mpr ⟨(by omega), not_le.mp hlt'⟩
      omega
    rw [abs_of_nonneg hx] at hbelow
    rw [abs_of_nonneg (hx.trans hxy)] at habove
    calc f.round x
        ≤ (1 : ℤ) * 2 ^ (f.lastExponent y - 1 + f.precision) :=
          round_le_of_le (by omega) (by simpa using hbelow.le)
      _ ≤ f.round y := le_round_of_le (by omega) (by simpa using habove)

theorem round_mono : Monotone f.round := by
  intro x y hxy
  rcases le_total 0 x with hx | hx
  · exact round_le_round_of_nonneg hx hxy
  rcases le_total 0 y with hy | hy
  · have hneg := round_nonneg (f := f) (neg_nonneg.mpr hx)
    rw [round_neg] at hneg
    exact (neg_nonneg.mp hneg).trans (round_nonneg hy)
  · have hneg := round_le_round_of_nonneg (f := f) (neg_nonneg.mpr hy) (neg_le_neg hxy)
    rw [round_neg, round_neg] at hneg
    exact neg_le_neg_iff.mp hneg

/-- A whole number with few digits before its zeros is kept. -/
theorem round_natCast_mul_pow {m : ℕ} (hm : m < 2 ^ f.precision) (hmin : f.minExponent ≤ 0)
    (k : ℕ) : f.round ((m * 2 ^ k : ℕ) : ℚ) = (m * 2 ^ k : ℕ) := by
  refine round_of_representable ⟨m, k, ?_, hmin.trans (Int.natCast_nonneg k), ?_⟩
  · rw [Int.cast_natCast, Nat.abs_cast]
    exact_mod_cast hm
  · push_cast
    rfl

theorem round_natCast {n : ℕ} (hn : n < 2 ^ f.precision) (hmin : f.minExponent ≤ 0) :
    f.round n = n := by
  simpa using round_natCast_mul_pow hn hmin 0

/-- Half of the last digit at most is lost. -/
theorem abs_round_sub_le {x : ℚ} {k : ℤ} (hx : |x| < 2 ^ k)
    (hmin : f.minExponent + f.precision ≤ k) : |f.round x - x| ≤ 2 ^ (k - f.precision - 1) := by
  have hpos := ulp_pos (f := f) x
  have hulp : f.ulp x ≤ 2 ^ (k - f.precision) := by
    refine zpow_le_zpow_right₀ one_le_two (lastExponent_le_iff.mpr ⟨by omega, ?_⟩)
    rwa [sub_add_cancel]
  have hquotient := abs_sub_roundEven_le (x / f.ulp x)
  calc |f.round x - x|
      = |x / f.ulp x - roundEven (x / f.ulp x)| * f.ulp x := by
        rw [abs_sub_comm, ← abs_of_pos hpos, ← abs_mul, abs_of_pos hpos, sub_mul,
          div_mul_cancel₀ _ hpos.ne', round]
    _ ≤ 1 / 2 * 2 ^ (k - f.precision) := mul_le_mul hquotient hulp hpos.le (by norm_num)
    _ = 2 ^ (k - f.precision - 1) := by
        rw [zpow_sub_one₀ two_ne_zero, mul_comm, one_div]

end Format

/-- A tie goes to the even significand, and a number below the smallest full significand
keeps fewer digits. -/
example : binary32.round (2 ^ 24 + 1) = 2 ^ 24 ∧ binary32.round (1 / 10) = 13421773 / 2 ^ 27 ∧
    binary32.round (3 / 2 ^ 150) = 1 / 2 ^ 148 := by decide +kernel

end EsSensor.FloatRounding
