import Mathlib.Algebra.Order.Field.Power
import Mathlib.Tactic.FieldSimp
import Mathlib.Tactic.Linarith
import Mathlib.Tactic.Ring
import EsSensor.Library.CheckedLoop

/-!
Moving powers of two between a number and the exponent that goes with it. Every
round of such a loop leaves `mantissa * 2 ^ shift` as it was, so a loop is known
from the shift it stops at. Words cut into bit fields are put together again.
-/
namespace EsSensor.BinaryScaling

open CheckedLoop

universe u

/-- A mantissa that still owes `2 ^ shift`. -/
structure Scaled (K : Type u) where
  mantissa : K
  shift : ℤ

namespace Scaled

variable {K : Type u} [Field K]

def value (s : Scaled K) : K := s.mantissa * 2 ^ s.shift

def double (s : Scaled K) : Scaled K := ⟨s.mantissa * 2, s.shift - 1⟩

def halve (s : Scaled K) : Scaled K := ⟨s.mantissa / 2, s.shift + 1⟩

@[simp] theorem shift_double (s : Scaled K) : s.double.shift = s.shift - 1 := rfl

@[simp] theorem shift_halve (s : Scaled K) : s.halve.shift = s.shift + 1 := rfl

variable [LinearOrder K] [IsStrictOrderedRing K]

@[simp] theorem value_double (s : Scaled K) : s.double.value = s.value := by
  have htwo : (2 : K) ≠ 0 := two_ne_zero
  rw [value, double, zpow_sub_one₀ htwo, value]
  field_simp

@[simp] theorem value_halve (s : Scaled K) : s.halve.value = s.value := by
  have htwo : (2 : K) ≠ 0 := two_ne_zero
  rw [value, halve, zpow_add_one₀ htwo, value]
  field_simp

theorem mantissa_eq {s : Scaled K} {m : K} {e : ℤ} (hs : s.value = m * 2 ^ e) :
    s.mantissa = m * 2 ^ (e - s.shift) := by
  have htwo : (2 : K) ≠ 0 := two_ne_zero
  have hpow : (2 : K) ^ s.shift ≠ 0 := zpow_ne_zero _ htwo
  rw [value] at hs
  rw [zpow_sub₀ htwo, ← mul_div_assoc, ← hs, mul_div_cancel_right₀ _ hpow]

/-- The value and the shift make out the mantissa. -/
theorem eq_of_value {s : Scaled K} {m : K} {e : ℤ} (hs : s.value = m * 2 ^ e)
    (hshift : s.shift = e) : s = ⟨m, e⟩ := by
  have hm := mantissa_eq hs
  rw [hshift, sub_self, zpow_zero, mul_one] at hm
  rw [← hm, ← hshift]

/-- Against a mantissa in `[1, 2)`, the size of the own one tells how far its shift is. -/
theorem two_le_mantissa_iff {s : Scaled K} {m : K} {e : ℤ} (hs : s.value = m * 2 ^ e)
    (hone : 1 ≤ m) (htwo : m < 2) : 2 ≤ s.mantissa ↔ s.shift < e := by
  rw [mantissa_eq hs]
  constructor
  · intro hle
    by_contra hshift
    have hpow : (2 : K) ^ (e - s.shift) ≤ 1 := zpow_le_one_of_nonpos₀ one_le_two (by omega)
    nlinarith
  · intro hshift
    have hpow : (2 : K) ^ (1 : ℤ) ≤ 2 ^ (e - s.shift) :=
      zpow_le_zpow_right₀ one_le_two (by omega)
    rw [zpow_one] at hpow
    nlinarith

theorem mantissa_lt_one_iff {s : Scaled K} {m : K} {e : ℤ} (hs : s.value = m * 2 ^ e)
    (hone : 1 ≤ m) (htwo : m < 2) : s.mantissa < 1 ↔ e < s.shift := by
  rw [mantissa_eq hs]
  constructor
  · intro hlt
    by_contra hshift
    have hpow : (1 : K) ≤ 2 ^ (e - s.shift) := one_le_zpow₀ one_le_two (by omega)
    nlinarith
  · intro hshift
    have hpow : (2 : K) ^ (e - s.shift) ≤ 2 ^ (-1 : ℤ) :=
      zpow_le_zpow_right₀ one_le_two (by omega)
    rw [zpow_neg_one] at hpow
    have hhalf : (2 : K)⁻¹ * 2 = 1 := inv_mul_cancel₀ two_ne_zero
    nlinarith

/-- A loop that halves while the shift is below `e` stops at `e`, or where it was. -/
theorem whileLoop_halve (cond : Scaled K → Bool) {x : K} {e : ℤ}
    (hcond : ∀ s : Scaled K, s.value = x → (cond s = true ↔ s.shift < e))
    (fuel : ℕ) (s : Scaled K) (hs : s.value = x) (hfuel : (e - s.shift).toNat ≤ fuel) :
    ∃ t, whileLoop cond (fun s => .ok s.halve) fuel s = .ok t ∧ t.value = x ∧
      t.shift = max s.shift e := by
  -- the shift climbs by one a round and stays below the larger of its start and `e`
  have hloop : ∃ t, whileLoop cond (fun s => .ok s.halve) fuel s = .ok t ∧
      (t.value = x ∧ s.shift ≤ t.shift ∧ t.shift ≤ max s.shift e) ∧ cond t = false := by
    refine whileLoop_of_variant
      (fun t => t.value = x ∧ s.shift ≤ t.shift ∧ t.shift ≤ max s.shift e)
      (fun t => (e - t.shift).toNat) ?_ fuel s ⟨hs, le_refl _, le_max_left _ _⟩ hfuel
    rintro t ⟨hvalue, hlow, hhigh⟩ hc
    have hlt := (hcond t hvalue).mp hc
    refine ⟨t.halve, rfl, ⟨by rw [value_halve, hvalue], ?_, ?_⟩, ?_⟩
    all_goals rw [shift_halve]; omega
  obtain ⟨t, hrun, ⟨hvalue, hlow, hhigh⟩, hexit⟩ := hloop
  have hstop : ¬ t.shift < e := by
    rw [← hcond t hvalue, hexit]
    exact Bool.false_ne_true
  exact ⟨t, hrun, hvalue, by omega⟩

/-- A loop that doubles while the shift is above `e` stops at `e`, or where it was. -/
theorem whileLoop_double (cond : Scaled K → Bool) {x : K} {e : ℤ}
    (hcond : ∀ s : Scaled K, s.value = x → (cond s = true ↔ e < s.shift))
    (fuel : ℕ) (s : Scaled K) (hs : s.value = x) (hfuel : (s.shift - e).toNat ≤ fuel) :
    ∃ t, whileLoop cond (fun s => .ok s.double) fuel s = .ok t ∧ t.value = x ∧
      t.shift = min s.shift e := by
  have hloop : ∃ t, whileLoop cond (fun s => .ok s.double) fuel s = .ok t ∧
      (t.value = x ∧ t.shift ≤ s.shift ∧ min s.shift e ≤ t.shift) ∧ cond t = false := by
    refine whileLoop_of_variant
      (fun t => t.value = x ∧ t.shift ≤ s.shift ∧ min s.shift e ≤ t.shift)
      (fun t => (t.shift - e).toNat) ?_ fuel s ⟨hs, le_refl _, min_le_left _ _⟩ hfuel
    rintro t ⟨hvalue, hhigh, hlow⟩ hc
    have hlt := (hcond t hvalue).mp hc
    refine ⟨t.double, rfl, ⟨by rw [value_double, hvalue], ?_, ?_⟩, ?_⟩
    all_goals rw [shift_double]; omega
  obtain ⟨t, hrun, ⟨hvalue, hhigh, hlow⟩, hexit⟩ := hloop
  have hstop : ¬ e < t.shift := by
    rw [← hcond t hvalue, hexit]
    exact Bool.false_ne_true
  exact ⟨t, hrun, hvalue, by omega⟩

end Scaled

theorem and_two_pow_sub_one_lt (i k : ℕ) : i &&& (2 ^ k - 1) < 2 ^ k := by
  rw [Nat.and_two_pow_sub_one_eq_mod]
  exact Nat.mod_lt i (Nat.two_pow_pos k)

/-- The three fields of a word: what is above, `k` bits in the middle, and `s` bits below. -/
theorem fields_join (i s k : ℕ) :
    i >>> (s + k) <<< (s + k) ||| ((i >>> s &&& (2 ^ k - 1)) <<< s ||| i &&& (2 ^ s - 1)) = i := by
  apply Nat.eq_of_testBit_eq
  intro bit
  simp only [Nat.testBit_or, Nat.testBit_shiftLeft, Nat.testBit_shiftRight, Nat.testBit_and,
    Nat.testBit_two_pow_sub_one]
  rcases lt_or_ge bit s with hlow | hs
  · simp [hlow, show ¬ s ≤ bit by omega, show ¬ s + k ≤ bit by omega]
  · rw [show s + (bit - s) = bit by omega]
    rcases lt_or_ge bit (s + k) with hmid | hhigh
    · simp [hs, show bit - s < k by omega, show ¬ bit < s by omega, show ¬ s + k ≤ bit by omega]
    · simp [hs, hhigh, show s + k + (bit - (s + k)) = bit by omega, show ¬ bit - s < k by omega]

end EsSensor.BinaryScaling
