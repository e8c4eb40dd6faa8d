import Mathlib.Algebra.BigOperators.Ring.Finset
import Mathlib.Algebra.Order.Chebyshev
import Mathlib.Algebra.Order.Field.Basic
import Mathlib.Tactic.Linarith
import Mathlib.Tactic.Ring

/-!
Sums of complex samples that are each turned by a phasor, as a discrete transform makes
them. The power of such a sum is bounded by that of its samples.
-/
namespace EsSensor.PhasorSum

open Finset

variable {K : Type*} [Field K]

/-- The power of a complex value. -/
def power (z : K × K) : K := z.1 ^ 2 + z.2 ^ 2

def mul (z w : K × K) : K × K := (z.1 * w.1 - z.2 * w.2, z.1 * w.2 + z.2 * w.1)

/-- n samples, each multiplied by its phasor, and added up. -/
def phasorSum (n : ℕ) (w : ℕ → K × K) (x : ℕ → K × K) : K × K :=
  (∑ k ∈ range n, (mul (x k) (w k)).1, ∑ k ∈ range n, (mul (x k) (w k)).2)

theorem power_mul (z w : K × K) : power (mul z w) = power z * power w := by
  unfold power mul
  ring

variable [LinearOrder K] [IsStrictOrderedRing K]

theorem power_nonneg (z : K × K) : 0 ≤ power z := add_nonneg (sq_nonneg _) (sq_nonneg _)

/-- Phasors of length one leave n times the power of all samples as the largest power. -/
theorem power_phasorSum_le (n : ℕ) {w : ℕ → K × K} (hw : ∀ k, power (w k) = 1)
    (x : ℕ → K × K) : power (phasorSum n w x) ≤ n * ∑ k ∈ range n, power (x k) := by
  have hreal := sq_sum_le_card_mul_sum_sq (s := range n) (f := fun k => (mul (x k) (w k)).1)
  have himag := sq_sum_le_card_mul_sum_sq (s := range n) (f := fun k => (mul (x k) (w k)).2)
  rw [card_range] at hreal himag
  have hterms : ∑ k ∈ range n, (mul (x k) (w k)).1 ^ 2 + ∑ k ∈ range n, (mul (x k) (w k)).2 ^ 2 =
      ∑ k ∈ range n, power (x k) := by
    rw [← sum_add_distrib]
    apply sum_congr rfl
    intro k _
    show power (mul (x k) (w k)) = power (x k)
    rw [power_mul, hw, mul_one]
  calc power (phasorSum n w x)
      ≤ n * ∑ k ∈ range n, (mul (x k) (w k)).1 ^ 2 +
          n * ∑ k ∈ range n, (mul (x k) (w k)).2 ^ 2 := add_le_add hreal himag
    _ = n * ∑ k ∈ range n, power (x k) := by rw [← mul_add, hterms]

/-- Samples of bounded power. -/
theorem power_phasorSum_le_of_le (n : ℕ) {w : ℕ → K × K} (hw : ∀ k, power (w k) = 1)
    {x : ℕ → K × K} {bound : K} (hx : ∀ k < n, power (x k) ≤ bound) :
    power (phasorSum n w x) ≤ (n : K) ^ 2 * bound := by
  have hsum : ∑ k ∈ range n, power (x k) ≤ n * bound := by
    have hle := sum_le_card_nsmul (range n) (fun k => power (x k)) bound
      (fun k hk => hx k (mem_range.mp hk))
    rwa [card_range, nsmul_eq_mul] at hle
  calc power (phasorSum n w x)
      ≤ n * ∑ k ∈ range n, power (x k) := power_phasorSum_le n hw x
    _ ≤ n * (n * bound) := mul_le_mul_of_nonneg_left hsum (Nat.cast_nonneg n)
    _ = (n : K) ^ 2 * bound := by ring

end EsSensor.PhasorSum
