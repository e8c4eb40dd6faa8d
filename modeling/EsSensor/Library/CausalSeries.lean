import Mathlib.RingTheory.PowerSeries.Basic
import Mathlib.RingTheory.PowerSeries.WellKnown
import Mathlib.Algebra.Polynomial.Eval.Degree
import Mathlib.Algebra.Order.BigOperators.Group.Finset
import Mathlib.Algebra.Order.Ring.GeomSum
import Mathlib.Tactic.LinearCombination

/-!
Causal signals over a commutative ring as formal power series: the coefficient
of index n is the sample at time n, and a filter is multiplication by its
impulse response. Running sums and delayed differences cancel to a moving sum,
whose N-fold convolution has the explicit coefficients given at the end.
-/
namespace EsSensor.CausalSeries

open PowerSeries Finset

section Filters

variable (α : Type*) [CommRing α]

/-- The running sum of a signal. -/
noncomputable def integrator : α⟦X⟧ := mk 1

/-- The difference to the sample `R` steps earlier. -/
noncomputable def comb (R : ℕ) : α⟦X⟧ := 1 - X ^ R

/-- The sum of the last `R` samples. -/
noncomputable def movingSum (R : ℕ) : α⟦X⟧ := ∑ i ∈ range R, X ^ i

theorem integrator_eq : integrator α = 1 + X * integrator α := by
  have h : integrator α * (1 - X) = 1 := mk_one_mul_one_sub_eq_one α
  linear_combination h

theorem comb_mul_integrator (R : ℕ) : comb α R * integrator α = movingSum α R := by
  have hsum : movingSum α R * (1 - X) = comb α R := geom_sum_mul_neg X R
  have hint : integrator α * (1 - X) = 1 := mk_one_mul_one_sub_eq_one α
  calc
    comb α R * integrator α = movingSum α R * (integrator α * (1 - X)) := by
      rw [← hsum]
      ring
    _ = movingSum α R := by rw [hint, mul_one]

theorem comb_pow_mul_integrator_pow (R N : ℕ) :
    comb α R ^ N * integrator α ^ N = movingSum α R ^ N := by
  rw [← mul_pow, comb_mul_integrator]

end Filters

/-! The impulse response of N moving sums, as a computable convolution. -/

/-- The all-ones sequence of length `R`. -/
def ones (R : ℕ) : ℕ → ℕ := fun i => if i < R then 1 else 0

def convolve (f g : ℕ → ℕ) : ℕ → ℕ := fun n => ∑ p ∈ antidiagonal n, f p.1 * g p.2

/-- The `N`-fold convolution of `f`, starting from the unit impulse. -/
def iterConvolve (f : ℕ → ℕ) : ℕ → ℕ → ℕ
  | 0 => fun i => if i = 0 then 1 else 0
  | N + 1 => convolve f (iterConvolve f N)

theorem coeff_sum_X_pow (R i : ℕ) :
    (∑ j ∈ range R, (Polynomial.X : Polynomial ℕ) ^ j).coeff i = ones R i := by
  simp [Polynomial.finsetSum_coeff, Polynomial.coeff_X_pow, ones]

theorem iterConvolve_eq_coeff (R N i : ℕ) :
    iterConvolve (ones R) N i =
      ((∑ j ∈ range R, (Polynomial.X : Polynomial ℕ) ^ j) ^ N).coeff i := by
  induction N generalizing i with
  | zero => simp [iterConvolve, Polynomial.coeff_one]
  | succ N ih =>
    rw [pow_succ', Polynomial.coeff_mul, iterConvolve, convolve]
    apply sum_congr rfl
    intro p _
    rw [ih, coeff_sum_X_pow]

/-- The response sums to `R ^ N`, so no part of it exceeds that. -/
theorem sum_iterConvolve_le (R N m : ℕ) :
    ∑ i ∈ range m, iterConvolve (ones R) N i ≤ R ^ N := by
  set p : Polynomial ℕ := (∑ j ∈ range R, (Polynomial.X : Polynomial ℕ) ^ j) ^ N with hp
  have heval : p.eval 1 = R ^ N := by simp [hp, Polynomial.eval_finsetSum]
  have hdegree : p.natDegree < max m (p.natDegree + 1) := by omega
  calc
    ∑ i ∈ range m, iterConvolve (ones R) N i = ∑ i ∈ range m, p.coeff i := by
      apply sum_congr rfl
      intro i _
      exact iterConvolve_eq_coeff R N i
    _ ≤ ∑ i ∈ range (max m (p.natDegree + 1)), p.coeff i :=
      sum_le_sum_of_subset (range_mono (le_max_left _ _))
    _ = p.eval 1 := by
      rw [Polynomial.eval_eq_sum_range' hdegree]
      simp
    _ = R ^ N := heval

section Response

variable {α : Type*} [CommRing α]

theorem coeff_movingSum_pow (R N i : ℕ) :
    coeff i (movingSum α R ^ N) = (iterConvolve (ones R) N i : α) := by
  induction N generalizing i with
  | zero => simp [iterConvolve, coeff_one]
  | succ N ih =>
    have hone : ∀ j, coeff j (movingSum α R) = (ones R j : α) := by
      intro j
      simp [movingSum, coeff_X_pow, ones]
    rw [pow_succ', coeff_mul, iterConvolve, convolve, Nat.cast_sum]
    apply sum_congr rfl
    intro p _
    rw [hone, ih, Nat.cast_mul]

/-- The output at time `p` is the response convolved with the input so far. -/
theorem coeff_movingSum_pow_mul (R N p : ℕ) (x : ℕ → α) :
    coeff p (movingSum α R ^ N * mk x) =
      ∑ i ∈ range (p + 1), (iterConvolve (ones R) N i : α) * x (p - i) := by
  rw [coeff_mul, Nat.sum_antidiagonal_eq_sum_range_succ_mk]
  apply sum_congr rfl
  intro i _
  rw [coeff_movingSum_pow, coeff_mk]

end Response

example : (List.range 7).map (iterConvolve (ones 3) 3) = [1, 3, 6, 7, 6, 3, 1] := by decide

end EsSensor.CausalSeries
