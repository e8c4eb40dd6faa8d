import Mathlib.Algebra.BigOperators.Ring.Finset
import Mathlib.Algebra.Order.BigOperators.Group.Finset
import Mathlib.Algebra.Order.Group.PosPart
import Mathlib.Algebra.Order.Ring.Defs
import Mathlib.Tactic.Common

/-!
The values of a weighted sum whose terms are free between zero and a bound. The
largest takes the bound where the weight is positive, the smallest where it is
negative, so that the sums of the two parts of the weights decide the range.
-/
namespace EsSensor.WeightedRange

variable {ι α : Type*} [CommRing α] [LinearOrder α]
variable {s : Finset ι} {w x : ι → α} {bound lo hi : α}

/-- The terms that make the sum largest. -/
def highest (w : ι → α) (bound : α) (i : ι) : α := if 0 < w i then bound else 0

/-- The terms that make the sum smallest. -/
def lowest (w : ι → α) (bound : α) (i : ι) : α := if w i < 0 then bound else 0

theorem bound_or_zero_mem (hbound : 0 ≤ bound) (p : Prop) [Decidable p] :
    0 ≤ (if p then bound else 0) ∧ (if p then bound else 0) ≤ bound := by
  split
  · exact ⟨hbound, le_refl bound⟩
  · exact ⟨le_refl 0, hbound⟩

theorem sum_highest : ∑ i ∈ s, w i * highest w bound i = bound * ∑ i ∈ s, (w i)⁺ := by
  rw [Finset.mul_sum]
  refine Finset.sum_congr rfl (fun i _ => ?_)
  unfold highest
  split
  · rename_i hpos
    rw [posPart_of_nonneg hpos.le, mul_comm]
  · rename_i hnot
    rw [posPart_of_nonpos (not_lt.mp hnot), mul_zero, mul_zero]

variable [IsStrictOrderedRing α]

theorem sum_lowest : ∑ i ∈ s, w i * lowest w bound i = -(bound * ∑ i ∈ s, (w i)⁻) := by
  rw [Finset.mul_sum, ← Finset.sum_neg_distrib]
  refine Finset.sum_congr rfl (fun i _ => ?_)
  unfold lowest
  split
  · rename_i hneg
    rw [negPart_of_nonpos hneg.le, mul_neg, neg_neg, mul_comm]
  · rename_i hnot
    rw [negPart_of_nonneg (not_lt.mp hnot), mul_zero, mul_zero, neg_zero]

theorem mul_le_posPart {w x : α} (hx : 0 ≤ x) (hbound : x ≤ bound) : w * x ≤ bound * w⁺ :=
  calc w * x ≤ w⁺ * x := mul_le_mul_of_nonneg_right (le_posPart w) hx
    _ ≤ w⁺ * bound := mul_le_mul_of_nonneg_left hbound (posPart_nonneg w)
    _ = bound * w⁺ := mul_comm _ _

theorem neg_negPart_le_mul {w x : α} (hx : 0 ≤ x) (hbound : x ≤ bound) :
    -(bound * w⁻) ≤ w * x := by
  have hneg := mul_le_posPart (w := -w) hx hbound
  rw [neg_mul, posPart_neg] at hneg
  exact neg_le.mp hneg

theorem sum_le (hx : ∀ i ∈ s, 0 ≤ x i ∧ x i ≤ bound) :
    ∑ i ∈ s, w i * x i ≤ bound * ∑ i ∈ s, (w i)⁺ := by
  rw [Finset.mul_sum]
  exact Finset.sum_le_sum (fun i hi => mul_le_posPart (hx i hi).1 (hx i hi).2)

theorem le_sum (hx : ∀ i ∈ s, 0 ≤ x i ∧ x i ≤ bound) :
    -(bound * ∑ i ∈ s, (w i)⁻) ≤ ∑ i ∈ s, w i * x i := by
  rw [Finset.mul_sum, ← Finset.sum_neg_distrib]
  exact Finset.sum_le_sum (fun i hi => neg_negPart_le_mul (hx i hi).1 (hx i hi).2)

/-- Every choice of the terms stays strictly between two values exactly when the
extreme choices do. -/
theorem forall_between_iff (hbound : 0 ≤ bound) :
    (∀ x : ι → α, (∀ i ∈ s, 0 ≤ x i ∧ x i ≤ bound) →
        lo < ∑ i ∈ s, w i * x i ∧ ∑ i ∈ s, w i * x i < hi) ↔
      lo < -(bound * ∑ i ∈ s, (w i)⁻) ∧ bound * ∑ i ∈ s, (w i)⁺ < hi := by
  constructor
  · intro hall
    have hlow := (hall (lowest w bound) (fun i _ => bound_or_zero_mem hbound (w i < 0))).1
    have hhigh := (hall (highest w bound) (fun i _ => bound_or_zero_mem hbound (0 < w i))).2
    rw [sum_lowest] at hlow
    rw [sum_highest] at hhigh
    exact ⟨hlow, hhigh⟩
  · rintro ⟨hlow, hhigh⟩ x hx
    exact ⟨lt_of_lt_of_le hlow (le_sum hx), lt_of_le_of_lt (sum_le hx) hhigh⟩

end EsSensor.WeightedRange
