import Mathlib.Data.Nat.Bitwise
import Mathlib.Data.Nat.Size
import Mathlib.Tactic.Common

/-!
Filling a word with ones below its highest one, by shifts that double.
-/
namespace EsSensor.BitSmear

/-- `x |= x >> s` for each of the shifts. -/
def smear (shifts : List ℕ) (x : ℕ) : ℕ := shifts.foldl (fun x s => x ||| x >>> s) x

/-- Each bit is the disjunction of the `n` bits of `x` from there on. -/
def Covers (x n y : ℕ) : Prop :=
  ∀ i, y.testBit i = true ↔ ∃ d < n, x.testBit (i + d) = true

theorem covers_one (x : ℕ) : Covers x 1 x := by
  intro i
  constructor
  · intro hi
    exact ⟨0, Nat.one_pos, hi⟩
  · rintro ⟨d, hd, hbit⟩
    obtain rfl : d = 0 := by omega
    exact hbit

theorem Covers.double {x n y : ℕ} (h : Covers x n y) : Covers x (n + n) (y ||| y >>> n) := by
  intro i
  rw [Nat.testBit_or, Nat.testBit_shiftRight, Bool.or_eq_true, h i, h (n + i)]
  constructor
  · rintro (⟨d, hd, hbit⟩ | ⟨d, hd, hbit⟩)
    · exact ⟨d, by omega, hbit⟩
    · exact ⟨n + d, by omega, by rwa [show i + (n + d) = n + i + d by omega]⟩
  · rintro ⟨d, hd, hbit⟩
    by_cases hlow : d < n
    · exact Or.inl ⟨d, hlow, hbit⟩
    · refine Or.inr ⟨d - n, by omega, ?_⟩
      rwa [show n + i + (d - n) = i + d by omega]

/-- The shifts 1, 2, 4, ... -/
def doublings (m : ℕ) : List ℕ := (List.range m).map (fun k => 2 ^ k)

theorem covers_smear (x m : ℕ) : Covers x (2 ^ m) (smear (doublings m) x) := by
  induction m with
  | zero => exact covers_one x
  | succ m ih =>
    have hstep : smear (doublings (m + 1)) x =
        smear (doublings m) x ||| smear (doublings m) x >>> 2 ^ m := by
      simp [smear, doublings, List.range_succ]
    rw [hstep, Nat.pow_succ, Nat.mul_two]
    exact ih.double

/-- A number has a one at some place from `i` on when it is as long as that. -/
theorem exists_testBit_iff {x i : ℕ} : (∃ j ≥ i, x.testBit j = true) ↔ i < x.size := by
  rw [Nat.lt_size]
  constructor
  · rintro ⟨j, hj, hbit⟩
    exact (Nat.pow_le_pow_right (by omega) hj).trans (Nat.ge_two_pow_of_testBit hbit)
  · intro hle
    obtain ⟨j, hj, hbit⟩ := Nat.exists_ge_and_testBit_of_ge_two_pow hle
    exact ⟨j, hj, hbit⟩

theorem smear_eq {x m : ℕ} (hx : x < 2 ^ 2 ^ m) : smear (doublings m) x = 2 ^ x.size - 1 := by
  refine Nat.eq_of_testBit_eq ?_
  intro i
  rw [Nat.testBit_two_pow_sub_one, Bool.eq_iff_iff, covers_smear x m i, decide_eq_true_eq,
    ← exists_testBit_iff]
  constructor
  · rintro ⟨d, _, hbit⟩
    exact ⟨i + d, by omega, hbit⟩
  · rintro ⟨j, hj, hbit⟩
    have hlt : j < 2 ^ m := by
      by_contra hge
      have hzero := Nat.testBit_lt_two_pow
        (hx.trans_le (Nat.pow_le_pow_right (by omega) (Nat.le_of_not_lt hge)))
      rw [hzero] at hbit
      exact Bool.false_ne_true hbit
    exact ⟨j - i, by omega, by rwa [show i + (j - i) = j by omega]⟩

/-- One more than the ones below the length is the next power of two. -/
theorem le_two_pow_size {x : ℕ} (hx : 1 ≤ x) : x ≤ 2 ^ (x - 1).size := by
  have hlt := Nat.lt_size_self (x - 1)
  omega

theorem two_pow_size_le {x k : ℕ} (hx : 1 ≤ x) (hk : x ≤ 2 ^ k) : 2 ^ (x - 1).size ≤ 2 ^ k := by
  refine Nat.pow_le_pow_right (by omega) ?_
  rw [Nat.size_le]
  omega

end EsSensor.BitSmear
