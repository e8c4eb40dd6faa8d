import Mathlib.Data.Nat.Notation
import Mathlib.Logic.Function.Iterate
import Mathlib.Tactic.Common

/-!
Indices that run round a buffer by comparison, in either direction, and the
residues they stand for.
-/
namespace EsSensor.CyclicIndex

/-- A counter modulo `size` either wraps, ending a period, or goes on. -/
theorem succ_cases {size : ℕ} (hsize : 1 ≤ size) (n : ℕ) :
    ((n + 1) % size = 0 ∧ n % size + 1 = size ∧ (n + 1) / size = n / size + 1) ∨
    ((n + 1) % size = n % size + 1 ∧ n % size + 1 < size ∧ (n + 1) / size = n / size) := by
  have hsplit := Nat.div_add_mod n size
  have hlt := Nat.mod_lt n hsize
  by_cases hlast : n % size + 1 = size
  · have hn : n + 1 = size * (n / size + 1) := by rw [Nat.mul_add]; omega
    refine Or.inl ⟨?_, hlast, ?_⟩
    · rw [hn, Nat.mul_mod_right]
    · conv_lhs => rw [hn]
      exact Nat.mul_div_cancel_left _ hsize
  · have hnext : n % size + 1 < size := by omega
    have hn : n + 1 = size * (n / size) + (n % size + 1) := by omega
    refine Or.inr ⟨?_, hnext, ?_⟩
    · conv_lhs => rw [hn, Nat.mul_add_mod, Nat.mod_eq_of_lt hnext]
    · conv_lhs => rw [hn, Nat.mul_add_div hsize, Nat.div_eq_of_lt hnext, Nat.add_zero]

/-- `index++; if (index >= size) index = 0;` -/
def next (size index : ℕ) : ℕ := if size ≤ index + 1 then 0 else index + 1

/-- `if (!index) index = size - 1; else index--;` -/
def prev (size index : ℕ) : ℕ := if index = 0 then size - 1 else index - 1

theorem next_lt {size : ℕ} (hsize : 1 ≤ size) (index : ℕ) : next size index < size := by
  unfold next
  split <;> omega

theorem prev_lt {size index : ℕ} (hindex : index < size) : prev size index < size := by
  unfold prev
  split <;> omega

theorem next_mod {size : ℕ} (hsize : 1 ≤ size) (n : ℕ) :
    next size (n % size) = (n + 1) % size := by
  unfold next
  rcases succ_cases hsize n with ⟨hzero, hlast, _⟩ | ⟨hidx, hnot, _⟩
  · rw [hzero, if_pos (by omega)]
  · rw [hidx, if_neg (by omega)]

theorem prev_mod {size : ℕ} (hsize : 1 ≤ size) (n : ℕ) :
    prev size ((n + 1) % size) = n % size := by
  unfold prev
  rcases succ_cases hsize n with ⟨hzero, hlast, _⟩ | ⟨hidx, hnot, _⟩
  · rw [hzero, if_pos rfl]
    omega
  · rw [hidx, if_neg (by omega)]
    omega

/-- From any start, a full turn comes by every index. -/
theorem exists_add_mod {size index : ℕ} (hindex : index < size) (start : ℕ) :
    ∃ i < size, (start + i) % size = index := by
  have hlt : start % size < size := Nat.mod_lt _ (Nat.zero_lt_of_lt hindex)
  have hsplit := Nat.div_add_mod start size
  by_cases hle : start % size ≤ index
  · refine ⟨index - start % size, by omega, ?_⟩
    have hturn : start + (index - start % size) = size * (start / size) + index := by omega
    rw [hturn, Nat.mul_add_mod, Nat.mod_eq_of_lt hindex]
  · refine ⟨size + index - start % size, by omega, ?_⟩
    have hturn : start + (size + index - start % size) = size * (start / size + 1) + index := by
      rw [Nat.mul_add]
      omega
    rw [hturn, Nat.mul_add_mod, Nat.mod_eq_of_lt hindex]

end EsSensor.CyclicIndex
