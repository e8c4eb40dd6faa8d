import EsSensor.Library.CyclicIndex
import Mathlib.Data.List.Basic

/-!
A circular buffer of fixed size that always holds the most recent samples of a
stream, zero before the stream began. Reading backwards from the write index
visits the samples from the newest to the oldest.
-/
namespace EsSensor.DelayLine

open CyclicIndex

variable {α : Type*} [Zero α]

/-- The sample that is `j` older than the newest of the first `n`. -/
def recent (signal : ℕ → α) (n j : ℕ) : α := if j < n then signal (n - 1 - j) else 0

theorem recent_zero (signal : ℕ → α) (n : ℕ) : recent signal (n + 1) 0 = signal n := by
  simp [recent]

theorem recent_succ (signal : ℕ → α) (n j : ℕ) :
    recent signal (n + 1) (j + 1) = recent signal n j := by
  unfold recent
  by_cases hj : j < n
  · have hidx : n + 1 - 1 - (j + 1) = n - 1 - j := by omega
    rw [if_pos (by omega), if_pos hj, hidx]
  · rw [if_neg (by omega), if_neg hj]

/-- After `n` samples: where the next one goes, and what each cell holds. -/
structure Holds (signal : ℕ → α) (size n : ℕ) (cells : List α) (index : ℕ) : Prop where
  length_eq : cells.length = size
  index_eq : index = n % size
  cell : ∀ j < size, cells[(n + (size - 1) - j) % size]? = some (recent signal n j)

theorem holds_replicate (signal : ℕ → α) {size : ℕ} (hsize : 1 ≤ size) :
    Holds signal size 0 (List.replicate size 0) 0 where
  length_eq := by simp
  index_eq := (Nat.zero_mod size).symm
  cell j _ := by
    have hlt : (0 + (size - 1) - j) % size < size := Nat.mod_lt _ hsize
    rw [List.getElem?_replicate_of_lt hlt]
    simp [recent]

variable {signal : ℕ → α} {size n index : ℕ} {cells : List α}

theorem Holds.index_lt (hsize : 1 ≤ size) (h : Holds signal size n cells index) :
    index < cells.length := by
  rw [h.index_eq, h.length_eq]
  exact Nat.mod_lt n hsize

/-- Distinct ages below the size lie in distinct cells. -/
theorem cell_ne (j : ℕ) (hj : j + 1 < size) : (n + size - (j + 1)) % size ≠ n % size := by
  intro heq
  have hmod : (n + size) % size = (n + size - (j + 1)) % size := by
    rw [heq, Nat.add_mod_right]
  have hzero := Nat.sub_mod_eq_zero_of_mod_eq hmod
  have hage : n + size - (n + size - (j + 1)) = j + 1 := by omega
  rw [hage, Nat.mod_eq_of_lt hj] at hzero
  omega

/-- Writing the newest sample over the oldest keeps the last `size` samples. -/
theorem Holds.write (hsize : 1 ≤ size) (h : Holds signal size n cells index) :
    ∀ j < size, (cells.set index (signal n))[(n + size - j) % size]? =
      some (recent signal (n + 1) j) := by
  intro j hj
  cases j with
  | zero =>
    rw [Nat.sub_zero, Nat.add_mod_right, ← h.index_eq, recent_zero]
    exact List.getElem?_set_self (h.index_lt hsize)
  | succ j =>
    have hne : index ≠ (n + size - (j + 1)) % size := by
      rw [h.index_eq]
      exact (cell_ne j hj).symm
    have hidx : n + size - (j + 1) = n + (size - 1) - j := by omega
    rw [List.getElem?_set_ne hne, hidx, h.cell j (by omega), recent_succ]

theorem Holds.advance (hsize : 1 ≤ size) (h : Holds signal size n cells index) :
    Holds signal size (n + 1) (cells.set index (signal n)) (next size index) where
  length_eq := by rw [List.length_set, h.length_eq]
  index_eq := by rw [h.index_eq, next_mod hsize]
  cell j hj := by
    have hidx : n + 1 + (size - 1) - j = n + size - j := by omega
    rw [hidx]
    exact h.write hsize j hj

/-- Stepping back from age `j` reaches age `j + 1`. -/
theorem prev_cell (hsize : 1 ≤ size) (j : ℕ) (hj : j < n + size) :
    prev size ((n + size - j) % size) = (n + size - (j + 1)) % size := by
  have hidx : n + size - j = n + size - (j + 1) + 1 := by omega
  rw [hidx, prev_mod hsize]

end EsSensor.DelayLine
