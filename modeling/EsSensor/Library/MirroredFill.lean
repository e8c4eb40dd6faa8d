import EsSensor.Library.CheckedLoop

/-!
An array that is filled from both ends: round `i` writes one value to cell `i`
and to the cell as far from the other end. Where the rounds reach the middle,
every cell was written, and the array is its own mirror image.
-/
namespace EsSensor.MirroredFill

open CheckedLoop

variable {α : Type}

/-- The last of the first `count` rounds that has written cell `j`. -/
def writer (n count j : ℕ) : Option ℕ :=
  if max j (n - 1 - j) < count then some (max j (n - 1 - j))
  else if min j (n - 1 - j) < count then some (min j (n - 1 - j))
  else none

/-- The array after `count` rounds, which had the value `fill` in every cell. -/
def filled (v : ℕ → α) (fill : α) (n count : ℕ) : List α :=
  (List.range n).map (fun j => (writer n count j).elim fill v)

variable {v : ℕ → α} {fill fill' : α} {n count j : ℕ}

@[simp] theorem length_filled : (filled v fill n count).length = n := by
  simp [filled]

theorem getElem?_filled (hj : j < n) :
    (filled v fill n count)[j]? = some ((writer n count j).elim fill v) := by
  simp [filled, hj]

theorem writer_succ (hj : j < n) :
    writer n (count + 1) j =
      if j = count ∨ n - 1 - j = count then some count else writer n count j := by
  unfold writer
  split_ifs <;> first | rfl | (congr 1; omega)

theorem filled_zero : filled v fill n 0 = List.replicate n fill := by
  apply List.ext_getElem?
  intro j
  by_cases hj : j < n
  · rw [getElem?_filled hj, List.getElem?_replicate, if_pos hj]
    rfl
  · rw [List.getElem?_eq_none (by simpa using hj), List.getElem?_eq_none (by simpa using hj)]

/-- One round writes its two cells. -/
theorem filled_succ (hcount : count < n) :
    ((filled v fill n count).set count (v count)).set (n - 1 - count) (v count) =
      filled v fill n (count + 1) := by
  apply List.ext_getElem?
  intro j
  by_cases hj : j < n
  · rw [getElem?_filled hj, writer_succ hj]
    by_cases hfar : n - 1 - count = j
    · rw [hfar, List.getElem?_set_self (by simpa using hj), if_pos (Or.inr (by omega))]
      rfl
    · rw [List.getElem?_set_ne hfar]
      by_cases hnear : count = j
      · rw [hnear, List.getElem?_set_self (by simpa using hj), if_pos (Or.inl rfl)]
        rfl
      · rw [List.getElem?_set_ne hnear, getElem?_filled hj, if_neg (by omega)]
  · rw [List.getElem?_eq_none (by simpa using hj), List.getElem?_eq_none (by simpa using hj)]

/-- Both writes of a round are within the array. -/
theorem write_both {i far : ℕ} (hi : i < n) (hfar : far = n - 1 - i) :
    (do let xs ← writeAt (filled v fill n i) i (v i)
        writeAt xs far (v i)) = .ok (filled v fill n (i + 1)) := by
  rw [writeAt_of_lt (by simpa using hi), ok_bind, writeAt_of_lt (by simp; omega), hfar,
    filled_succ hi]

/-- The loop over the rounds. What it would write in later ones does not matter. -/
theorem foldlM_write_both {w : ℕ → α} {far : ℕ → ℕ} (hcount : count ≤ n)
    (hvalues : ∀ i < count, w i = v i) (hfar : ∀ i < count, far i = n - 1 - i) :
    (List.range count).foldlM (fun xs i => do
      let xs ← writeAt xs i (w i)
      writeAt xs (far i) (w i)) (List.replicate n fill) = .ok (filled v fill n count) := by
  have hround : ∀ i < count, ∀ xs, xs = filled v fill n i →
      ∃ xs', (do
        let xs ← writeAt xs i (w i)
        writeAt xs (far i) (w i)) = .ok xs' ∧ xs' = filled v fill n (i + 1) := by
    rintro i hi _ rfl
    rw [hvalues i hi]
    exact ⟨_, write_both (Nat.lt_of_lt_of_le hi hcount) (hfar i hi), rfl⟩
  obtain ⟨xs, hrun, rfl⟩ := foldlM_range hround filled_zero.symm
  exact hrun

/-- Rounds up to the middle: each cell has the value of the nearer end's round. -/
theorem writer_half (hj : j < n) : writer n ((n + 1) / 2) j = some (min j (n - 1 - j)) := by
  unfold writer
  split_ifs
  · congr 1
    omega
  · rfl
  · omega

/-- One round past the middle of an even number of cells writes the two middle ones again. -/
theorem writer_past_half (hj : j < n) :
    writer n (n / 2 + 1) j =
      some (if j = n / 2 ∨ n - 1 - j = n / 2 then n / 2 else min j (n - 1 - j)) := by
  unfold writer
  split_ifs <;> first | rfl | (congr 1; omega)

/-- What was in the cells before is gone where the rounds reach the middle. -/
theorem filled_congr (hcount : n ≤ 2 * count) : filled v fill n count = filled v fill' n count := by
  refine List.map_congr_left ?_
  intro j hj
  have hj : j < n := List.mem_range.mp hj
  have hsome : ∃ i, writer n count j = some i := by
    unfold writer
    split
    · exact ⟨_, rfl⟩
    · exact ⟨_, if_pos (by omega)⟩
  obtain ⟨i, hi⟩ := hsome
  rw [hi]
  rfl

theorem filled_mirrored (hj : j < n) :
    (filled v fill n count)[j]? = (filled v fill n count)[n - 1 - j]? := by
  have hback : n - 1 - (n - 1 - j) = j := by omega
  rw [getElem?_filled hj, getElem?_filled (by omega)]
  unfold writer
  rw [hback, Nat.max_comm j, Nat.min_comm j]

end EsSensor.MirroredFill
