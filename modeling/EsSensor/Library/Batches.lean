import EsSensor.Library.CyclicIndex
import Mathlib.Data.List.Induction

/-!
A list cut into consecutive batches of one length, and what is left over.
-/
namespace EsSensor.Batches

open CyclicIndex

variable {α : Type*}

/-- The complete batches, in order. -/
def batches (n : ℕ) (xs : List α) : List (List α) :=
  (List.range (xs.length / n)).map (fun b => (xs.drop (b * n)).take n)

/-- What is left over after the last complete batch. -/
def leftover (n : ℕ) (xs : List α) : List α := xs.drop (xs.length / n * n)

@[simp] theorem batches_nil (n : ℕ) : batches n ([] : List α) = [] := by
  simp [batches]

@[simp] theorem leftover_nil (n : ℕ) : leftover n ([] : List α) = [] := by
  simp [leftover]

theorem length_leftover (n : ℕ) (xs : List α) : (leftover n xs).length = xs.length % n := by
  have hsplit := Nat.div_add_mod' xs.length n
  simp only [leftover, List.length_drop]
  omega

theorem length_leftover_lt {n : ℕ} (hn : 1 ≤ n) (xs : List α) : (leftover n xs).length < n := by
  rw [length_leftover]
  exact Nat.mod_lt _ hn

private theorem batch_append {n b : ℕ} (xs ys : List α) (hb : b * n + n ≤ xs.length) :
    ((xs ++ ys).drop (b * n)).take n = (xs.drop (b * n)).take n := by
  rw [List.drop_append_of_le_length (by omega), List.take_append_of_le_length]
  rw [List.length_drop]
  omega

private theorem batch_end_le {n b : ℕ} {xs : List α} (hb : b < xs.length / n) :
    b * n + n ≤ xs.length := by
  have hmul := Nat.mul_le_mul_right n (show b + 1 ≤ xs.length / n from hb)
  have hdiv := Nat.div_mul_le_self xs.length n
  rw [Nat.add_mul] at hmul
  omega

/-- One more element either completes a batch or joins the leftover. -/
theorem concat_cases {n : ℕ} (hn : 1 ≤ n) (xs : List α) (x : α) :
    ((leftover n xs).length + 1 = n ∧
      batches n (xs ++ [x]) = batches n xs ++ [leftover n xs ++ [x]] ∧
      leftover n (xs ++ [x]) = []) ∨
    ((leftover n xs).length + 1 < n ∧
      batches n (xs ++ [x]) = batches n xs ∧
      leftover n (xs ++ [x]) = leftover n xs ++ [x]) := by
  have hsplit := Nat.div_add_mod' xs.length n
  have hsame : (List.range (xs.length / n)).map (fun b => ((xs ++ [x]).drop (b * n)).take n) =
      batches n xs := by
    apply List.map_congr_left
    intro b hb
    exact batch_append xs [x] (batch_end_le (List.mem_range.mp hb))
  have hdrop : (xs ++ [x]).drop (xs.length / n * n) = leftover n xs ++ [x] := by
    rw [List.drop_append_of_le_length (by omega), leftover]
  rw [length_leftover]
  rcases succ_cases hn xs.length with ⟨hzero, hlast, hdiv⟩ | ⟨hnext, hlt, hdiv⟩
  · refine Or.inl ⟨hlast, ?_, ?_⟩
    · simp only [batches, List.length_append, List.length_singleton, hdiv, List.range_succ,
        List.map_append, List.map_singleton]
      rw [hsame, hdrop, List.take_of_length_le]
      · rfl
      · simp only [List.length_append, length_leftover, List.length_singleton]
        omega
    · apply List.eq_nil_of_length_eq_zero
      rw [length_leftover, List.length_append, List.length_singleton, hzero]
  · refine Or.inr ⟨hlt, ?_, ?_⟩
    · simp only [batches, List.length_append, List.length_singleton, hdiv]
      exact hsame
    · simp only [leftover, List.length_append, List.length_singleton, hdiv]
      exact hdrop

/-- Batches and leftover together are the list. -/
theorem flatten_batches {n : ℕ} (hn : 1 ≤ n) (xs : List α) :
    (batches n xs).flatten ++ leftover n xs = xs := by
  induction xs using List.reverseRecOn with
  | nil => simp
  | append_singleton xs x ih =>
    rcases concat_cases hn xs x with ⟨_, hbatches, hleft⟩ | ⟨_, hbatches, hleft⟩
    · rw [hbatches, hleft, List.flatten_append, List.flatten_singleton, List.append_nil,
        ← List.append_assoc, ih]
    · rw [hbatches, hleft, ← List.append_assoc, ih]

/-- Batches are never revised when the list goes on. -/
theorem batches_isPrefix {n : ℕ} (hn : 1 ≤ n) {xs ys : List α} (h : xs <+: ys) :
    batches n xs <+: batches n ys := by
  obtain ⟨rest, rfl⟩ := h
  induction rest using List.reverseRecOn with
  | nil => simp
  | append_singleton rest x ih =>
    rw [← List.append_assoc]
    rcases concat_cases hn (xs ++ rest) x with ⟨_, hbatches, _⟩ | ⟨_, hbatches, _⟩
    · rw [hbatches]
      exact ih.trans (List.prefix_append _ _)
    · rw [hbatches]
      exact ih

theorem batches_append_block {n : ℕ} (hn : 1 ≤ n) (block xs : List α)
    (hblock : block.length = n) : batches n (block ++ xs) = block :: batches n xs := by
  have hdiv : (block ++ xs).length / n = xs.length / n + 1 := by
    rw [List.length_append, hblock, Nat.add_div_left _ hn]
  rw [batches, hdiv, List.range_succ_eq_map, List.map_cons, List.map_map]
  congr 1
  · rw [Nat.zero_mul, List.drop_zero, List.take_append_of_le_length (by omega),
      List.take_of_length_le (by omega)]
  · apply List.map_congr_left
    intro b _
    have hstart : (b + 1) * n = block.length + b * n := by rw [hblock, Nat.add_mul]; omega
    rw [Function.comp_apply, hstart, List.drop_append, List.drop_eq_nil_of_le (by omega),
      List.nil_append, Nat.add_sub_cancel_left]

/-- The blocks of equal length that a list was made of are found again. -/
theorem batches_flatten {n : ℕ} (hn : 1 ≤ n) (blocks : List (List α))
    (hblocks : ∀ block ∈ blocks, block.length = n) : batches n blocks.flatten = blocks := by
  induction blocks with
  | nil => simp
  | cons block blocks ih =>
    rw [List.flatten_cons, batches_append_block hn block _ (hblocks block List.mem_cons_self),
      ih (fun b hb => hblocks b (List.mem_cons_of_mem block hb))]

end EsSensor.Batches
