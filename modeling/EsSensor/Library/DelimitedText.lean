import EsSensor.Library.CheckedLoop
import Mathlib.Data.List.Basic

/-!
Texts that are searched and cut by positions. A search from a position either
finds no more delimiter, or it cuts the first piece off the rest of the text.
-/
namespace EsSensor.DelimitedText

open CheckedLoop

variable {α : Type}

/-- At most `count` symbols from `pos` on, which must not be behind the end. -/
def substr (xs : List α) (pos count : ℕ) : Except Fault (List α) :=
  if pos ≤ xs.length then .ok ((xs.drop pos).take count) else .error (.thrown "out_of_range")

theorem substr_of_le {xs : List α} {pos : ℕ} (hpos : pos ≤ xs.length) (count : ℕ) :
    substr xs pos count = .ok ((xs.drop pos).take count) := by
  rw [substr, if_pos hpos]

theorem substr_piece (before piece rest : List α) :
    substr (before ++ piece ++ rest) before.length piece.length = .ok piece := by
  rw [substr_of_le (by simp), List.append_assoc, List.drop_left, List.take_left]

/-- A count that is too large takes the rest of the text. -/
theorem substr_rest (before rest : List α) {count : ℕ} (hcount : rest.length ≤ count) :
    substr (before ++ rest) before.length count = .ok rest := by
  rw [substr_of_le (by simp), List.drop_left, List.take_of_length_le hcount]

variable [DecidableEq α]

/-- The first position, from `pos` on, where the symbol stands. -/
def find (x : α) (xs : List α) (pos : ℕ) : Option ℕ :=
  if x ∈ xs.drop pos then some (pos + (xs.drop pos).idxOf x) else none

variable {x : α} {xs : List α} {pos q : ℕ}

theorem find_eq_none : find x xs pos = none ↔ x ∉ xs.drop pos := by
  unfold find
  split <;> simp [*]

/-- What is found cuts the rest of the text in two. -/
theorem drop_of_find (h : find x xs pos = some q) :
    pos ≤ q ∧ q < xs.length ∧
      xs.drop pos = (xs.drop pos).take (q - pos) ++ x :: xs.drop (q + 1) ∧
      x ∉ (xs.drop pos).take (q - pos) := by
  unfold find at h
  split at h
  · rename_i hmem
    obtain ⟨piece, rest, hcut, hpiece⟩ := List.eq_append_cons_of_mem hmem
    have hq : q = pos + piece.length := by
      have hidx : (xs.drop pos).idxOf x = piece.length := by
        rw [hcut, List.idxOf_append_of_notMem hpiece, List.idxOf_cons_self, Nat.add_zero]
      rw [hidx] at h
      exact (Option.some.inj h).symm
    have htake : (xs.drop pos).take (q - pos) = piece := by
      rw [hcut, hq, Nat.add_sub_cancel_left, List.take_left]
    have hrest : xs.drop (q + 1) = rest := by
      have hdrop := congrArg (List.drop (piece.length + 1)) hcut
      rw [List.drop_drop, ← Nat.add_assoc, ← hq] at hdrop
      simpa using hdrop
    have hlen := congrArg List.length hcut
    simp only [List.length_drop, List.length_append, List.length_cons] at hlen
    refine ⟨by omega, by omega, ?_, ?_⟩
    · rw [htake, hrest]
      exact hcut
    · rw [htake]
      exact hpiece
  · exact absurd h (by simp)

theorem splitOn_of_find (h : find x xs pos = some q) :
    (xs.drop pos).splitOn x = (xs.drop pos).take (q - pos) :: (xs.drop (q + 1)).splitOn x := by
  obtain ⟨_, _, hcut, hpiece⟩ := drop_of_find h
  rw [hcut, List.splitOn_append_cons_self_of_not_mem hpiece, ← hcut]

theorem splitOn_of_find_eq_none (h : find x xs pos = none) :
    (xs.drop pos).splitOn x = [xs.drop pos] :=
  List.splitOn_eq_singleton (find_eq_none.mp h)

theorem count_of_find (h : find x xs pos = some q) :
    (xs.drop pos).count x = (xs.drop (q + 1)).count x + 1 := by
  obtain ⟨_, _, hcut, hpiece⟩ := drop_of_find h
  rw [hcut, List.count_append, List.count_eq_zero_of_not_mem hpiece, List.count_cons_self,
    Nat.zero_add]

theorem getElem?_of_find (h : find x xs pos = some q) : xs[q]? = some x := by
  obtain ⟨hle, hlt, hcut, _⟩ := drop_of_find h
  have hget : (xs.drop pos)[q - pos]? = some x := by
    rw [hcut, List.getElem?_append_right (List.length_take_le _ _)]
    simp [Nat.min_eq_left (show q - pos ≤ xs.length - pos by omega)]
  rwa [List.getElem?_drop, Nat.add_sub_cancel' hle] at hget

/-- The delimiter behind a piece that is free of it is found behind the piece. -/
theorem find_behind {before piece rest : List α} (hpiece : x ∉ piece) :
    find x (before ++ piece ++ x :: rest) before.length =
      some (before.length + piece.length) := by
  have hdrop : (before ++ piece ++ x :: rest).drop before.length = piece ++ x :: rest := by
    rw [List.append_assoc, List.drop_left]
  rw [find, hdrop, if_pos (by simp), List.idxOf_append_of_notMem hpiece, List.idxOf_cons_self,
    Nat.add_zero]

end EsSensor.DelimitedText
