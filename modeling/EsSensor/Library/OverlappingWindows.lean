import Mathlib.Data.List.Range
import Mathlib.Data.List.TakeDrop
import Mathlib.Tactic.Common

/-!
Windows of one size that are cut from a list at a fixed stride. Neighbours share
what the stride leaves of the size, and the list is put together again from the
strides and the rest of the last window.
-/
namespace EsSensor.OverlappingWindows

universe u

variable {α : Type u}

/-- Window number `i`. -/
def window (stride size : ℕ) (xs : List α) (i : ℕ) : List α := (xs.drop (i * stride)).take size

def windows (stride size count : ℕ) (xs : List α) : List (List α) :=
  (List.range count).map (window stride size xs)

/-- What `count` windows cover. -/
def covered (stride size count : ℕ) : ℕ := (count - 1) * stride + size

variable {stride size count i : ℕ} {xs : List α}

theorem covered_eq (hcount : 1 ≤ count) (hstride : stride ≤ size) :
    covered stride size count = count * stride + (size - stride) := by
  obtain ⟨n, rfl⟩ : ∃ n, count = n + 1 := ⟨count - 1, by omega⟩
  rw [covered, Nat.add_sub_cancel, Nat.add_mul]
  omega

theorem window_end_le (hi : i < count) (k : ℕ) (hk : k < size) :
    i * stride + k < covered stride size count := by
  have hmul := Nat.mul_le_mul_right stride (show i ≤ count - 1 by omega)
  rw [covered]
  omega

@[simp] theorem length_windows : (windows stride size count xs).length = count := by
  simp [windows]

theorem getElem?_windows (hi : i < count) :
    (windows stride size count xs)[i]? = some (window stride size xs i) := by
  simp [windows, hi]

theorem length_window (hcovered : covered stride size count ≤ xs.length) (hi : i < count) :
    (window stride size xs i).length = size := by
  have hmul := Nat.mul_le_mul_right stride (show i ≤ count - 1 by omega)
  rw [covered] at hcovered
  rw [window, List.length_take, List.length_drop]
  omega

/-- The end of a window is the beginning of the next one. -/
theorem window_overlap :
    (window stride size xs i).drop stride =
      (window stride size xs (i + 1)).take (size - stride) := by
  rw [window, window, List.drop_take, List.drop_drop, List.take_take,
    Nat.min_eq_left (Nat.sub_le size stride), Nat.add_mul, Nat.one_mul]

theorem flatten_strides (hstride : stride ≤ size) (count : ℕ) :
    ((windows stride size count xs).map (fun w => w.take stride)).flatten =
      xs.take (count * stride) := by
  induction count with
  | zero => simp [windows]
  | succ count ih =>
    have hlast : windows stride size (count + 1) xs =
        windows stride size count xs ++ [window stride size xs count] := by
      simp [windows, List.range_succ]
    rw [hlast, List.map_append, List.flatten_append, ih, Nat.add_mul, Nat.one_mul, List.take_add]
    congr 1
    rw [List.map_singleton, List.flatten_singleton, window, List.take_take,
      Nat.min_eq_left hstride]

/-- The strides of all windows and the rest of the last one give back what the
windows cover. -/
theorem reassemble (hcount : 1 ≤ count) (hstride : stride ≤ size) :
    ((windows stride size count xs).map (fun w => w.take stride)).flatten ++
        (window stride size xs (count - 1)).drop stride =
      xs.take (covered stride size count) := by
  have hrest : (window stride size xs (count - 1)).drop stride =
      (xs.drop (count * stride)).take (size - stride) := by
    have hidx : (count - 1) * stride + stride = count * stride := by
      rw [← Nat.succ_mul, Nat.succ_eq_add_one, Nat.sub_add_cancel hcount]
    rw [window, List.drop_take, List.drop_drop, hidx]
  rw [flatten_strides hstride, hrest, covered_eq hcount hstride, List.take_add]

end EsSensor.OverlappingWindows
