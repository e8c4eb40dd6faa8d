import EsSensor.Library.CheckedLoop
import EsSensor.Library.DelayLine
import Mathlib.Algebra.BigOperators.Group.Finset.Basic
import Mathlib.Tactic.Ring

/-!
The parts that the rational and the fractional FIR filter have in common: the
padding of the tap table and the sum over one polyphase branch, with every
access to the table and to the delay line checked.
-/
namespace EsSensor.Polyphase

open CheckedLoop CyclicIndex DelayLine

variable {α : Type} [CommSemiring α]

/-- `extraTaps = size % rateI; taps_.resize(size + extraTaps)` -/
def padTaps (taps : List α) (rateI : ℕ) : List α :=
  taps ++ List.replicate (taps.length % rateI) 0

@[simp] theorem padTaps_length (taps : List α) (rateI : ℕ) :
    (padTaps taps rateI).length = taps.length + taps.length % rateI := by
  simp [padTaps]

/-- The loop over the delay line: `fIndex` runs backwards, `j` selects the tap. -/
def polyphaseLoop (taps delayLine : List α) (rateI outIndex : ℕ) :
    ℕ → ℕ → ℕ → α → Except Fault α
  | 0, _, _, o => .ok o
  | count + 1, j, fIndex, o => do
    let sample ← readAt delayLine fIndex
    let tap ← readAt taps (outIndex + rateI * j)
    polyphaseLoop taps delayLine rateI outIndex count (j + 1)
      (prev delayLine.length fIndex) (o + sample * tap)

def calcPolyphase (taps delayLine : List α) (rateI delayIndex outIndex : ℕ) : Except Fault α :=
  polyphaseLoop taps delayLine rateI outIndex delayLine.length 0 delayIndex 0

/-- Every index of a branch lies in the table. -/
theorem tap_index_lt {rateI size tableLength outIndex j : ℕ} (hout : outIndex < rateI)
    (hj : j < size) (htable : rateI * size ≤ tableLength) :
    outIndex + rateI * j < tableLength := by
  have hbranch : rateI * (j + 1) ≤ rateI * size := Nat.mul_le_mul_left rateI hj
  rw [Nat.mul_add, Nat.mul_one] at hbranch
  omega

theorem polyphaseLoop_eq {signal : ℕ → α} {taps delayLine : List α} {rateI outIndex size n : ℕ}
    (hsize : 1 ≤ size) (hlength : delayLine.length = size)
    (hcells : ∀ j < size, delayLine[(n + size - j) % size]? = some (recent signal (n + 1) j))
    (hout : outIndex < rateI) (htable : rateI * size ≤ taps.length)
    (count j : ℕ) (o : α) (hj : j + count = size) :
    polyphaseLoop taps delayLine rateI outIndex count j ((n + size - j) % size) o =
      .ok (o + ∑ i ∈ Finset.range count,
        taps.getD (outIndex + rateI * (j + i)) 0 * recent signal (n + 1) (j + i)) := by
  induction count generalizing j o with
  | zero => simp [polyphaseLoop]
  | succ count ih =>
    have hindex := tap_index_lt hout (show j < size by omega) htable
    have htap : readAt taps (outIndex + rateI * j) =
        .ok (taps.getD (outIndex + rateI * j) 0) := by
      rw [readAt_eq_ok, List.getD_eq_getElem?_getD, List.getElem?_eq_getElem hindex]
      rfl
    have hsample := readAt_eq_ok.mpr (hcells j (by omega))
    simp only [polyphaseLoop, hsample, htap, ok_bind, hlength]
    rw [prev_cell hsize j (by omega), ih (j + 1) _ (by omega), Finset.sum_range_succ']
    simp only [Nat.add_zero, Nat.add_assoc, Nat.add_comm 1]
    congr 1
    ring

/-- One branch: the tap at `outIndex + rateI * j` meets the sample of age `j`. -/
theorem calcPolyphase_eq {signal : ℕ → α} {taps delayLine : List α}
    {rateI outIndex size n : ℕ} (hsize : 1 ≤ size) (hlength : delayLine.length = size)
    (hcells : ∀ j < size, delayLine[(n + size - j) % size]? = some (recent signal (n + 1) j))
    (hout : outIndex < rateI) (htable : rateI * size ≤ taps.length) :
    calcPolyphase taps delayLine rateI (n % size) outIndex =
      .ok (∑ j ∈ Finset.range size,
        taps.getD (outIndex + rateI * j) 0 * recent signal (n + 1) j) := by
  have hloop := polyphaseLoop_eq hsize hlength hcells hout htable size 0 0 (Nat.zero_add size)
  rw [Nat.sub_zero, Nat.add_mod_right] at hloop
  simpa [calcPolyphase, hlength] using hloop

/-- Whatever the indices are, a sum that is returned weighs samples of the delay line. -/
theorem polyphaseLoop_eq_ok {taps delayLine : List α} {rateI outIndex count j fIndex : ℕ}
    {o sum : α}
    (hrun : polyphaseLoop taps delayLine rateI outIndex count j fIndex o = .ok sum) :
    ∃ x : ℕ → α, (∀ i < count, x i ∈ delayLine) ∧
      sum = o + ∑ i ∈ Finset.range count, taps.getD (outIndex + rateI * (j + i)) 0 * x i := by
  induction count generalizing j fIndex o with
  | zero =>
    obtain rfl := Except.ok.inj hrun
    exact ⟨0, by simp⟩
  | succ count ih =>
    obtain ⟨sample, hsample, hrest⟩ := bind_eq_ok.mp hrun
    obtain ⟨tap, htap, hrest⟩ := bind_eq_ok.mp hrest
    obtain ⟨x, hx, hsum⟩ := ih hrest
    refine ⟨fun i => if i = 0 then sample else x (i - 1), ?_, ?_⟩
    · intro i hi
      cases i with
      | zero => exact List.mem_of_getElem? (readAt_eq_ok.mp hsample)
      | succ i => exact hx i (by omega)
    · have htap' : taps.getD (outIndex + rateI * j) 0 = tap := by
        rw [List.getD_eq_getElem?_getD, readAt_eq_ok.mp htap]
        rfl
      rw [hsum, Finset.sum_range_succ']
      simp only [Nat.add_one_ne_zero, if_false, if_true, Nat.add_sub_cancel, Nat.add_assoc,
        Nat.add_comm 1, Nat.add_zero, htap']
      ring

theorem calcPolyphase_eq_ok {taps delayLine : List α} {rateI delayIndex outIndex : ℕ} {o : α}
    (hrun : calcPolyphase taps delayLine rateI delayIndex outIndex = .ok o) :
    ∃ x : ℕ → α, (∀ j < delayLine.length, x j ∈ delayLine) ∧
      o = ∑ j ∈ Finset.range delayLine.length, taps.getD (outIndex + rateI * j) 0 * x j := by
  obtain ⟨x, hx, ho⟩ := polyphaseLoop_eq_ok hrun
  exact ⟨x, hx, by simpa using ho⟩

theorem exists_polyphaseLoop {taps delayLine : List α} {rateI outIndex : ℕ}
    (hout : outIndex < rateI) (htable : rateI * delayLine.length ≤ taps.length)
    (count j fIndex : ℕ) (o : α) (hj : j + count = delayLine.length)
    (hfIndex : fIndex < delayLine.length) :
    ∃ sum, polyphaseLoop taps delayLine rateI outIndex count j fIndex o = .ok sum := by
  induction count generalizing j fIndex o with
  | zero => exact ⟨o, rfl⟩
  | succ count ih =>
    have hindex := tap_index_lt hout (show j < delayLine.length by omega) htable
    obtain ⟨sample, hsample⟩ := readAt_of_lt hfIndex
    obtain ⟨tap, htap⟩ := readAt_of_lt hindex
    simp only [polyphaseLoop, hsample, htap, ok_bind]
    exact ih (j + 1) _ _ (by omega) (prev_lt hfIndex)

/-- No access of a branch leaves the table or the delay line. -/
theorem exists_calcPolyphase {taps delayLine : List α} {rateI delayIndex outIndex : ℕ}
    (hout : outIndex < rateI) (htable : rateI * delayLine.length ≤ taps.length)
    (hdelay : delayIndex < delayLine.length) :
    ∃ o, calcPolyphase taps delayLine rateI delayIndex outIndex = .ok o :=
  exists_polyphaseLoop hout htable _ 0 delayIndex 0 (Nat.zero_add _) hdelay

theorem safe_calcPolyphase {taps delayLine : List α} {rateI delayIndex outIndex : ℕ}
    (hout : outIndex < rateI) (htable : rateI * delayLine.length ≤ taps.length)
    (hdelay : delayIndex < delayLine.length) :
    Safe (fun _ => True) (calcPolyphase taps delayLine rateI delayIndex outIndex) := by
  obtain ⟨o, ho⟩ := exists_calcPolyphase hout htable hdelay
  rw [ho]
  exact trivial

end EsSensor.Polyphase
