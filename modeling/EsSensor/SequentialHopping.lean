import EsSensor.ElectrosenseContext
import EsSensor.Library.CheckedLoop
import EsSensor.Library.CyclicIndex

/-!
The list of frequencies that the driver visits in turn, and how it is computed
from the configuration.
-/
namespace EsSensor

open CheckedLoop CyclicIndex FloatRounding MachineWord

structure SequentialHopping where
  mFreqs : List ℕ
  mIndex : ℕ
  mIndex_lt : mIndex < mFreqs.length

namespace SequentialHopping

/-- A hop list before its first hop. -/
def ofFreqs (freqs : List ℕ) (hfreqs : freqs ≠ []) : SequentialHopping where
  mFreqs := freqs
  mIndex := 0
  mIndex_lt := List.length_pos_iff.mpr hfreqs

@[simp] theorem ofFreqs_mFreqs {freqs : List ℕ} (hfreqs : freqs ≠ []) :
    (ofFreqs freqs hfreqs).mFreqs = freqs := rfl

/-- The frequency that `nextHop` returns. -/
def hop (h : SequentialHopping) : ℕ := h.mFreqs.get ⟨h.mIndex, h.mIndex_lt⟩

/-- What `nextHop` leaves behind: the index wraps at the end of the list. -/
def advance (h : SequentialHopping) : SequentialHopping where
  mFreqs := h.mFreqs
  mIndex := next h.mFreqs.length h.mIndex
  mIndex_lt := next_lt (Nat.zero_lt_of_lt h.mIndex_lt) h.mIndex

def nextHop (h : SequentialHopping) : ℕ × SequentialHopping := (h.hop, h.advance)

section Constructor

variable (ctx : ElectrosenseContext)

def mFreqStep : ℕ := u64 ⌊ctx.keptPart ctx.samplingRate⌋.toNat

/-- The product 1872000 is missed by one: the factor was rounded down. -/
example : mFreqStep { freqOverlap := binary32.round (22 / 100) } = 1871999 := by decide +kernel

/-- `(difference + 1e6) / step`, where words become doubles and every result is rounded. -/
def hopQuotient (difference step : ℕ) : ℚ :=
  binary64.round (binary64.round (binary64.round difference + 1000000) / binary64.round step)

/-- For a step of zero the quotient is infinite. The language leaves its conversion open;
zero and the largest word both give one hop. -/
def mTotalHops : ℕ :=
  if mFreqStep ctx = 0 then 0
  else u64 ⌊hopQuotient (u64Sub ctx.maxFreq ctx.minFreq) (mFreqStep ctx)⌋.toNat

/-- `minFreq + 0.5 * step`, truncated. -/
def lowestHop (minFreq step : ℕ) : ℕ :=
  ⌊binary64.round (binary64.round minFreq + binary64.round (1 / 2 * binary64.round step))⌋.toNat

def firstFreq : ℕ := u64 (lowestHop ctx.minFreq (mFreqStep ctx))

/-- One round of `for (int i = 1; i < (int)mTotalHops; i++)`. -/
def insertNext (freqs : List ℕ) (i : ℕ) : Except Fault (List ℕ) := do
  let previous ← readAt freqs (i - 1)
  .ok (freqs ++ [u64 (previous + mFreqStep ctx)])

/-- An empty list would fail at the first hop. -/
def new : Except Fault SequentialHopping := do
  let freqs ← (List.range' 1 (int32 (mTotalHops ctx) - 1).toNat).foldlM (insertNext ctx)
    [firstFreq ctx]
  if hfreqs : freqs ≠ [] then .ok (ofFreqs freqs hfreqs) else .error .outOfRange

end Constructor

/-- Consecutive results of `nextHop`. -/
def nextHops : ℕ → SequentialHopping → List ℕ
  | 0, _ => []
  | n + 1, h => h.nextHop.1 :: nextHops n h.nextHop.2

theorem hop_eq (h : SequentialHopping) : h.mFreqs[h.mIndex]? = some h.hop :=
  List.getElem?_eq_getElem h.mIndex_lt

theorem advance_iterate (h : SequentialHopping) (n : ℕ) :
    (advance^[n] h).mFreqs = h.mFreqs ∧
      (advance^[n] h).mIndex = (h.mIndex + n) % h.mFreqs.length := by
  induction n with
  | zero => exact ⟨rfl, (Nat.mod_eq_of_lt h.mIndex_lt).symm⟩
  | succ n ih =>
    obtain ⟨hfreqs, hindex⟩ := ih
    rw [Function.iterate_succ_apply']
    refine ⟨hfreqs, ?_⟩
    show next (advance^[n] h).mFreqs.length (advance^[n] h).mIndex = _
    rw [hfreqs, hindex, next_mod (Nat.zero_lt_of_lt h.mIndex_lt)]
    rfl

theorem mem_nextHops {n f : ℕ} {h : SequentialHopping} :
    f ∈ nextHops n h ↔ ∃ i < n, (advance^[i] h).hop = f := by
  induction n generalizing h with
  | zero => simp [nextHops]
  | succ n ih =>
    rw [nextHops, List.mem_cons, ih]
    constructor
    · rintro (rfl | ⟨i, hi, rfl⟩)
      · exact ⟨0, Nat.succ_pos n, rfl⟩
      · exact ⟨i + 1, by omega, rfl⟩
    · rintro ⟨i, hi, rfl⟩
      cases i with
      | zero => exact Or.inl rfl
      | succ i => exact Or.inr ⟨i, by omega, rfl⟩

/-- As many consecutive hops as there are frequencies visit every one of them. -/
theorem mem_round_iff (h : SequentialHopping) (k f : ℕ) :
    f ∈ nextHops h.mFreqs.length (advance^[k] h) ↔ f ∈ h.mFreqs := by
  rw [mem_nextHops, List.mem_iff_getElem?]
  have hvisit : ∀ i, h.mFreqs[(h.mIndex + (i + k)) % h.mFreqs.length]? =
      some (advance^[i] (advance^[k] h)).hop := by
    intro i
    rw [← Function.iterate_add_apply]
    obtain ⟨hfreqs, hindex⟩ := advance_iterate h (i + k)
    rw [← hop_eq, hfreqs, hindex]
  constructor
  · rintro ⟨i, _, rfl⟩
    exact ⟨_, hvisit i⟩
  · rintro ⟨j, hj⟩
    have hjlt : j < h.mFreqs.length := (List.getElem?_eq_some_iff.mp hj).1
    obtain ⟨i, hi, hmod⟩ := exists_add_mod hjlt (h.mIndex + k)
    refine ⟨i, hi, ?_⟩
    have hsum : h.mIndex + (i + k) = h.mIndex + k + i := by omega
    have hfound := hvisit i
    rw [hsum, hmod, hj] at hfound
    exact (Option.some.inj hfound).symm

end SequentialHopping

end EsSensor
