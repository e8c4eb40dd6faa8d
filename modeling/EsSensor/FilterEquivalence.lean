import EsSensor.Library.Lockstep
import EsSensor.Interpolation
import EsSensor.TapPadding

/-!
The rational and the fractional filter on an integer decimation. Both go through
the same states: the phase of the fractional one stays an integer and the second
branch has no weight, as long as the phase counter of the rational one does not
wrap.
-/
namespace EsSensor.FilterEquivalence

open CheckedLoop StreamMachine Lockstep MachineWord Polyphase TapPadding
open RationalFilter (RationalFIR)
open FractionalFilter (FrationalFIR)

/-- The fractional filter in the same state. -/
def asFractional (r : RationalFIR ℚ) : FrationalFIR where
  taps := r.taps
  rateI := r.rateI
  rateD := r.rateD
  delayLine := r.delayLine
  delayIndex := r.delayIndex
  outIndex := r.outIndex

/-- The phases are multiples of this, so it is the least distance of a phase
from the rate. -/
def phaseStep (rateI rateD : ℕ) : ℕ := Nat.gcd rateI rateD

/-- No phase below the rate is moved on to the size of a word. -/
def NoWrap (rateI rateD : ℕ) : Prop := rateI + rateD < 2 ^ 32 + phaseStep rateI rateD

/-- A rational filter in use: its accesses are in range and its counter cannot wrap. -/
structure InUse (r : RationalFIR ℚ) : Prop where
  inRange : InRange r.rateI r.delayIndex r.taps r.delayLine
  rateI_lt : r.rateI < 2 ^ 32
  noWrap : NoWrap r.rateI r.rateD
  phase : phaseStep r.rateI r.rateD ∣ r.outIndex

/-- The two filters are in the same state. -/
def Paired (r : RationalFIR ℚ) (f : FrationalFIR) : Prop := f = asFractional r ∧ InUse r

theorem InUse.next_lt {r : RationalFIR ℚ} (h : InUse r) (hlt : r.outIndex < r.rateI) :
    r.outIndex + r.rateD < 2 ^ 32 := by
  have hstep : phaseStep r.rateI r.rateD ∣ r.rateI - r.outIndex :=
    Nat.dvd_sub (Nat.gcd_dvd_left r.rateI r.rateD) h.phase
  have hle := Nat.le_of_dvd (by omega) hstep
  have hwrap := h.noWrap
  unfold NoWrap at hwrap
  omega

theorem truncate_natCast (n : ℕ) : truncate (n : ℚ) = n := by
  rw [truncate, if_pos (Nat.cast_nonneg n), Int.floor_natCast]

/-- One round: the same output, and the same step of the phase. -/
theorem fire_paired {r : RationalFIR ℚ} (h : InUse r) (hlt : r.outIndex < r.rateI)
    (outs : List ℚ) :
    Alike (SameOutput Paired) (RationalFilter.fire (r, outs))
      (FractionalFilter.fire (asFractional r, outs)) := by
  obtain ⟨o, ho⟩ := exists_calcPolyphase hlt h.inRange.table h.inRange.delay_lt
  have hnat : (r.outIndex : ℚ) < r.rateI := by exact_mod_cast hlt
  obtain ⟨hfirst, _⟩ := Interpolation.branchIndex_of_phase (f := asFractional r) h.rateI_lt
    (Nat.cast_nonneg r.outIndex) hnat
  have hin := FractionalFilter.branchIndex_lt (asFractional r) h.inRange.rateI_pos 1
  obtain ⟨o', ho'⟩ := exists_calcPolyphase hin h.inRange.table h.inRange.delay_lt
  have hbranch : FractionalFilter.branch (asFractional r) 0 = .ok o := by
    rw [FractionalFilter.branch, hfirst]
    simpa [asFractional] using ho
  have hbranch' : FractionalFilter.branch (asFractional r) 1 = .ok o' := ho'
  have hrational : RationalFilter.fire (r, outs) =
      .ok ({ r with outIndex := r.outIndex + r.rateD }, outs ++ [o]) := by
    rw [RationalFilter.fire, ho, ok_bind, u32_of_lt (h.next_lt hlt)]
  have hfractional : FractionalFilter.fire (asFractional r, outs) =
      .ok ({ asFractional r with outIndex := r.outIndex + r.rateD }, outs ++ [o]) := by
    have hremainder : (asFractional r).outIndex - truncate (asFractional r).outIndex = 0 := by
      simp [asFractional, truncate_natCast]
    rw [FractionalFilter.fire, hbranch, hbranch', ok_bind, ok_bind]
    simp only [hremainder, zero_mul, sub_zero, one_mul, zero_add]
    rfl
  rw [hrational, hfractional]
  refine ⟨⟨?_, ⟨h.inRange, h.rateI_lt, h.noWrap, ?_⟩⟩, rfl⟩
  · simp [asFractional]
  · exact Nat.dvd_add h.phase (Nat.gcd_dvd_right r.rateI r.rateD)

/-- The step lemma: one input. -/
theorem filterSample_paired (fuel : ℕ) {r : RationalFIR ℚ} (h : InUse r) (sample : ℚ) :
    Alike (SameOutput Paired) (RationalFilter.filterSample fuel r sample)
      (FractionalFilter.filterSample fuel (asFractional r) sample) := by
  have hwrite := writeAt_of_lt h.inRange.delay_lt sample
  have hwrite' : writeAt (asFractional r).delayLine (asFractional r).delayIndex sample = _ := hwrite
  rw [RationalFilter.filterSample, FractionalFilter.filterSample, hwrite, hwrite', ok_bind, ok_bind]
  have hstart : SameOutput Paired
      ({ r with delayLine := r.delayLine.set r.delayIndex sample }, ([] : List ℚ))
      ({ asFractional r with delayLine := r.delayLine.set r.delayIndex sample }, []) :=
    ⟨⟨rfl, ⟨h.inRange.write sample, h.rateI_lt, h.noWrap, h.phase⟩⟩, rfl⟩
  have hcond : ∀ (s : RationalFIR ℚ × List ℚ) (t : FrationalFIR × List ℚ), SameOutput Paired s t →
      RationalFilter.firing s = FractionalFilter.firing t := by
    rintro ⟨r, outs⟩ ⟨_, _⟩ ⟨⟨rfl, _⟩, rfl⟩
    simp [RationalFilter.firing, FractionalFilter.firing, asFractional]
  have hbody : ∀ (s : RationalFIR ℚ × List ℚ) (t : FrationalFIR × List ℚ), SameOutput Paired s t →
      RationalFilter.firing s = true →
      Alike (SameOutput Paired) (RationalFilter.fire s) (FractionalFilter.fire t) := by
    rintro ⟨r, outs⟩ ⟨_, _⟩ ⟨⟨rfl, hr⟩, rfl⟩ hfiring
    exact fire_paired hr (by simpa [RationalFilter.firing] using hfiring) outs
  refine (alike_whileLoop hcond hbody fuel hstart).bind ?_
  rintro ⟨r, outs⟩ ⟨_, _⟩ ⟨⟨⟨rfl, hr⟩, rfl⟩, hexit⟩
  have hge : r.rateI ≤ r.outIndex := by simpa [RationalFilter.firing] using hexit
  refine ⟨⟨?_, ⟨hr.inRange.advance, hr.rateI_lt, hr.noWrap, ?_⟩⟩, rfl⟩
  · simp [asFractional, FractionalFilter.endSample, RationalFilter.endSample, Nat.cast_sub hge]
  · exact Nat.dvd_sub hr.phase (Nat.gcd_dvd_left r.rateI r.rateD)

/-- The run lemma: every cut of a stream into calls. -/
theorem filterCalls_paired (fuel : ℕ) {r : RationalFIR ℚ} (h : InUse r) (calls : List (List ℚ)) :
    Alike (SameOutput Paired) (RationalFilter.filterCalls fuel r calls)
      (FractionalFilter.filterCalls fuel (asFractional r) calls) := by
  apply alike_runCalls
  · rintro r _ sample ⟨rfl, hr⟩
    exact filterSample_paired fuel hr sample
  · exact ⟨rfl, h⟩

instance (rateI rateD : ℕ) : Decidable (NoWrap rateI rateD) := Nat.decLt _ _

theorem inRange_ofTable {table : List ℚ} {rateI : ℕ} (rateD : ℕ) (hI : 1 ≤ rateI)
    (hline : 1 ≤ table.length / rateI) :
    InRange rateI 0 (RationalFilter.ofTable table rateI rateD).taps
      (RationalFilter.ofTable table rateI rateD).delayLine where
  rateI_pos := hI
  delay_lt := by
    rw [RationalFilter.ofTable, List.length_replicate]
    exact hline
  table := by
    rw [RationalFilter.ofTable, List.length_replicate]
    exact Nat.mul_div_le table.length rateI

theorem inUse_ofTable {table : List ℚ} {rateI rateD : ℕ} (hI : 1 ≤ rateI)
    (hword : rateI < 2 ^ 32) (hwrap : NoWrap rateI rateD) (hline : 1 ≤ table.length / rateI) :
    InUse (RationalFilter.ofTable table rateI rateD) where
  inRange := inRange_ofTable rateD hI hline
  rateI_lt := hword
  noWrap := hwrap
  phase := Nat.dvd_zero _

/-- One round of the rational filter, whether or not its counter wraps. -/
theorem whileLoop_fires {r : RationalFIR ℚ} (h : InRange r.rateI r.delayIndex r.taps r.delayLine)
    (hlt : r.outIndex < r.rateI) (fuel : ℕ) (outs : List ℚ) :
    ∃ o, whileLoop RationalFilter.firing RationalFilter.fire (fuel + 1) (r, outs) =
      whileLoop RationalFilter.firing RationalFilter.fire fuel
        ({ r with outIndex := u32 (r.outIndex + r.rateD) }, outs ++ [o]) := by
  obtain ⟨o, ho⟩ := exists_calcPolyphase hlt h.table h.delay_lt
  have hfiring : RationalFilter.firing (r, outs) = true := by
    simpa [RationalFilter.firing] using hlt
  refine ⟨o, ?_⟩
  rw [whileLoop, if_pos hfiring, RationalFilter.fire, ho]
  rfl

theorem whileLoop_waits {r : RationalFIR ℚ} (hge : r.rateI ≤ r.outIndex) (fuel : ℕ)
    (outs : List ℚ) :
    whileLoop RationalFilter.firing RationalFilter.fire fuel (r, outs) = .ok (r, outs) := by
  have hwaiting : ¬ RationalFilter.firing (r, outs) = true := by
    simpa [RationalFilter.firing] using hge
  cases fuel with
  | zero => rw [whileLoop, if_neg hwaiting]
  | succ fuel => rw [whileLoop, if_neg hwaiting]

/-- An input whose first output moves the phase behind the rate. -/
theorem filterSample_once {r : RationalFIR ℚ}
    (h : InRange r.rateI r.delayIndex r.taps r.delayLine) (hlt : r.outIndex < r.rateI)
    (hge : r.rateI ≤ u32 (r.outIndex + r.rateD)) (fuel : ℕ) (sample : ℚ) :
    ∃ a r', RationalFilter.filterSample (fuel + 1) r sample = .ok (r', [a]) ∧
      r'.rateI = r.rateI ∧ r'.rateD = r.rateD ∧
      r'.outIndex = u32 (r.outIndex + r.rateD) - r.rateI ∧
      InRange r'.rateI r'.delayIndex r'.taps r'.delayLine := by
  obtain ⟨a, ha⟩ := whileLoop_fires
    (r := { r with delayLine := r.delayLine.set r.delayIndex sample }) (h.write sample) hlt fuel []
  refine ⟨a, RationalFilter.endSample { r with
    delayLine := r.delayLine.set r.delayIndex sample
    outIndex := u32 (r.outIndex + r.rateD) }, ?_, rfl, rfl, rfl, (h.write sample).advance⟩
  rw [RationalFilter.filterSample, writeAt_of_lt h.delay_lt, ok_bind, ha, whileLoop_waits hge]
  rfl

/-- An input on which the counter wraps and the filter fires again. -/
theorem filterSample_twice {r : RationalFIR ℚ}
    (h : InRange r.rateI r.delayIndex r.taps r.delayLine) (hlt : r.outIndex < r.rateI)
    (hwrap : u32 (r.outIndex + r.rateD) < r.rateI)
    (hge : r.rateI ≤ u32 (u32 (r.outIndex + r.rateD) + r.rateD)) (fuel : ℕ) (sample : ℚ) :
    ∃ a b r', RationalFilter.filterSample (fuel + 2) r sample = .ok (r', [a, b]) := by
  obtain ⟨a, ha⟩ := whileLoop_fires
    (r := { r with delayLine := r.delayLine.set r.delayIndex sample }) (h.write sample) hlt
    (fuel + 1) []
  obtain ⟨b, hb⟩ := whileLoop_fires
    (r := { r with
      delayLine := r.delayLine.set r.delayIndex sample
      outIndex := u32 (r.outIndex + r.rateD) }) (h.write sample) hwrap fuel ([] ++ [a])
  refine ⟨a, b, RationalFilter.endSample { r with
    delayLine := r.delayLine.set r.delayIndex sample
    outIndex := u32 (u32 (r.outIndex + r.rateD) + r.rateD) }, ?_⟩
  rw [RationalFilter.filterSample, writeAt_of_lt h.delay_lt, ok_bind, ha, hb, whileLoop_waits hge]
  rfl

/-- Rates of 2 ^ 31 and 3 * 2 ^ 30: the second input meets the phase 2 ^ 30, and
the next one is 2 ^ 32. -/
theorem counter_wraps {table : List ℚ} (hlength : table.length = 2 ^ 31) :
    ∃ r' a b c, RationalFilter.filterCalls 3
      (RationalFilter.ofTable table (2 ^ 31) (3 * 2 ^ 30)) [[0], [0]] =
        .ok (r', [[a], [b, c]]) := by
  have hin := @inRange_ofTable table (2 ^ 31) (3 * 2 ^ 30) (by decide) (by rw [hlength]; decide)
  obtain ⟨a, mid, hfirst, hI, hD, hphase, hmid⟩ := filterSample_once
    (r := RationalFilter.ofTable table (2 ^ 31) (3 * 2 ^ 30)) hin
    (show 0 < 2 ^ 31 by decide) (show 2 ^ 31 ≤ u32 (0 + 3 * 2 ^ 30) by decide) 2 0
  have hI' : mid.rateI = 2 ^ 31 := hI
  have hD' : mid.rateD = 3 * 2 ^ 30 := hD
  have hphase' : mid.outIndex = 2 ^ 30 := hphase.trans
    (show u32 (0 + 3 * 2 ^ 30) - 2 ^ 31 = 2 ^ 30 by decide)
  obtain ⟨b, c, r', hsecond⟩ := filterSample_twice hmid
    (by rw [hphase', hI']; decide) (by rw [hphase', hI', hD']; decide)
    (by rw [hphase', hI', hD']; decide) 1 0
  refine ⟨r', a, b, c, ?_⟩
  simp only [RationalFilter.filterCalls, runCalls, run, hfirst, hsecond, ok_bind,
    List.append_nil]

end EsSensor.FilterEquivalence
