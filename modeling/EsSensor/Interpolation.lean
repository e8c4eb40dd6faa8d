import EsSensor.FractionalFilter
import EsSensor.RationalFilter
import Mathlib.Algebra.BigOperators.Ring.Finset
import Mathlib.Algebra.Order.Floor.Semifield

/-!
What the fractional filter computes, against the interpolated impulse response
that it stands for. The second branch of an output is the next one in the
table, except after the last phase, where the source goes back to the first.
-/
namespace EsSensor.Interpolation

open CheckedLoop StreamMachine CyclicIndex DelayLine MachineWord Polyphase FractionalFilter
open RationalFilter (branchOutput)

section Schedule

variable (rateI : ℕ) (rateD : ℚ)

/-- How many outputs fall before input number n: those with `m * rateD < n * rateI`. -/
def outputsBefore (n : ℕ) : ℕ := ⌈(n * rateI : ℚ) / rateD⌉₊

/-- The input on which output m falls. -/
def inputAt (m : ℕ) : ℕ := ⌊(m * rateD : ℚ) / rateI⌋₊

/-- The branch of output m. -/
def phaseAt (m : ℕ) : ℕ := ⌊(m * rateD : ℚ)⌋₊ - inputAt rateI rateD m * rateI

/-- How far output m lies between two branches. -/
def fractionAt (m : ℕ) : ℚ := m * rateD - ⌊(m * rateD : ℚ)⌋₊

variable {rateI rateD}

theorem lt_outputsBefore (hD : 0 < rateD) (n m : ℕ) :
    m < outputsBefore rateI rateD n ↔ m * rateD < n * rateI := by
  rw [outputsBefore, Nat.lt_ceil, lt_div_iff₀ hD]

theorem outputsBefore_zero : outputsBefore rateI rateD 0 = 0 := by
  simp [outputsBefore]

theorem outputsBefore_mono (hD : 0 < rateD) : Monotone (outputsBefore rateI rateD) := by
  intro a b hab
  apply Nat.ceil_le_ceil
  have hcast : (a : ℚ) ≤ b := by exact_mod_cast hab
  gcongr

/-- On one input fall at most as many outputs as steps fit into a period. -/
theorem outputsBefore_succ_le (n : ℕ) :
    outputsBefore rateI rateD (n + 1) ≤ outputsBefore rateI rateD n + ⌈(rateI : ℚ) / rateD⌉₊ := by
  have hsplit : (((n + 1 : ℕ) : ℚ) * rateI) / rateD = n * rateI / rateD + rateI / rateD := by
    push_cast
    ring
  rw [outputsBefore, hsplit]
  exact Nat.ceil_add_le _ _

/-- The place of output m is read off the phase counter when it is made. -/
theorem schedule_of_phase {n m : ℕ} {phase : ℚ} (hI : 1 ≤ rateI) (hpos : 0 ≤ phase)
    (hlt : phase < rateI) (hphase : phase + n * rateI = m * rateD) :
    inputAt rateI rateD m = n ∧ phaseAt rateI rateD m = ⌊phase⌋₊ ∧
      fractionAt rateD m = phase - ⌊phase⌋₊ := by
  have hI' : (0 : ℚ) < rateI := by exact_mod_cast hI
  have hinput : inputAt rateI rateD m = n := by
    rw [inputAt, ← hphase, Nat.floor_eq_iff (by positivity), le_div_iff₀ hI', div_lt_iff₀ hI']
    constructor <;> linarith
  have hfloor : ⌊(m * rateD : ℚ)⌋₊ = ⌊phase⌋₊ + n * rateI := by
    have hcast : (n * rateI : ℚ) = (n * rateI : ℕ) := by push_cast; rfl
    rw [← hphase, hcast, Nat.floor_add_natCast hpos]
  refine ⟨hinput, ?_, ?_⟩
  · rw [phaseAt, hinput, hfloor, Nat.add_sub_cancel]
  · rw [fractionAt, hfloor, ← hphase]
    push_cast
    ring

end Schedule

/-- `outIndex += 1; if (outIndex >= rateI) outIndex = 0;` -/
def nextPhase (rateI phase : ℕ) : ℕ := if rateI ≤ phase + 1 then 0 else phase + 1

section Tracking

variable (taps : List ℚ) (rateI : ℕ) (rateD : ℚ) (signal : ℕ → ℚ)

/-- Output number m, as the source computes it. -/
def scheduledOutput (m : ℕ) : ℚ :=
  fractionAt rateD m *
      branchOutput taps rateI signal (inputAt rateI rateD m)
        (nextPhase rateI (phaseAt rateI rateD m)) +
    (1 - fractionAt rateD m) *
      branchOutput taps rateI signal (inputAt rateI rateD m) (phaseAt rateI rateD m)

/-- The state before input number n: the delay line holds the last inputs and
the phase is what output number `outputsBefore n` still has to wait. -/
structure Tracks (n : ℕ) (f : FrationalFIR) : Prop where
  taps_eq : f.taps = taps
  rateI_eq : f.rateI = rateI
  rateD_eq : f.rateD = rateD
  line : Holds signal (taps.length / rateI) n f.delayLine f.delayIndex
  phase : f.outIndex + n * rateI = outputsBefore rateI rateD n * rateD

theorem tracks_ofTable (hL : 1 ≤ taps.length / rateI) :
    Tracks taps rateI rateD signal 0 (ofTable taps rateI rateD) where
  taps_eq := rfl
  rateI_eq := rfl
  rateD_eq := rfl
  line := holds_replicate signal hL
  phase := by simp [ofTable, outputsBefore_zero]

/-- Inside the output loop of input number n, when m outputs have been made. -/
structure Firing (n m : ℕ) (cells : List ℚ) (s : FrationalFIR × List ℚ) : Prop where
  taps_eq : s.1.taps = taps
  rateI_eq : s.1.rateI = rateI
  rateD_eq : s.1.rateD = rateD
  line_eq : s.1.delayLine = cells
  index_eq : s.1.delayIndex = n % (taps.length / rateI)
  phase : s.1.outIndex + n * rateI = m * rateD
  not_late : m ≤ outputsBefore rateI rateD (n + 1)
  made : outputsBefore rateI rateD n ≤ m
  outs_eq : s.2 = (List.range' (outputsBefore rateI rateD n)
    (m - outputsBefore rateI rateD n)).map (scheduledOutput taps rateI rateD signal)

variable {taps rateI rateD signal}

theorem Firing.phase_nonneg {n m : ℕ} {cells : List ℚ} {s : FrationalFIR × List ℚ}
    (hD : 0 < rateD) (hs : Firing taps rateI rateD signal n m cells s) : 0 ≤ s.1.outIndex := by
  have hnot : ¬ (m : ℚ) * rateD < n * rateI := by
    rw [← lt_outputsBefore hD]
    exact Nat.not_lt.mpr hs.made
  have hphase := hs.phase
  linarith

/-- The two branches of an output, as words. -/
theorem branchIndex_of_phase {f : FrationalFIR} (hword : f.rateI < 2 ^ 32)
    (hpos : 0 ≤ f.outIndex) (hlt : f.outIndex < f.rateI) :
    branchIndex f 0 = ⌊f.outIndex⌋₊ ∧ branchIndex f 1 = nextPhase f.rateI ⌊f.outIndex⌋₊ := by
  have hfloor : ⌊f.outIndex⌋₊ < f.rateI := (Nat.floor_lt hpos).mpr hlt
  have hnat : (truncate f.outIndex).toNat = ⌊f.outIndex⌋₊ := by
    rw [truncate, if_pos hpos]
    rfl
  unfold branchIndex nextPhase
  rw [hnat, u32_of_lt (show ⌊f.outIndex⌋₊ < 2 ^ 32 by omega),
    u32_of_lt (show ⌊f.outIndex⌋₊ + 0 < 2 ^ 32 by omega),
    u32_of_lt (show ⌊f.outIndex⌋₊ + 1 < 2 ^ 32 by omega)]
  exact ⟨if_neg (by omega), rfl⟩

/-- One round makes output number m and moves on to output number m + 1. -/
theorem firing_step {n m : ℕ} {cells : List ℚ} {s : FrationalFIR × List ℚ} (hI : 1 ≤ rateI)
    (hD : 0 < rateD) (hword : rateI < 2 ^ 32)
    (hL : 1 ≤ taps.length / rateI) (hlength : cells.length = taps.length / rateI)
    (hcells : ∀ j < taps.length / rateI,
      cells[(n + taps.length / rateI - j) % (taps.length / rateI)]? =
        some (recent signal (n + 1) j))
    (hs : Firing taps rateI rateD signal n m cells s) (hcond : firing s = true) :
    m < outputsBefore rateI rateD (n + 1) ∧
      ∃ s', fire s = .ok s' ∧ Firing taps rateI rateD signal n (m + 1) cells s' := by
  have hlt : s.1.outIndex < rateI := by simpa [firing, hs.rateI_eq] using hcond
  have hpos := hs.phase_nonneg hD
  have hphase := hs.phase
  have hmade := hs.made
  obtain ⟨hinput, hbranch, hfraction⟩ := schedule_of_phase hI hpos hlt hphase
  obtain ⟨hfirst, hsecond⟩ := branchIndex_of_phase (f := s.1) (by rw [hs.rateI_eq]; exact hword)
    hpos (by rw [hs.rateI_eq]; exact hlt)
  have hsum : ∀ offset, branch s.1 offset =
      .ok (branchOutput taps rateI signal n (branchIndex s.1 offset)) := by
    intro offset
    have hin := branchIndex_lt s.1 (by rw [hs.rateI_eq]; exact hI) offset
    rw [hs.rateI_eq] at hin
    rw [branch, hs.taps_eq, hs.line_eq, hs.rateI_eq, hs.index_eq]
    exact calcPolyphase_eq hL hlength hcells hin (Nat.mul_div_le taps.length rateI)
  have htruncate : (truncate s.1.outIndex : ℚ) = ⌊s.1.outIndex⌋₊ := by
    rw [truncate, if_pos hpos, natCast_floor_eq_intCast_floor hpos]
  have hdue : m < outputsBefore rateI rateD (n + 1) := by
    rw [lt_outputsBefore hD]
    push_cast
    linarith
  refine ⟨hdue, ({ s.1 with outIndex := s.1.outIndex + rateD },
    s.2 ++ [scheduledOutput taps rateI rateD signal m]), ?_, ?_⟩
  · rw [fire, hsum, hsum, hfirst, hsecond, hs.rateI_eq, hs.rateD_eq, htruncate, ← hfraction,
      ← hbranch, scheduledOutput, hinput]
    rfl
  · refine ⟨hs.taps_eq, hs.rateI_eq, hs.rateD_eq, hs.line_eq, hs.index_eq, ?_, hdue, by omega, ?_⟩
    · change s.1.outIndex + rateD + n * rateI = _
      push_cast
      linarith
    · change s.2 ++ [_] = _
      rw [hs.outs_eq, map_range'_succ _ hmade]

/-- The step lemma: one input makes the outputs that fall on it. -/
theorem tracks_advances (fuel : ℕ) (hI : 1 ≤ rateI) (hD : 0 < rateD) (hword : rateI < 2 ^ 32)
    (hL : 1 ≤ taps.length / rateI) (hfuel : ⌈(rateI : ℚ) / rateD⌉₊ ≤ fuel) :
    Advances (filterSample fuel) signal (Tracks taps rateI rateD signal)
      (numbered (outputsBefore rateI rateD) (scheduledOutput taps rateI rateD signal)) := by
  intro n f hf
  set cells := f.delayLine.set f.delayIndex (signal n) with hwritten
  have hlength : cells.length = taps.length / rateI := by
    rw [hwritten, List.length_set, hf.line.length_eq]
  have hwrite : writeAt f.delayLine f.delayIndex (signal n) = .ok cells :=
    writeAt_of_lt (hf.line.index_lt hL) (signal n)
  have hstart : Firing taps rateI rateD signal n (outputsBefore rateI rateD n) cells
      ({ f with delayLine := cells }, []) :=
    ⟨hf.taps_eq, hf.rateI_eq, hf.rateD_eq, rfl, hf.line.index_eq, hf.phase,
      outputsBefore_mono hD (Nat.le_succ n), Nat.le_refl _, by simp⟩
  have hrounds : outputsBefore rateI rateD (n + 1) ≤ outputsBefore rateI rateD n + fuel := by
    have hstep := @outputsBefore_succ_le rateI rateD n
    omega
  have hround : ∀ m s, Firing taps rateI rateD signal n m cells s → firing s = true →
      m < outputsBefore rateI rateD (n + 1) ∧
        ∃ s', fire s = .ok s' ∧ Firing taps rateI rateD signal n (m + 1) cells s' :=
    fun _ _ hs hcond => firing_step hI hD hword hL hlength (hf.line.write hL) hs hcond
  -- the loop ends exactly when the next output waits for a later input
  have hexit : ∀ m s, Firing taps rateI rateD signal n m cells s → firing s = false →
      m = outputsBefore rateI rateD (n + 1) := by
    intro m s hs hstop
    have hge : (rateI : ℚ) ≤ s.1.outIndex := by simpa [firing, hs.rateI_eq] using hstop
    have hphase := hs.phase
    have hlate := hs.not_late
    have hwait : ¬ m < outputsBefore rateI rateD (n + 1) := by
      rw [lt_outputsBefore hD]
      push_cast
      linarith
    omega
  obtain ⟨s, hloop, hs, _⟩ := whileLoop_counts hround hexit hstart hrounds
  have hphase := hs.phase
  refine ⟨endSample s.1, by simp [filterSample, hwrite, hloop, hs.outs_eq, numbered], ?_⟩
  refine ⟨hs.taps_eq, hs.rateI_eq, hs.rateD_eq, ?_, ?_⟩
  · have hadvance := hf.line.advance hL
    rw [← hwritten, hf.line.index_eq] at hadvance
    simpa [endSample, hs.line_eq, hs.index_eq, hlength] using hadvance
  · change s.1.outIndex - s.1.rateI + ((n + 1 : ℕ) : ℚ) * rateI = _
    rw [hs.rateI_eq]
    push_cast
    linarith

end Tracking

/-- Any cut of a stream into calls: what each call returns. -/
theorem filterCalls_ofTable (taps : List ℚ) {rateI fuel : ℕ} {rateD : ℚ} (hI : 1 ≤ rateI)
    (hD : 0 < rateD) (hword : rateI < 2 ^ 32) (hL : 1 ≤ taps.length / rateI)
    (hfuel : ⌈(rateI : ℚ) / rateD⌉₊ ≤ fuel) (calls : List (List ℚ)) :
    ∃ f, filterCalls fuel (ofTable taps rateI rateD) calls =
      .ok (f, callOutputs (numbered (outputsBefore rateI rateD)
        (scheduledOutput taps rateI rateD (fun i => calls.flatten.getD i 0))) 0 calls) := by
  obtain ⟨f, hrun, _⟩ := runCalls_advances
    (tracks_advances fuel hI hD hword hL hfuel) calls 0 (ofTable taps rateI rateD)
    (follows_getD calls.flatten 0) (tracks_ofTable taps rateI rateD _ hL)
  exact ⟨f, hrun⟩

/-- The sample that is j inputs older than input i, zero before the start. -/
def sampleAt (x : List ℚ) (i j : ℕ) : ℚ := if j ≤ i then x.getD (i - j) 0 else 0

/-- A branch of the table, summed over the inputs up to number i. -/
def branchSum (T : List ℚ) (L rateI : ℕ) (x : List ℚ) (i phase : ℕ) : ℚ :=
  ∑ j ∈ Finset.range L, sampleAt x i j * T.getD (phase + rateI * j) 0

/-- Output m of the impulse response, interpolated between neighbouring taps;
behind the end of the table a tap is zero. -/
def interpolated (T : List ℚ) (L rateI : ℕ) (rateD : ℚ) (x : List ℚ) (m : ℕ) : ℚ :=
  ∑ j ∈ Finset.range L, sampleAt x (inputAt rateI rateD m) j *
    ((1 - fractionAt rateD m) * T.getD (phaseAt rateI rateD m + rateI * j) 0 +
      fractionAt rateD m * T.getD (phaseAt rateI rateD m + 1 + rateI * j) 0)

/-- The wrap to the first phase makes no difference: the phase is not the last,
or the second branch has no weight, or it happens to have the same sum. -/
def WrapHarmless (T : List ℚ) (L rateI : ℕ) (rateD : ℚ) (x : List ℚ) (m : ℕ) : Prop :=
  phaseAt rateI rateD m + 1 < rateI ∨ fractionAt rateD m = 0 ∨
    branchSum T L rateI x (inputAt rateI rateD m) 0 =
      branchSum T L rateI x (inputAt rateI rateD m) rateI

section Output

variable {T : List ℚ} {L rateI : ℕ} {rateD : ℚ} {x : List ℚ} {m : ℕ}

theorem phaseAt_lt (hI : 1 ≤ rateI) : phaseAt rateI rateD m < rateI := by
  have hsplit := Nat.div_add_mod' ⌊(m * rateD : ℚ)⌋₊ rateI
  have hlt := Nat.mod_lt ⌊(m * rateD : ℚ)⌋₊ hI
  rw [phaseAt, inputAt, Nat.floor_div_natCast]
  omega

theorem interpolated_eq : interpolated T L rateI rateD x m =
    fractionAt rateD m * branchSum T L rateI x (inputAt rateI rateD m)
        (phaseAt rateI rateD m + 1) +
      (1 - fractionAt rateD m) * branchSum T L rateI x (inputAt rateI rateD m)
        (phaseAt rateI rateD m) := by
  rw [interpolated, branchSum, branchSum, Finset.mul_sum, Finset.mul_sum,
    ← Finset.sum_add_distrib]
  apply Finset.sum_congr rfl
  intro j _
  ring

theorem branchOutput_getD (hI : 1 ≤ rateI) (hlength : T.length = L * rateI) (i phase : ℕ) :
    branchOutput T rateI (fun k => x.getD k 0) i phase = branchSum T L rateI x i phase := by
  rw [branchOutput, branchSum, hlength, Nat.mul_div_cancel L hI]
  apply Finset.sum_congr rfl
  intro j _
  simp only [recent, sampleAt, Nat.lt_succ_iff, Nat.add_sub_cancel]
  ring

/-- One output is the interpolated one exactly when the wrap is harmless for it. -/
theorem scheduledOutput_eq_iff (hI : 1 ≤ rateI) (hlength : T.length = L * rateI) :
    scheduledOutput T rateI rateD (fun k => x.getD k 0) m = interpolated T L rateI rateD x m ↔
      WrapHarmless T L rateI rateD x m := by
  have hphase := @phaseAt_lt rateI rateD m hI
  rw [scheduledOutput, interpolated_eq, branchOutput_getD hI hlength,
    branchOutput_getD hI hlength, add_left_inj]
  by_cases hlast : phaseAt rateI rateD m + 1 < rateI
  · rw [nextPhase, if_neg (by omega)]
    exact iff_of_true rfl (Or.inl hlast)
  · have hend : phaseAt rateI rateD m + 1 = rateI := by omega
    rw [nextPhase, if_pos (by omega), hend, WrapHarmless, mul_eq_mul_left_iff]
    tauto

end Output

end EsSensor.Interpolation
