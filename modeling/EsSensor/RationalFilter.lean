import EsSensor.Library.StreamMachine
import EsSensor.Library.MachineWord
import EsSensor.Polyphase

/-!
The rational polyphase resampler. Zero-stuffing by `rateI`, convolution with the
tap table and decimation by `rateD` are done at once: a circular delay line
holds the inputs and a phase counter decides when and with which branch an
output falls. The stream may be cut into calls anywhere.
-/
namespace EsSensor.RationalFilter

open CheckedLoop StreamMachine CyclicIndex DelayLine MachineWord Polyphase

variable {α : Type} [CommSemiring α]

structure RationalFIR (α : Type) where
  taps : List α
  rateI : ℕ
  rateD : ℕ
  delayLine : List α
  delayIndex : ℕ
  outIndex : ℕ

/-- A filter that has stored the table `taps` and has seen no sample. -/
def ofTable (taps : List α) (rateI rateD : ℕ) : RationalFIR α where
  taps := taps
  rateI := rateI
  rateD := rateD
  delayLine := List.replicate (taps.length / rateI) 0
  delayIndex := 0
  outIndex := 0

/-- The constructor; the remainder by `rateI` is a division. -/
def new (taps : List α) (rateI rateD : ℕ) : Except Fault (RationalFIR α) :=
  if rateI = 0 then .error .divByZero
  else .ok (ofTable (padTaps taps rateI) rateI rateD)

/-- One round of the output loop: an output and the step of the phase counter. -/
def fire (s : RationalFIR α × List α) : Except Fault (RationalFIR α × List α) := do
  let o ← calcPolyphase s.1.taps s.1.delayLine s.1.rateI s.1.delayIndex s.1.outIndex
  .ok ({ s.1 with outIndex := u32 (s.1.outIndex + s.1.rateD) }, s.2 ++ [o])

def firing (s : RationalFIR α × List α) : Bool := decide (s.1.outIndex < s.1.rateI)

/-- What follows the output loop. It was left with `outIndex ≥ rateI`, so the
subtraction does not wrap. -/
def endSample (f : RationalFIR α) : RationalFIR α :=
  { f with
    outIndex := f.outIndex - f.rateI
    delayIndex := next f.delayLine.length f.delayIndex }

/-- The loop body of `filter` for one input sample. -/
def filterSample (fuel : ℕ) (f : RationalFIR α) (sample : α) :
    Except Fault (RationalFIR α × List α) := do
  let delayLine ← writeAt f.delayLine f.delayIndex sample
  let s ← whileLoop firing fire fuel ({ f with delayLine := delayLine }, [])
  .ok (endSample s.1, s.2)

def filter (fuel : ℕ) (f : RationalFIR α) (samplesIn : List α) :
    Except Fault (RationalFIR α × List α) :=
  run (filterSample fuel) f samplesIn

def filterCalls (fuel : ℕ) (f : RationalFIR α) (calls : List (List α)) :
    Except Fault (RationalFIR α × List (List α)) :=
  runCalls (filterSample fuel) f calls

/-- Output number m of the chain zero-stuff, convolve, decimate. -/
def polyphaseOutput (taps : List α) (rateI rateD : ℕ) (x : List α) (m : ℕ) : α :=
  ∑ j ∈ Finset.range (taps.length / rateI),
    taps.getD (m * rateD % rateI + rateI * j) 0 *
      if j ≤ m * rateD / rateI then x.getD (m * rateD / rateI - j) 0 else 0

section Schedule

variable (rateI rateD : ℕ)

/-- How many outputs fall before input number n: those with `m * rateD < n * rateI`. -/
def outputsBefore (n : ℕ) : ℕ := (n * rateI + (rateD - 1)) / rateD

variable {rateI rateD}

theorem lt_outputsBefore (hD : 1 ≤ rateD) (n m : ℕ) :
    m < outputsBefore rateI rateD n ↔ m * rateD < n * rateI := by
  unfold outputsBefore
  rw [Nat.lt_iff_add_one_le, Nat.le_div_iff_mul_le hD, Nat.add_mul]
  omega

theorem outputsBefore_mono {a b : ℕ} (hab : a ≤ b) :
    outputsBefore rateI rateD a ≤ outputsBefore rateI rateD b := by
  apply Nat.div_le_div_right
  have hmul := Nat.mul_le_mul_right rateI hab
  omega

/-- Output m falls on input number `m * rateD / rateI`. -/
theorem lt_outputsBefore_iff_div (hI : 1 ≤ rateI) (hD : 1 ≤ rateD) (n m : ℕ) :
    m < outputsBefore rateI rateD n ↔ m * rateD / rateI < n := by
  rw [lt_outputsBefore hD, Nat.div_lt_iff_lt_mul hI]

theorem outputsBefore_le (hD : 1 ≤ rateD) (n : ℕ) :
    outputsBefore rateI rateD n ≤ n * rateI := by
  by_contra hlt
  have hfall : n * rateI * rateD < n * rateI :=
    (lt_outputsBefore hD n (n * rateI)).mp (by omega)
  have hge := Nat.le_mul_of_pos_right (n * rateI) hD
  omega

/-- On one input fall at most `rateI` outputs. -/
theorem outputsBefore_succ_le (hD : 1 ≤ rateD) (n : ℕ) :
    outputsBefore rateI rateD (n + 1) ≤ outputsBefore rateI rateD n + rateI := by
  by_contra hnot
  have hfall := (lt_outputsBefore hD (n + 1) _).mp (Nat.lt_of_not_le hnot)
  have hwait := mt (lt_outputsBefore hD n (outputsBefore rateI rateD n)).mpr (Nat.lt_irrefl _)
  have hge := Nat.le_mul_of_pos_right rateI hD
  rw [Nat.add_mul, Nat.add_mul] at hfall
  omega

private theorem filter_range_interval (lo hi bound : ℕ) (hlo : lo ≤ hi) (hhi : hi ≤ bound) :
    (List.range bound).filter (fun m => decide (lo ≤ m ∧ m < hi)) =
      List.range' lo (hi - lo) := by
  have hsplit : List.range bound =
      List.range' 0 lo ++ (List.range' lo (hi - lo) ++ List.range' hi (bound - hi)) := by
    have hmid := List.range'_append_1 (s := lo) (m := hi - lo) (n := bound - hi)
    have hall := List.range'_append_1 (s := 0) (m := lo) (n := bound - lo)
    rw [Nat.add_sub_cancel' hlo] at hmid
    rw [Nat.zero_add, Nat.add_sub_cancel' (Nat.le_trans hlo hhi)] at hall
    rw [hmid, show hi - lo + (bound - hi) = bound - lo by omega, hall, List.range_eq_range']
  rw [hsplit, List.filter_append, List.filter_append]
  have hbelow : (List.range' 0 lo).filter (fun m => decide (lo ≤ m ∧ m < hi)) = [] := by
    simp only [List.filter_eq_nil_iff, List.mem_range'_1, decide_eq_true_eq]
    omega
  have habove : (List.range' hi (bound - hi)).filter (fun m => decide (lo ≤ m ∧ m < hi)) = [] := by
    simp only [List.filter_eq_nil_iff, List.mem_range'_1, decide_eq_true_eq]
    omega
  have hinside : (List.range' lo (hi - lo)).filter (fun m => decide (lo ≤ m ∧ m < hi)) =
      List.range' lo (hi - lo) := by
    simp only [List.filter_eq_self, List.mem_range'_1, decide_eq_true_eq]
    omega
  rw [hbelow, habove, hinside, List.nil_append, List.append_nil]

/-- The outputs numbered between two counts are those falling on these inputs. -/
theorem range'_outputsBefore (hI : 1 ≤ rateI) (hD : 1 ≤ rateD) {a b : ℕ} (hab : a ≤ b) :
    List.range' (outputsBefore rateI rateD a)
        (outputsBefore rateI rateD b - outputsBefore rateI rateD a) =
      (List.range (b * rateI)).filter
        (fun m => decide (a ≤ m * rateD / rateI ∧ m * rateD / rateI < b)) := by
  rw [← filter_range_interval _ _ _ (outputsBefore_mono hab) (outputsBefore_le hD b)]
  apply List.filter_congr
  intro m _
  have hlow := lt_outputsBefore_iff_div hI hD a m
  have hhigh := lt_outputsBefore_iff_div hI hD b m
  simp only [decide_eq_decide]
  omega

end Schedule

section Tracking

variable (taps : List α) (rateI rateD : ℕ) (signal : ℕ → α)

/-- The output of one branch when the newest input is number n. -/
def branchOutput (n outIndex : ℕ) : α :=
  ∑ j ∈ Finset.range (taps.length / rateI),
    taps.getD (outIndex + rateI * j) 0 * recent signal (n + 1) j

/-- Output number m, read off the schedule. -/
def scheduledOutput (m : ℕ) : α :=
  branchOutput taps rateI signal (m * rateD / rateI) (m * rateD % rateI)

/-- The outputs that fall on input number n. -/
def due (n : ℕ) : List α :=
  (List.range' (outputsBefore rateI rateD n)
    (outputsBefore rateI rateD (n + 1) - outputsBefore rateI rateD n)).map
    (scheduledOutput taps rateI rateD signal)

/-- The state before input number n: the delay line holds the last inputs and
the phase counter is what output number `outputsBefore n` still has to wait. -/
structure Tracks (n : ℕ) (f : RationalFIR α) : Prop where
  taps_eq : f.taps = taps
  rateI_eq : f.rateI = rateI
  rateD_eq : f.rateD = rateD
  line : Holds signal (taps.length / rateI) n f.delayLine f.delayIndex
  phase : f.outIndex + n * rateI = outputsBefore rateI rateD n * rateD

theorem tracks_ofTable (hD : 1 ≤ rateD) (hL : 1 ≤ taps.length / rateI) :
    Tracks taps rateI rateD signal 0 (ofTable taps rateI rateD) where
  taps_eq := rfl
  rateI_eq := rfl
  rateD_eq := rfl
  line := holds_replicate signal hL
  phase := by
    have hle : outputsBefore rateI rateD 0 ≤ 0 * rateI := outputsBefore_le hD 0
    have hzero : outputsBefore rateI rateD 0 = 0 := by omega
    simp [ofTable, hzero]

/-- Inside the output loop of input number n, when m outputs have been made. -/
structure Firing (n m : ℕ) (cells : List α) (s : RationalFIR α × List α) : Prop where
  taps_eq : s.1.taps = taps
  rateI_eq : s.1.rateI = rateI
  rateD_eq : s.1.rateD = rateD
  line_eq : s.1.delayLine = cells
  index_eq : s.1.delayIndex = n % (taps.length / rateI)
  phase : s.1.outIndex + n * rateI = m * rateD
  not_late : m ≤ outputsBefore rateI rateD (n + 1)
  made : outputsBefore rateI rateD n ≤ m
  outs_eq : s.2 = (List.range' (outputsBefore rateI rateD n)
    (m - outputsBefore rateI rateD n)).map (scheduledOutput taps rateI rateD signal)

variable {taps rateI rateD signal}

/-- One round makes output number m and moves on to output number m + 1. -/
theorem firing_step {n m : ℕ} {cells : List α} {s : RationalFIR α × List α}
    (hD : 1 ≤ rateD) (hword : rateI + rateD < 2 ^ 32)
    (hL : 1 ≤ taps.length / rateI) (hlength : cells.length = taps.length / rateI)
    (hcells : ∀ j < taps.length / rateI,
      cells[(n + taps.length / rateI - j) % (taps.length / rateI)]? =
        some (recent signal (n + 1) j))
    (hs : Firing taps rateI rateD signal n m cells s) (hcond : firing s = true) :
    m < outputsBefore rateI rateD (n + 1) ∧
      ∃ s', fire s = .ok s' ∧ Firing taps rateI rateD signal n (m + 1) cells s' := by
  have hlt : s.1.outIndex < rateI := by
    simpa [firing, hs.rateI_eq] using hcond
  have hphase := hs.phase
  have hmade := hs.made
  -- the phase counter is the remainder of m * rateD, and the input its quotient
  have hpos : n * rateI + s.1.outIndex = m * rateD := by omega
  have hquot : m * rateD / rateI = n := by
    rw [← hpos, Nat.mul_comm n, Nat.mul_add_div (by omega), Nat.div_eq_of_lt hlt, Nat.add_zero]
  have hrem : m * rateD % rateI = s.1.outIndex := by
    rw [← hpos, Nat.mul_comm n, Nat.mul_add_mod, Nat.mod_eq_of_lt hlt]
  have hbranch : calcPolyphase s.1.taps s.1.delayLine s.1.rateI s.1.delayIndex s.1.outIndex =
      .ok (scheduledOutput taps rateI rateD signal m) := by
    rw [hs.taps_eq, hs.line_eq, hs.rateI_eq, hs.index_eq,
      calcPolyphase_eq hL hlength hcells hlt (Nat.mul_div_le taps.length rateI)]
    rw [scheduledOutput, branchOutput, hquot, hrem]
  have hnowrap : u32 (s.1.outIndex + rateD) = s.1.outIndex + rateD := u32_of_lt (by omega)
  have hdue : m < outputsBefore rateI rateD (n + 1) := by
    rw [lt_outputsBefore hD, Nat.add_mul]
    omega
  refine ⟨hdue, ({ s.1 with outIndex := s.1.outIndex + rateD },
    s.2 ++ [scheduledOutput taps rateI rateD signal m]), ?_, ?_⟩
  · simp [fire, hbranch, hs.rateD_eq, hnowrap]
  · refine ⟨hs.taps_eq, hs.rateI_eq, hs.rateD_eq, hs.line_eq, hs.index_eq, ?_, hdue, by omega, ?_⟩
    · rw [Nat.add_mul]
      change s.1.outIndex + rateD + n * rateI = _
      omega
    · change s.2 ++ [_] = _
      rw [hs.outs_eq, map_range'_succ _ hmade]

/-- The step lemma: one input makes the outputs that fall on it. -/
theorem tracks_advances (fuel : ℕ) (hD : 1 ≤ rateD) (hword : rateI + rateD < 2 ^ 32)
    (hL : 1 ≤ taps.length / rateI) (hfuel : rateI ≤ fuel) :
    Advances (filterSample fuel) signal (Tracks taps rateI rateD signal)
      (due taps rateI rateD signal) := by
  intro n f hf
  set cells := f.delayLine.set f.delayIndex (signal n) with hwritten
  have hlength : cells.length = taps.length / rateI := by
    rw [hwritten, List.length_set, hf.line.length_eq]
  have hwrite : writeAt f.delayLine f.delayIndex (signal n) = .ok cells :=
    writeAt_of_lt (hf.line.index_lt hL) (signal n)
  have hstart : Firing taps rateI rateD signal n (outputsBefore rateI rateD n) cells
      ({ f with delayLine := cells }, []) :=
    ⟨hf.taps_eq, hf.rateI_eq, hf.rateD_eq, rfl, hf.line.index_eq, hf.phase,
      outputsBefore_mono (Nat.le_succ n), Nat.le_refl _, by simp⟩
  have hrounds : outputsBefore rateI rateD (n + 1) ≤ outputsBefore rateI rateD n + fuel := by
    have hstep := @outputsBefore_succ_le rateI rateD hD n
    omega
  have hround : ∀ m s, Firing taps rateI rateD signal n m cells s → firing s = true →
      m < outputsBefore rateI rateD (n + 1) ∧
        ∃ s', fire s = .ok s' ∧ Firing taps rateI rateD signal n (m + 1) cells s' :=
    fun _ _ hs hcond => firing_step hD hword hL hlength (hf.line.write hL) hs hcond
  -- the loop ends exactly when the next output waits for a later input
  have hexit : ∀ m s, Firing taps rateI rateD signal n m cells s → firing s = false →
      m = outputsBefore rateI rateD (n + 1) := by
    intro m s hs hstop
    have hge : rateI ≤ s.1.outIndex := by simpa [firing, hs.rateI_eq] using hstop
    have hphase := hs.phase
    have hlate := hs.not_late
    have hwait : ¬ m < outputsBefore rateI rateD (n + 1) := by
      rw [lt_outputsBefore hD, Nat.add_mul]
      omega
    omega
  obtain ⟨s, hloop, hs, hstop⟩ := whileLoop_counts hround hexit hstart hrounds
  have hge : rateI ≤ s.1.outIndex := by simpa [firing, hs.rateI_eq] using hstop
  have hphase := hs.phase
  refine ⟨endSample s.1, by simp [filterSample, hwrite, hloop, hs.outs_eq, due], ?_⟩
  refine ⟨hs.taps_eq, hs.rateI_eq, hs.rateD_eq, ?_, ?_⟩
  · have hadvance := hf.line.advance hL
    rw [← hwritten, hf.line.index_eq] at hadvance
    simpa [endSample, hs.line_eq, hs.index_eq, hlength] using hadvance
  · rw [Nat.add_mul, ← hphase]
    change s.1.outIndex - s.1.rateI + (n * rateI + 1 * rateI) = _
    rw [hs.rateI_eq]
    omega

theorem due_eq_numbered : due taps rateI rateD signal =
    numbered (outputsBefore rateI rateD) (scheduledOutput taps rateI rateD signal) := rfl

/-- The outputs due at positions a to a + k - 1, in order. -/
theorem emitted_due (a k : ℕ) :
    emitted (due taps rateI rateD signal) a k =
      (List.range' (outputsBefore rateI rateD a)
        (outputsBefore rateI rateD (a + k) - outputsBefore rateI rateD a)).map
        (scheduledOutput taps rateI rateD signal) := by
  rw [due_eq_numbered]
  exact emitted_numbered (fun _ _ => outputsBefore_mono) a k

end Tracking

theorem outputsBefore_zero {rateI rateD : ℕ} (hD : 1 ≤ rateD) :
    outputsBefore rateI rateD 0 = 0 := by
  have hle : outputsBefore rateI rateD 0 ≤ 0 * rateI := outputsBefore_le hD 0
  omega

theorem scheduledOutput_getD (taps : List α) (rateI rateD : ℕ) (x : List α) (m : ℕ) :
    scheduledOutput taps rateI rateD (fun i => x.getD i 0) m =
      polyphaseOutput taps rateI rateD x m := by
  unfold scheduledOutput branchOutput polyphaseOutput
  apply Finset.sum_congr rfl
  intro j _
  simp only [recent, Nat.lt_succ_iff, Nat.add_sub_cancel]

/-- Any cut of a stream into calls: what each call returns, and that no access
leaves the table or the delay line. -/
theorem filterCalls_ofTable (taps : List α) (rateI rateD fuel : ℕ) (hD : 1 ≤ rateD)
    (hword : rateI + rateD < 2 ^ 32) (hL : 1 ≤ taps.length / rateI) (hfuel : rateI ≤ fuel)
    (calls : List (List α)) :
    ∃ f, filterCalls fuel (ofTable taps rateI rateD) calls =
      .ok (f, callOutputs (due taps rateI rateD (fun i => calls.flatten.getD i 0)) 0 calls) := by
  obtain ⟨f, hrun, _⟩ := runCalls_advances
    (tracks_advances fuel hD hword hL hfuel) calls 0 (ofTable taps rateI rateD)
    (follows_getD calls.flatten 0) (tracks_ofTable taps rateI rateD _ hD hL)
  exact ⟨f, hrun⟩

end EsSensor.RationalFilter
