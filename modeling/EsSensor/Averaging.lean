import EsSensor.SpectrumSegment
import EsSensor.Library.CollectingBlock
import Mathlib.Algebra.Order.Ring.Rat
import Mathlib.Algebra.Field.Rat
import Mathlib.Order.Defs.LinearOrder

/-!
The averaging block. It collects the segments of one hop and sends on the first
of them with the averaged spectrum. A batch of mixed centre frequencies is only
reported: the block keeps it, and does not average again.
-/
namespace EsSensor.Averaging

open Batches FifoChain CollectingBlock

variable {K : Type}

/-- The segments that a block holds, and how often it has warned. -/
structure BlockState (K : Type) where
  held : List (SpectrumSegment K) := []
  warnings : ℕ := 0

/-- Two neighbours in the batch differ in their centre frequency. -/
def wrongCf (avgVector : List (SpectrumSegment K)) : Bool :=
  (avgVector.zip avgVector.tail).any
    (fun pair => decide (pair.1.centerFrequency ≠ pair.2.centerFrequency))

/-- A batch of one centre frequency. -/
def Uniform (batch : List (SpectrumSegment K)) : Prop :=
  ∀ a ∈ batch, ∀ b ∈ batch, a.centerFrequency = b.centerFrequency

instance (batch : List (SpectrumSegment K)) : Decidable (Uniform batch) := by
  unfold Uniform
  infer_instance

theorem wrongCf_eq_false_iff (batch : List (SpectrumSegment K)) :
    wrongCf batch = false ↔ Uniform batch := by
  induction batch with
  | nil => simp [wrongCf, Uniform]
  | cons first rest ih =>
    cases rest with
    | nil => simp [wrongCf, Uniform]
    | cons second rest =>
      have hcons : wrongCf (first :: second :: rest) = false ↔
          first.centerFrequency = second.centerFrequency ∧
            wrongCf (second :: rest) = false := by
        simp [wrongCf]
      rw [hcons, ih]
      constructor
      · intro hsplit
        obtain ⟨hfirst, hrest⟩ := hsplit
        have hall : ∀ a ∈ first :: second :: rest,
            a.centerFrequency = second.centerFrequency := by
          intro a ha
          rcases List.mem_cons.mp ha with rfl | ha
          · exact hfirst
          · exact hrest a ha second List.mem_cons_self
        intro a ha b hb
        rw [hall a ha, hall b hb]
      · intro hall
        refine ⟨hall first List.mem_cons_self second (by simp), ?_⟩
        intro a ha b hb
        exact hall a (List.mem_cons_of_mem first ha) b (List.mem_cons_of_mem first hb)

variable [Field K] [LinearOrder K]

/-- Bin i of a spectrum. The transform fills every bin. -/
def bin (segment : SpectrumSegment K) (i : ℕ) : K × K := segment.iqSamplesFreq.getD i (0, 0)

/-- The power in bin i, summed over the batch. -/
def power (avgVector : List (SpectrumSegment K)) (i : ℕ) : K :=
  avgVector.foldl
    (fun power segment => power + (bin segment i).1 ^ 2 + (bin segment i).2 ^ 2) 0

/-- `MAX(10.0f * log10(x), -100)`; the logarithm of zero is minus infinity. -/
def decibel (log10 : K → K) (x : K) : K := if x = 0 then -100 else max (10 * log10 x) (-100)

def psdAvg (log10 : K → K) (fftSize avgFactor : ℕ) (avgVector : List (SpectrumSegment K)) :
    List K :=
  (List.range fftSize).map (fun i => decibel log10 (power avgVector i / avgFactor))

/-- The first segment of a batch, with the averaged powers. -/
def averaged (log10 : K → K) (fftSize avgFactor : ℕ) (avgVector : List (SpectrumSegment K)) :
    List (SpectrumSegment K) :=
  avgVector.head?.toList.map
    (fun segment => { segment with psdValues := psdAvg log10 fftSize avgFactor avgVector })

/-- The loop body of `Averaging::run` for one dequeued segment. The warning
leaves the batch where it is. -/
def averagingStep (log10 : K → K) (fftSize avgFactor : ℕ) (s : BlockState K)
    (segment : SpectrumSegment K) : BlockState K × List (SpectrumSegment K) :=
  let avgVector := s.held ++ [segment]
  if avgVector.length = avgFactor then
    if wrongCf avgVector then ({ held := avgVector, warnings := s.warnings + 1 }, [])
    else ({ s with held := [] }, averaged log10 fftSize avgFactor avgVector)
  else ({ s with held := avgVector }, [])

def averaging (log10 : K → K) (fftSize avgFactor : ℕ) :
    Block (BlockState K) (SpectrumSegment K) where
  init := {}
  step := averagingStep log10 fftSize avgFactor

section Run

variable (log10 : K → K) (fftSize avgFactor : ℕ)

/-- What the block ought to have sent: the averages of the uniform batches. -/
def expected (segments : List (SpectrumSegment K)) : List (SpectrumSegment K) :=
  ((batches avgFactor segments).filter (fun batch => decide (Uniform batch))).flatMap
    (averaged log10 fftSize avgFactor)

variable {avgFactor}

theorem averagingStep_of_lt {s : BlockState K} {segment : SpectrumSegment K}
    (hlt : s.held.length + 1 < avgFactor) :
    averagingStep log10 fftSize avgFactor s segment =
      ({ s with held := s.held ++ [segment] }, []) := by
  simp [averagingStep, Nat.ne_of_lt hlt]

theorem averagingStep_of_uniform {s : BlockState K} {segment : SpectrumSegment K}
    (hfull : s.held.length + 1 = avgFactor) (huniform : Uniform (s.held ++ [segment])) :
    averagingStep log10 fftSize avgFactor s segment =
      ({ s with held := [] }, averaged log10 fftSize avgFactor (s.held ++ [segment])) := by
  simp [averagingStep, hfull, (wrongCf_eq_false_iff _).mpr huniform]

theorem averagingStep_of_mixed {s : BlockState K} {segment : SpectrumSegment K}
    (hfull : s.held.length + 1 = avgFactor) (hmixed : ¬ Uniform (s.held ++ [segment])) :
    averagingStep log10 fftSize avgFactor s segment =
      ({ held := s.held ++ [segment], warnings := s.warnings + 1 }, []) := by
  have hwrong : wrongCf (s.held ++ [segment]) = true := by
    rw [← Bool.not_eq_false, wrongCf_eq_false_iff]
    exact hmixed
  simp [averagingStep, hfull, hwrong]

/-- Without mixed batches, the block averages every batch and starts anew. -/
theorem averaging_collects :
    Collects (averaging log10 fftSize avgFactor) avgFactor (fun held => { held := held })
      Uniform (averaged log10 fftSize avgFactor) where
  init := rfl
  keep held _ hlt :=
    averagingStep_of_lt log10 fftSize (s := { held := held }) hlt
  full held _ hfull huniform :=
    averagingStep_of_uniform log10 fftSize (s := { held := held }) hfull huniform

/-- A mixed batch is kept at its full length. -/
theorem held_of_mixed (hfactor : 1 ≤ avgFactor) (segments : List (SpectrumSegment K))
    (hmixed : ∃ batch ∈ batches avgFactor segments, ¬ Uniform batch) :
    ∃ n ≤ segments.length,
      ((averaging log10 fftSize avgFactor).stateAfter (segments.take n)).held.length =
        avgFactor := by
  induction segments using List.reverseRecOn with
  | nil => simp at hmixed
  | append_singleton segments segment ih =>
    by_cases hbefore : ∃ batch ∈ batches avgFactor segments, ¬ Uniform batch
    · obtain ⟨n, hn, hheld⟩ := ih hbefore
      refine ⟨n, by rw [List.length_append]; omega, ?_⟩
      rw [List.take_append_of_le_length hn]
      exact hheld
    · -- the batch that the last segment completes is the first mixed one
      push Not at hbefore
      have hstate := ((averaging_collects log10 fftSize).run hfactor segments hbefore).1
      obtain ⟨batch, hbatch, hnot⟩ := hmixed
      rcases concat_cases hfactor segments segment with ⟨hfull, hbatches, _⟩ | ⟨_, hbatches, _⟩
      · rw [hbatches, List.mem_append, List.mem_singleton] at hbatch
        rcases hbatch with hold | rfl
        · exact absurd (hbefore batch hold) hnot
        · have hstep := averagingStep_of_mixed log10 fftSize
            (s := { held := leftover avgFactor segments }) hfull hnot
          refine ⟨(segments ++ [segment]).length, le_rfl, ?_⟩
          rw [List.take_length, Block.stateAfter_concat, hstate]
          change (averagingStep log10 fftSize avgFactor _ segment).1.held.length = avgFactor
          rw [hstep, List.length_append, List.length_singleton, hfull]
      · rw [hbatches] at hbatch
        exact absurd (hbefore batch hbatch) hnot

/-- Between two dequeues the block holds less than a batch, and every uniform
batch has been averaged, exactly when no batch has mixed centre frequencies. -/
theorem averaging_recovers_iff (hfactor : 1 ≤ avgFactor)
    (segments : List (SpectrumSegment K)) :
    (∀ n ≤ segments.length,
      ((averaging log10 fftSize avgFactor).stateAfter (segments.take n)).held.length <
        avgFactor ∧
      (averaging log10 fftSize avgFactor).outputs (segments.take n) =
        expected log10 fftSize avgFactor (segments.take n)) ↔
    ∀ batch ∈ batches avgFactor segments, Uniform batch := by
  constructor
  · intro hall
    by_contra hmixed
    push Not at hmixed
    obtain ⟨n, hn, hheld⟩ := held_of_mixed log10 fftSize hfactor segments hmixed
    have hlt := (hall n hn).1
    omega
  · intro huniform n _
    have hinitial := batches_isPrefix hfactor ⟨segments.drop n, List.take_append_drop n segments⟩
    have htaken : ∀ batch ∈ batches avgFactor (segments.take n), Uniform batch :=
      fun batch hbatch => huniform batch (hinitial.subset hbatch)
    obtain ⟨hstate, houtputs⟩ := (averaging_collects log10 fftSize).run hfactor _ htaken
    refine ⟨?_, ?_⟩
    · rw [hstate]
      exact length_leftover_lt hfactor _
    · rw [houtputs, expected, List.filter_eq_self.mpr (fun batch hbatch =>
        decide_eq_true (htaken batch hbatch))]

end Run

/-- A spectrum of one bin with power 1, whose logarithm is zero. -/
def unitSegment (centerFrequency : ℕ) : SpectrumSegment ℚ where
  sensorId := -1000
  timeStamp := ⟨0, 0⟩
  centerFrequency := centerFrequency
  samplingRate := 2400000
  iqSamples := [(1, 0)]
  iqSamplesFreq := [(1, 0)]

theorem averaging_recovers_iff_equal :
    ((averaging (fun _ => (0 : ℚ)) 1 2).stateAfter
      [unitSegment 1, unitSegment 1, unitSegment 2, unitSegment 2]).held.length < 2 ∧
    (averaging (fun _ => (0 : ℚ)) 1 2).outputs
      [unitSegment 1, unitSegment 1, unitSegment 2, unitSegment 2] =
      expected (fun _ => (0 : ℚ)) 1 2
        [unitSegment 1, unitSegment 1, unitSegment 2, unitSegment 2] :=
  (averaging_recovers_iff (fun _ => (0 : ℚ)) 1 (by decide)
    [unitSegment 1, unitSegment 1, unitSegment 2, unitSegment 2]).mpr (by decide) 4 (by decide)

/-- A mixed batch, then a uniform one: nothing is sent and everything is held. -/
theorem mixed_batch_blocks :
    ((averaging (fun _ => (0 : ℚ)) 1 2).stateAfter
      [unitSegment 1, unitSegment 2, unitSegment 3, unitSegment 3]).held.length = 4 ∧
    (averaging (fun _ => (0 : ℚ)) 1 2).outputs
      [unitSegment 1, unitSegment 2, unitSegment 3, unitSegment 3] = [] ∧
    Uniform [unitSegment 3, unitSegment 3] :=
  ⟨by decide, rfl, by decide⟩

end EsSensor.Averaging
