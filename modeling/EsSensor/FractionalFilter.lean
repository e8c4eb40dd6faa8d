import EsSensor.Library.StreamMachine
import EsSensor.Library.MachineWord
import EsSensor.Polyphase

/-!
The fractional resampler: the phase of an output is a real number, and the
output is interpolated between two neighbouring branches. Floats are taken as
exact rationals.
-/
namespace EsSensor.FractionalFilter

open CheckedLoop StreamMachine CyclicIndex MachineWord Polyphase

/-- Spelled as in the source. -/
structure FrationalFIR where
  taps : List ℚ
  rateI : ℕ
  rateD : ℚ
  delayLine : List ℚ
  delayIndex : ℕ
  outIndex : ℚ

def ofTable (taps : List ℚ) (rateI : ℕ) (rateD : ℚ) : FrationalFIR where
  taps := taps
  rateI := rateI
  rateD := rateD
  delayLine := List.replicate (taps.length / rateI) 0
  delayIndex := 0
  outIndex := 0

def new (taps : List ℚ) (rateI : ℕ) (rateD : ℚ) : Except Fault FrationalFIR :=
  if rateI = 0 then .error .divByZero
  else .ok (ofTable (padTaps taps rateI) rateI rateD)

/-- `outIndex += offset; if (outIndex >= rateI) outIndex = 0;` on unsigned words. -/
def branchIndex (f : FrationalFIR) (offset : ℕ) : ℕ :=
  let outIndex := u32 (u32 (truncate f.outIndex).toNat + offset)
  if f.rateI ≤ outIndex then 0 else outIndex

def branch (f : FrationalFIR) (offset : ℕ) : Except Fault ℚ :=
  calcPolyphase f.taps f.delayLine f.rateI f.delayIndex (branchIndex f offset)

def fire (s : FrationalFIR × List ℚ) : Except Fault (FrationalFIR × List ℚ) := do
  let o1 ← branch s.1 0
  let o2 ← branch s.1 1
  let remainder := s.1.outIndex - truncate s.1.outIndex
  let o := remainder * o2 + (1 - remainder) * o1
  .ok ({ s.1 with outIndex := s.1.outIndex + s.1.rateD }, s.2 ++ [o])

def firing (s : FrationalFIR × List ℚ) : Bool := decide (s.1.outIndex < s.1.rateI)

def endSample (f : FrationalFIR) : FrationalFIR :=
  { f with
    outIndex := f.outIndex - f.rateI
    delayIndex := next f.delayLine.length f.delayIndex }

def filterSample (fuel : ℕ) (f : FrationalFIR) (sample : ℚ) :
    Except Fault (FrationalFIR × List ℚ) := do
  let delayLine ← writeAt f.delayLine f.delayIndex sample
  let s ← whileLoop firing fire fuel ({ f with delayLine := delayLine }, [])
  .ok (endSample s.1, s.2)

def filter (fuel : ℕ) (f : FrationalFIR) (samplesIn : List ℚ) :
    Except Fault (FrationalFIR × List ℚ) :=
  run (filterSample fuel) f samplesIn

def filterCalls (fuel : ℕ) (f : FrationalFIR) (calls : List (List ℚ)) :
    Except Fault (FrationalFIR × List (List ℚ)) :=
  runCalls (filterSample fuel) f calls

theorem branchIndex_lt (f : FrationalFIR) (hI : 1 ≤ f.rateI) (offset : ℕ) :
    branchIndex f offset < f.rateI := by
  unfold branchIndex
  dsimp only
  split <;> omega

end EsSensor.FractionalFilter
