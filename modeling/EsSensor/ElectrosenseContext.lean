import EsSensor.Library.FloatRounding
import EsSensor.Library.MachineWord

/-!
The configuration that the sensor's threads share. Defaults are those of the
constructor; the record has the fields that the modelled code reads. A float is the
number that it stands for.
-/
namespace EsSensor

open FloatRounding MachineWord

structure ElectrosenseContext where
  minFreq : ℕ := 0
  maxFreq : ℕ := 0
  samplingRate : ℕ := 2400000
  log2FftSize : ℕ := 8
  avgFactor : ℕ := 5
  soverlap : ℕ := 128
  fftBatchlen : ℕ := 10
  gain : ℚ := 8598323 / 2 ^ 18
  freqOverlap : ℚ := 11184811 / 2 ^ 26
  directSamplingMode : ℤ := 0

namespace ElectrosenseContext

variable (ctx : ElectrosenseContext)

def setDirectSamplingMode (mode : ℤ) : ElectrosenseContext :=
  { ctx with directSamplingMode := mode }

/-- `1 << getLog2FftSize()`, as every block computes it. -/
def fftSize : ℕ := u32 (2 ^ ctx.log2FftSize)

/-- `(1 - getFreqOverlap()) * n`, in single precision: the difference, the factor and the
product are rounded. -/
def keptPart (n : ℕ) : ℚ :=
  binary32.round (binary32.round (1 - ctx.freqOverlap) * binary32.round n)

/-- The bins that are sent. The number is made odd. -/
def getReducedFFTSize : ℕ :=
  let reducedFftSize := toUnsigned (ctx.keptPart (u32 (ctx.fftSize + 1)))
  if reducedFftSize % 2 = 0 then u32 (reducedFftSize + 1) else reducedFftSize

/-- The defaults are the numbers nearest to 32.8 and to a sixth. -/
example : ({} : ElectrosenseContext).gain = binary32.round (328 / 10) ∧
    ({} : ElectrosenseContext).freqOverlap = binary32.round (1 / 6) := by decide +kernel

end ElectrosenseContext

end EsSensor
