import Mathlib.Data.Nat.Notation
import Mathlib.Data.Int.Notation

/-!
What the blocks of the sensor hand to each other.
-/
namespace EsSensor

structure Timespec where
  sec : ℤ
  nsec : ℤ
  deriving DecidableEq, Repr

/-- Samples are pairs of an I and a Q value; spectra and powers are filled in by
the later blocks. -/
structure SpectrumSegment (K : Type) where
  sensorId : ℤ
  timeStamp : Timespec
  centerFrequency : ℕ
  samplingRate : ℕ
  iqSamples : List (K × K)
  iqSamplesFreq : List (K × K) := []
  psdValues : List K := []

end EsSensor
