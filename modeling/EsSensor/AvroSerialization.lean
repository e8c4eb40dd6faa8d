import EsSensor.Library.AvroBinary
import EsSensor.SpectralWindow
import EsSensor.SpectrumSegment

/-!
The record that is sent for one averaged spectrum, and the buffer that it is
written to. The buffer is sized for the whole spectrum and twenty bytes.
-/
namespace EsSensor.AvroSerialization

open AvroBinary CheckedLoop FloatRounding MachineWord SpectralWindow

/-- What the `Sample` schema asks for; position and temperature are left null. -/
structure Sample where
  senId : ℤ
  hoppingStrategy : ℤ
  windowingFunction : ℤ
  fftSize : ℤ
  averagingFactor : ℤ
  frequencyOverlap : UInt32
  frequencyResolution : UInt32
  gain : UInt32
  timeSecs : ℤ
  timeMicrosecs : ℤ
  centerFreq : ℤ
  squaredMag : List UInt32

/-- The fields in the order of the schema. -/
def Sample.toValue (r : Sample) : Value :=
  .record [
    .long r.senId,
    .record [
      .int r.hoppingStrategy,
      .int r.windowingFunction,
      .int r.fftSize,
      .int r.averagingFactor,
      .float r.frequencyOverlap,
      .float r.frequencyResolution,
      .float r.gain],
    .union 0 .null,
    .union 0 .null,
    .record [.long r.timeSecs, .int r.timeMicrosecs],
    .record [.long r.centerFreq, .array (r.squaredMag.map .float)]]

/-- The record that the loop body of `PSD` fills in. The bits of a float are
given by `single`. -/
def psdSample (single : ℚ → UInt32) (macEth0 : ℤ) (ctx : ElectrosenseContext)
    (segment : SpectrumSegment ℚ) : Except Fault Sample := do
  let values ← squaredMag ctx segment.psdValues
  .ok {
    senId := macEth0
    hoppingStrategy := 0
    windowingFunction := 1
    fftSize := int32 ctx.fftSize
    averagingFactor := int32 ctx.avgFactor
    frequencyOverlap := single ctx.freqOverlap
    frequencyResolution := single (binary32.round (binary32.round ctx.samplingRate /
      binary32.round ctx.fftSize))
    gain := single ctx.gain
    timeSecs := int64 segment.timeStamp.sec
    timeMicrosecs := int32 segment.timeStamp.nsec
    centerFreq := int64 segment.centerFrequency
    squaredMag := values.map single }

/-- `((5 * 4 + fft_size * 4) + 3) & ~0x03` -/
def bufSize (ctx : ElectrosenseContext) : ℕ :=
  let size := u32 (u32 (5 * 4 + u32 (ctx.fftSize * 4)) + 3)
  size - size % 4

/-- The integers of a record whose lengths depend on their values. -/
def Sample.integers (r : Sample) : List ℤ :=
  [r.senId, r.fftSize, r.averagingFactor, r.timeSecs, r.timeMicrosecs, r.centerFreq,
    r.squaredMag.length]

/-- The bytes that integers take together. -/
def longBytes (integers : List ℤ) : ℕ := (integers.map (fun z => (encodeLong z).length)).sum

@[simp] theorem longBytes_nil : longBytes [] = 0 := rfl

@[simp] theorem longBytes_cons (z : ℤ) (rest : List ℤ) :
    longBytes (z :: rest) = (encodeLong z).length + longBytes rest := rfl

theorem sample_length {r : Sample} (hstrategy : zigzag r.hoppingStrategy < 128)
    (hwindow : zigzag r.windowingFunction < 128) (hmag : r.squaredMag ≠ []) :
    (encode r.toValue).length = longBytes r.integers + 17 + 4 * r.squaredMag.length := by
  have hzero : (encodeLong 0).length = 1 := encodeLong_length_one (by decide)
  have hstrategy' := encodeLong_length_one hstrategy
  have hwindow' := encodeLong_length_one hwindow
  have harray := encode_floats_length hmag
  unfold Sample.toValue Sample.integers
  simp only [encode, encodeAll, List.length_append, List.length_nil, encodeFloat_length,
    Nat.cast_zero, hzero, hstrategy', hwindow', longBytes_cons, longBytes_nil] at harray ⊢
  omega

variable {single : ℚ → UInt32} {macEth0 : ℤ} {ctx : ElectrosenseContext}
  {segment : SpectrumSegment ℚ} {r : Sample}

/-- The same integers, from what the block reads. -/
def integers (macEth0 : ℤ) (ctx : ElectrosenseContext) (segment : SpectrumSegment ℚ) : List ℤ :=
  [macEth0, int32 ctx.fftSize, int32 ctx.avgFactor, int64 segment.timeStamp.sec,
    int32 segment.timeStamp.nsec, int64 segment.centerFrequency, ctx.getReducedFFTSize]

theorem longBytes_integers (macEth0 : ℤ) (ctx : ElectrosenseContext)
    (segment : SpectrumSegment ℚ) :
    longBytes (integers macEth0 ctx segment) =
      (encodeLong macEth0).length + ((encodeLong (int32 ctx.fftSize)).length +
        ((encodeLong (int32 ctx.avgFactor)).length +
          ((encodeLong (int64 segment.timeStamp.sec)).length +
            ((encodeLong (int32 segment.timeStamp.nsec)).length +
              ((encodeLong (int64 segment.centerFrequency)).length +
                (encodeLong ctx.getReducedFFTSize).length))))) := by
  rw [integers, longBytes_cons, longBytes_cons, longBytes_cons, longBytes_cons, longBytes_cons,
    longBytes_cons, longBytes_cons, longBytes_nil, Nat.add_zero]

theorem length_squaredMag (hsample : psdSample single macEth0 ctx segment = .ok r) :
    r.squaredMag.length = ctx.getReducedFFTSize := by
  obtain ⟨values, hvalues, hr⟩ := bind_eq_ok.mp hsample
  obtain rfl := Except.ok.inj hr
  rw [List.length_map, length_mapM hvalues, List.length_range]

theorem integers_psdSample (hsample : psdSample single macEth0 ctx segment = .ok r) :
    r.integers = integers macEth0 ctx segment := by
  have hlength := length_squaredMag hsample
  obtain ⟨values, hvalues, hr⟩ := bind_eq_ok.mp hsample
  obtain rfl := Except.ok.inj hr
  rw [Sample.integers, integers, hlength]

theorem length_psdSample (hsample : psdSample single macEth0 ctx segment = .ok r) :
    (encode r.toValue).length =
      longBytes (integers macEth0 ctx segment) + 17 + 4 * ctx.getReducedFFTSize := by
  have hodd := reducedFFTSize_odd ctx
  have hlength := length_squaredMag hsample
  have hintegers := integers_psdSample hsample
  have hmag : r.squaredMag ≠ [] := by
    intro hnil
    rw [hnil, List.length_nil] at hlength
    omega
  obtain ⟨values, hvalues, hr⟩ := bind_eq_ok.mp hsample
  have hstrategy : r.hoppingStrategy = 0 := by rw [← Except.ok.inj hr]
  have hwindow : r.windowingFunction = 1 := by rw [← Except.ok.inj hr]
  rw [sample_length (by rw [hstrategy]; decide) (by rw [hwindow]; decide) hmag, hintegers,
    hlength]

theorem fftSize_le (hhigh : ctx.log2FftSize ≤ 17) : ctx.fftSize ≤ 2 ^ 17 :=
  le_trans (Nat.mod_le _ _) (Nat.pow_le_pow_right (by decide) hhigh)

/-- The sizes that the schema allows are multiples of four, and none wraps. -/
theorem bufSize_eq (hhigh : ctx.log2FftSize ≤ 17) : bufSize ctx = 20 + 4 * ctx.fftSize := by
  have hsize := fftSize_le hhigh
  have hbytes : u32 (ctx.fftSize * 4) = ctx.fftSize * 4 := u32_of_lt (by omega)
  have hsum : u32 (5 * 4 + ctx.fftSize * 4) = 5 * 4 + ctx.fftSize * 4 := u32_of_lt (by omega)
  rw [bufSize, hbytes, hsum, u32_of_lt (by omega)]
  omega

theorem exists_psdSample (single : ℚ → UInt32) (macEth0 : ℤ) (segment : SpectrumSegment ℚ)
    (hctx : Documented ctx) (hreduced : ctx.getReducedFFTSize ≤ ctx.fftSize)
    (hpsd : segment.psdValues.length = ctx.fftSize) :
    ∃ r, psdSample single macEth0 ctx segment = .ok r := by
  obtain ⟨values, hvalues⟩ := (squaredMag_ok_iff hctx hpsd).mpr ((length_le_iff hctx).mp hreduced)
  exact ⟨_, by rw [psdSample, hvalues]; rfl⟩

/-- A record fits exactly when its integers need no more than three bytes and
those of the bins that are left out. -/
theorem record_fits_iff (single : ℚ → UInt32) (macEth0 : ℤ) (ctx : ElectrosenseContext)
    (segment : SpectrumSegment ℚ) (hlow : 8 ≤ ctx.log2FftSize) (hhigh : ctx.log2FftSize ≤ 17)
    (hoverlap : 0 ≤ ctx.freqOverlap) (hoverlap' : ctx.freqOverlap ≤ 1)
    (hreduced : ctx.getReducedFFTSize ≤ ctx.fftSize)
    (hpsd : segment.psdValues.length = ctx.fftSize) :
    ∃ r, psdSample single macEth0 ctx segment = .ok r ∧
      ((encode r.toValue).length ≤ bufSize ctx ↔
        longBytes (integers macEth0 ctx segment) ≤
          3 + 4 * (ctx.fftSize - ctx.getReducedFFTSize)) := by
  have hctx : Documented ctx := ⟨by omega, by omega, hoverlap, hoverlap'⟩
  obtain ⟨r, hr⟩ := exists_psdSample single macEth0 segment hctx hreduced hpsd
  refine ⟨r, hr, ?_⟩
  rw [length_psdSample hr, bufSize_eq hhigh]
  omega

/-- A segment of 256 bins, as the default configuration makes them. -/
def flatSegment : SpectrumSegment ℚ where
  sensorId := 0
  timeStamp := ⟨1500000000, 999999⟩
  centerFrequency := 100000000
  samplingRate := 2400000
  iqSamples := []
  psdValues := List.replicate 256 0

theorem record_fits_iff_default :
    ∃ r, psdSample (fun _ => 0) (2 ^ 47) {} flatSegment = .ok r ∧
      (encode r.toValue).length ≤ bufSize {} := by
  obtain ⟨r, hr, hfits⟩ := record_fits_iff (fun _ => 0) (2 ^ 47) {} flatSegment (by decide)
    (by decide) (by norm_num) (by norm_num) (by decide +kernel) (by decide +kernel)
  exact ⟨r, hr, hfits.mpr (by decide +kernel)⟩

/-- With an overlap of 1/128 a single bin of 256 is left out, and the buffer is too
short. -/
theorem record_truncated :
    ∃ r, psdSample (fun _ => 0) (2 ^ 47) { freqOverlap := 1 / 128 } flatSegment = .ok r ∧
      bufSize { freqOverlap := 1 / 128 } < (encode r.toValue).length := by
  have hctx : Documented { freqOverlap := 1 / 128 } :=
    ⟨by decide, by decide, by norm_num, by norm_num⟩
  obtain ⟨r, hr⟩ := exists_psdSample (fun _ => 0) (2 ^ 47) flatSegment hctx (by decide +kernel)
    (by decide +kernel)
  refine ⟨r, hr, ?_⟩
  rw [length_psdSample hr]
  decide +kernel

theorem encodeLong_int32_le (z : ℤ) : (encodeLong (int32 z)).length ≤ 5 := by
  have hbounds := int32_bounds z
  exact encodeLong_length_le (by omega) (by omega)

theorem encodeLong_int64_le (z : ℤ) : (encodeLong (int64 z)).length ≤ 10 := by
  have hbounds := int64_bounds z
  exact encodeLong_length_le (by omega) (by omega)

/-- No integer is longer than its type lets it be. -/
theorem longBytes_integers_le (hmac : 0 ≤ macEth0) (hmac' : macEth0 < 2 ^ 48)
    (hhigh : ctx.log2FftSize ≤ 17) (hreduced : ctx.getReducedFFTSize ≤ ctx.fftSize) :
    longBytes (integers macEth0 ctx segment) ≤ 43 := by
  have hsize := fftSize_le hhigh
  have hword : int32 ctx.fftSize = ctx.fftSize := int32_of_lt (by omega)
  have hmac7 : (encodeLong macEth0).length ≤ 7 := encodeLong_length_le (by omega) (by omega)
  have hsize3 : (encodeLong (int32 ctx.fftSize)).length ≤ 3 := by
    rw [hword]
    exact encodeLong_length_le (by omega) (by omega)
  have hbins3 : (encodeLong ctx.getReducedFFTSize).length ≤ 3 :=
    encodeLong_length_le (by omega) (by omega)
  have havg5 := encodeLong_int32_le ctx.avgFactor
  have hsecs10 := encodeLong_int64_le segment.timeStamp.sec
  have hnsec5 := encodeLong_int32_le segment.timeStamp.nsec
  have hfreq10 := encodeLong_int64_le segment.centerFrequency
  rw [longBytes_integers]
  omega

/-- Ten bins are room enough for every record. -/
theorem fits_of_ten_bins (hmac : 0 ≤ macEth0) (hmac' : macEth0 < 2 ^ 48)
    (hhigh : ctx.log2FftSize ≤ 17) (hreduced : ctx.getReducedFFTSize + 10 ≤ ctx.fftSize)
    (hsample : psdSample single macEth0 ctx segment = .ok r) :
    (encode r.toValue).length ≤ bufSize ctx := by
  have hbytes : longBytes (integers macEth0 ctx segment) ≤ 43 :=
    longBytes_integers_le hmac hmac' hhigh (by omega)
  rw [length_psdSample hsample, bufSize_eq hhigh]
  omega

/-- A single bin is never enough: both sizes take two bytes. -/
theorem truncated_of_one_bin (hlow : 8 ≤ ctx.log2FftSize) (hhigh : ctx.log2FftSize ≤ 17)
    (hreduced : ctx.getReducedFFTSize + 1 = ctx.fftSize)
    (hsample : psdSample single macEth0 ctx segment = .ok r) :
    bufSize ctx < (encode r.toValue).length := by
  have hpow : 2 ^ 8 ≤ 2 ^ ctx.log2FftSize := Nat.pow_le_pow_right (by decide) hlow
  have hsize : ctx.fftSize = 2 ^ ctx.log2FftSize :=
    u32_of_lt (Nat.pow_lt_pow_right (by decide) (by omega))
  have hle := fftSize_le hhigh
  have hword : int32 ctx.fftSize = ctx.fftSize := int32_of_lt (by omega)
  have hsize2 : 2 ≤ (encodeLong (int32 ctx.fftSize)).length := by
    rw [hword]
    exact two_le_encodeLong_length (by omega)
  have hbins2 : 2 ≤ (encodeLong ctx.getReducedFFTSize).length :=
    two_le_encodeLong_length (by omega)
  have hmac := encodeLong_length_pos macEth0
  have havg := encodeLong_length_pos (int32 ctx.avgFactor)
  have hsecs := encodeLong_length_pos (int64 segment.timeStamp.sec)
  have hnsec := encodeLong_length_pos (int32 segment.timeStamp.nsec)
  have hfreq := encodeLong_length_pos (int64 segment.centerFrequency)
  rw [length_psdSample hsample, bufSize_eq hhigh, longBytes_integers]
  omega

end EsSensor.AvroSerialization
