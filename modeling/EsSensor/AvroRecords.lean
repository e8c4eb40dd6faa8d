import EsSensor.ExportedTime
import EsSensor.Library.AvroSchema

/-!
The schemas under `schemas/` and the records that are made for them. The blocks set
the fields by their names; the collector reads the bytes with the same schema. What the
Avro library writes is the standard binary encoding.
-/
namespace EsSensor.AvroRecords

open AvroBinary AvroSerialization CheckedLoop ExportedTime IqCapture MachineWord

/-- A field that may be left out. -/
def optional (s : Schema) : Schema := .union [.null, s]

/-- `schemas/rtl-spec.avsc` -/
def rtlSpec : Schema :=
  .recordOf [
    ("SenId", .long),
    ("SenConf", .recordOf [
      ("HoppingStrategy", .int),
      ("WindowingFunction", .int),
      ("FFTSize", .int),
      ("AveragingFactor", .int),
      ("FrequencyOverlap", .float),
      ("FrequencyResolution", .float),
      ("Gain", .float)]),
    ("SenPos", optional (.recordOf [("PosSys", .string), ("PosVal", .array .float)])),
    ("SenTemp", optional .float),
    ("SenTime", .recordOf [("TimeSecs", .long), ("TimeMicrosecs", .int)]),
    ("SenData", .recordOf [("CenterFreq", .long), ("SquaredMag", .array .float)])]

/-- `schemas/iq-spec.avsc` -/
def iqSpec : Schema :=
  .recordOf [
    ("senId", .long),
    ("timeSecs", .long),
    ("timeMicroSecs", .int),
    ("senEnv", .recordOf [
      ("senTemp", optional (.array .float)),
      ("senLatitude", optional .float),
      ("senLongitude", optional .float),
      ("senAltitude", optional .float)]),
    ("senConf", .recordOf [
      ("hoppingStrategy", optional (.fixed 1)),
      ("antennaGain", optional .float),
      ("frontendGain", optional .float),
      ("samplingRate", optional .int),
      ("centerFreq", .long),
      ("frequencyCorrectionFactor", optional .float),
      ("antennaId", optional (.fixed 1)),
      ("rfSync", optional (.fixed 1)),
      ("systemSync", optional (.fixed 1)),
      ("sigStrengthCalibration", optional .boolean),
      ("iqBalanceCalibration", optional .boolean),
      ("estNoiseFloor", optional .float),
      ("extraConf", optional (.map .string))]),
    ("lossRate", optional .float),
    ("obfuscation", optional (.fixed 1)),
    ("measurements", .array .float)]

/-- `avro_value_set_branch` to the first branch, and `avro_value_set_null`. -/
def leftNull (path : List String) : List String × Value := (path, .union 0 .null)

/-- The fields that `PSD` sets, in the order in which it does. -/
def psdCalls (r : Sample) : List (List String × Value) := [
  (["SenId"], .long r.senId),
  (["SenConf", "HoppingStrategy"], .int r.hoppingStrategy),
  (["SenConf", "WindowingFunction"], .int r.windowingFunction),
  (["SenConf", "FFTSize"], .int r.fftSize),
  (["SenConf", "AveragingFactor"], .int r.averagingFactor),
  (["SenConf", "FrequencyOverlap"], .float r.frequencyOverlap),
  (["SenConf", "FrequencyResolution"], .float r.frequencyResolution),
  (["SenConf", "Gain"], .float r.gain),
  leftNull ["SenPos"],
  leftNull ["SenTemp"],
  (["SenTime", "TimeSecs"], .long r.timeSecs),
  (["SenTime", "TimeMicrosecs"], .int r.timeMicrosecs),
  (["SenData", "CenterFreq"], .long r.centerFreq),
  (["SenData", "SquaredMag"], .array (r.squaredMag.map .float))]

/-- The fields that `IQ` sets, in the order in which it does. -/
def iqCalls (r : IQSample) : List (List String × Value) := [
  (["senId"], .long r.senId),
  (["timeSecs"], .long r.timeSecs),
  (["timeMicroSecs"], .int r.timeMicroSecs),
  leftNull ["senEnv", "senTemp"],
  leftNull ["senEnv", "senLatitude"],
  leftNull ["senEnv", "senLongitude"],
  leftNull ["senEnv", "senAltitude"],
  leftNull ["senConf", "hoppingStrategy"],
  leftNull ["senConf", "antennaGain"],
  (["senConf", "frontendGain"], .union 1 (.float r.frontendGain)),
  (["senConf", "samplingRate"], .union 1 (.int r.samplingRate)),
  (["senConf", "centerFreq"], .long r.centerFreq),
  leftNull ["senConf", "frequencyCorrectionFactor"],
  leftNull ["senConf", "antennaId"],
  leftNull ["senConf", "rfSync"],
  leftNull ["senConf", "systemSync"],
  leftNull ["senConf", "sigStrengthCalibration"],
  leftNull ["senConf", "iqBalanceCalibration"],
  leftNull ["senConf", "estNoiseFloor"],
  leftNull ["senConf", "extraConf"],
  leftNull ["lossRate"],
  leftNull ["obfuscation"],
  (["measurements"], .array (r.measurements.map .float))]

/-- Every field of the schema is set once, and nothing that it does not have. -/
theorem fill_psdCalls (r : Sample) : rtlSpec.fill (psdCalls r) = some r.toValue := by
  have hpaths : ((psdCalls r).map Prod.fst).Perm rtlSpec.paths := by
    have hsame : (psdCalls r).map Prod.fst = rtlSpec.paths := rfl
    rw [hsame]
  rw [Schema.fill, if_pos hpaths]
  rfl

theorem fill_iqCalls (r : IQSample) : iqSpec.fill (iqCalls r) = some r.toValue := by
  have hpaths : ((iqCalls r).map Prod.fst).Perm iqSpec.paths := by
    have hsame : (iqCalls r).map Prod.fst = iqSpec.paths := rfl
    rw [hsame]
  rw [Schema.fill, if_pos hpaths]
  rfl

/-- The integers of a record are those of their types. -/
structure Sample.InRange (r : Sample) : Prop where
  senId : -2 ^ 63 ≤ r.senId ∧ r.senId < 2 ^ 63
  hoppingStrategy : -2 ^ 31 ≤ r.hoppingStrategy ∧ r.hoppingStrategy < 2 ^ 31
  windowingFunction : -2 ^ 31 ≤ r.windowingFunction ∧ r.windowingFunction < 2 ^ 31
  fftSize : -2 ^ 31 ≤ r.fftSize ∧ r.fftSize < 2 ^ 31
  averagingFactor : -2 ^ 31 ≤ r.averagingFactor ∧ r.averagingFactor < 2 ^ 31
  timeSecs : -2 ^ 63 ≤ r.timeSecs ∧ r.timeSecs < 2 ^ 63
  timeMicrosecs : -2 ^ 31 ≤ r.timeMicrosecs ∧ r.timeMicrosecs < 2 ^ 31
  centerFreq : -2 ^ 63 ≤ r.centerFreq ∧ r.centerFreq < 2 ^ 63

structure IQSample.InRange (r : IQSample) : Prop where
  senId : -2 ^ 63 ≤ r.senId ∧ r.senId < 2 ^ 63
  timeSecs : -2 ^ 63 ≤ r.timeSecs ∧ r.timeSecs < 2 ^ 63
  timeMicroSecs : -2 ^ 31 ≤ r.timeMicroSecs ∧ r.timeMicroSecs < 2 ^ 31
  samplingRate : -2 ^ 31 ≤ r.samplingRate ∧ r.samplingRate < 2 ^ 31
  centerFreq : -2 ^ 63 ≤ r.centerFreq ∧ r.centerFreq < 2 ^ 63

/-- The numbers of an array of floats. -/
def floatsOf : List Value → Option (List UInt32)
  | [] => some []
  | .float bits :: rest => (floatsOf rest).map (bits :: ·)
  | _ :: _ => none

/-- The record that a value of the `Sample` schema stands for. -/
def Sample.ofValue : Value → Option Sample
  | .record [
      .long senId,
      .record [.int hoppingStrategy, .int windowingFunction, .int fftSize, .int averagingFactor,
        .float frequencyOverlap, .float frequencyResolution, .float gain],
      _, _,
      .record [.long timeSecs, .int timeMicrosecs],
      .record [.long centerFreq, .array squaredMag]] =>
    (floatsOf squaredMag).map fun squaredMag =>
      { senId, hoppingStrategy, windowingFunction, fftSize, averagingFactor, frequencyOverlap,
        frequencyResolution, gain, timeSecs, timeMicrosecs, centerFreq, squaredMag }
  | _ => none

def IQSample.ofValue : Value → Option IQSample
  | .record [
      .long senId,
      .long timeSecs,
      .int timeMicroSecs,
      _,
      .record (_ :: _ :: .union 1 (.float frontendGain) :: .union 1 (.int samplingRate) ::
        .long centerFreq :: _),
      _, _,
      .array measurements] =>
    (floatsOf measurements).map fun measurements =>
      { senId, timeSecs, timeMicroSecs, frontendGain, samplingRate, centerFreq, measurements }
  | _ => none

theorem floatsOf_map (bits : List UInt32) : floatsOf (bits.map .float) = some bits := by
  induction bits with
  | nil => rfl
  | cons b rest ih =>
    rw [List.map_cons, floatsOf, ih]
    rfl

theorem Sample.ofValue_toValue (r : Sample) : Sample.ofValue r.toValue = some r := by
  rw [Sample.toValue, Sample.ofValue, floatsOf_map]
  rfl

theorem IQSample.ofValue_toValue (r : IQSample) : IQSample.ofValue r.toValue = some r := by
  show (floatsOf (r.measurements.map .float)).map _ = some r
  rw [floatsOf_map]
  rfl

theorem describes_floats (bits : List UInt32) :
    (Schema.array .float).Describes (.array (bits.map .float)) := by
  intro value hvalue
  obtain ⟨b, _, rfl⟩ := List.mem_map.mp hvalue
  trivial

theorem Sample.InRange.describes {r : Sample} (h : Sample.InRange r) :
    rtlSpec.Describes r.toValue := by
  have hmag := describes_floats r.squaredMag
  exact ⟨h.senId, ⟨h.hoppingStrategy, h.windowingFunction, h.fftSize, h.averagingFactor,
    trivial, trivial, trivial, trivial⟩, trivial, trivial, ⟨h.timeSecs, h.timeMicrosecs, trivial⟩,
    ⟨h.centerFreq, hmag, trivial⟩, trivial⟩

theorem IQSample.InRange.describes {r : IQSample} (h : IQSample.InRange r) :
    iqSpec.Describes r.toValue := by
  have hmeasurements := describes_floats r.measurements
  exact ⟨h.senId, h.timeSecs, h.timeMicroSecs, ⟨trivial, trivial, trivial, trivial, trivial⟩,
    ⟨trivial, trivial, trivial, h.samplingRate, h.centerFreq, trivial, trivial, trivial, trivial,
      trivial, trivial, trivial, trivial, trivial⟩, trivial, trivial, hmeasurements, trivial⟩

/-- Records that are sent under a schema. -/
structure RecordKind (R : Type) where
  schema : Schema
  calls : R → List (List String × Value)
  toValue : R → Value
  ofValue : Value → Option R
  InRange : R → Prop
  fill_calls : ∀ r, schema.fill (calls r) = some (toValue r)
  describes : ∀ {r}, InRange r → schema.Describes (toValue r)
  ofValue_toValue : ∀ r, ofValue (toValue r) = some r
  encode_pos : ∀ r, 0 < (encode (toValue r)).length

theorem encode_record_pos (z : ℤ) (rest : List Value) :
    0 < (encode (.record (.long z :: rest))).length := by
  have hpos := encodeLong_length_pos z
  rw [encode, encodeAll, encode, List.length_append]
  omega

def psdKind : RecordKind Sample where
  schema := rtlSpec
  calls := psdCalls
  toValue := Sample.toValue
  ofValue := Sample.ofValue
  InRange := Sample.InRange
  fill_calls := fill_psdCalls
  describes := Sample.InRange.describes
  ofValue_toValue := Sample.ofValue_toValue
  encode_pos r := encode_record_pos r.senId _

def iqKind : RecordKind IQSample where
  schema := iqSpec
  calls := iqCalls
  toValue := IQSample.toValue
  ofValue := IQSample.ofValue
  InRange := IQSample.InRange
  fill_calls := fill_iqCalls
  describes := IQSample.InRange.describes
  ofValue_toValue := IQSample.ofValue_toValue
  encode_pos r := encode_record_pos r.senId _

/-- `avro_value_write` to memory of a size. What there is of a value that is too long is
given by `cut`. -/
def avroValueWrite (cut : ℕ → List UInt8 → List UInt8) (bufSize : ℕ) (value : Value) :
    List UInt8 :=
  if (encode value).length ≤ bufSize then encode value else cut bufSize (encode value)

/-- The fields are set by their names, and the value is written. -/
def RecordKind.write {R : Type} (kind : RecordKind R) (cut : ℕ → List UInt8 → List UInt8)
    (bufSize : ℕ) (r : R) : Except Fault (List UInt8) :=
  match kind.schema.fill (kind.calls r) with
  | none => .error .outOfRange
  | some value => .ok (avroValueWrite cut bufSize value)

theorem RecordKind.write_eq {R : Type} (kind : RecordKind R)
    (cut : ℕ → List UInt8 → List UInt8) {bufSize : ℕ} {r : R}
    (hfits : (encode (kind.toValue r)).length ≤ bufSize) :
    kind.write cut bufSize r = .ok (encode (kind.toValue r)) := by
  rw [RecordKind.write, kind.fill_calls]
  show Except.ok (avroValueWrite cut bufSize (kind.toValue r)) = _
  rw [avroValueWrite, if_pos hfits]

variable {single : ℚ → UInt32} {macEth0 : ℤ} {ctx : ElectrosenseContext}

theorem int_inRange (z : ℤ) : -2 ^ 31 ≤ int32 z ∧ int32 z < 2 ^ 31 := by
  have hbounds := int32_bounds z
  omega

theorem long_inRange (z : ℤ) : -2 ^ 63 ≤ int64 z ∧ int64 z < 2 ^ 63 := by
  have hbounds := int64_bounds z
  omega

/-- What the setters are given has been cut to their types. -/
theorem inRange_psdSample {segment : SpectrumSegment ℚ} {r : Sample}
    (hmac : -2 ^ 63 ≤ macEth0 ∧ macEth0 < 2 ^ 63)
    (hsample : psdSample single macEth0 ctx segment = .ok r) : Sample.InRange r := by
  obtain ⟨values, _, hr⟩ := bind_eq_ok.mp hsample
  rw [← Except.ok.inj hr]
  constructor <;> dsimp only
  case senId => exact hmac
  case hoppingStrategy => norm_num
  case windowingFunction => norm_num
  case fftSize => exact int_inRange _
  case averagingFactor => exact int_inRange _
  case timeSecs => exact long_inRange _
  case timeMicrosecs => exact int_inRange _
  case centerFreq => exact long_inRange _

theorem inRange_iqSample {segment : RawSegment} {r : IQSample}
    (hmac : -2 ^ 63 ≤ macEth0 ∧ macEth0 < 2 ^ 63)
    (hsample : iqSample single macEth0 ctx segment = .ok r) : IQSample.InRange r := by
  obtain ⟨values, _, hr⟩ := bind_eq_ok.mp hsample
  rw [← Except.ok.inj hr]
  constructor <;> dsimp only
  case senId => exact hmac
  case timeSecs => exact long_inRange _
  case timeMicroSecs => exact int_inRange _
  case samplingRate => exact int_inRange _
  case centerFreq => exact long_inRange _

/-- `((s + segment->getIQ_time_v2().size() * 2 * 4) + 3) & ~0x03`, in an `unsigned int`. -/
def iqBufSize (segment : RawSegment) : ℕ :=
  let size := u64 (u64 (4096 + u64 (u64 (segment.iqTimeV2.length * 2) * 4)) + 3)
  u32 (size - size % 4)

theorem iqBufSize_eq {segment : RawSegment} (hsize : segment.iqTimeV2.length * 8 + 4096 < 2 ^ 32) :
    iqBufSize segment = 4096 + 8 * segment.iqTimeV2.length := by
  have h₁ : u64 (segment.iqTimeV2.length * 2) = segment.iqTimeV2.length * 2 :=
    u64_of_lt (by omega)
  have h₂ : u64 (segment.iqTimeV2.length * 2 * 4) = segment.iqTimeV2.length * 2 * 4 :=
    u64_of_lt (by omega)
  have h₃ : u64 (4096 + segment.iqTimeV2.length * 2 * 4) =
      4096 + segment.iqTimeV2.length * 2 * 4 := u64_of_lt (by omega)
  rw [iqBufSize, h₁, h₂, h₃, u64_of_lt (by omega), u32_of_lt (by omega)]
  omega

/-- The samples are appended as they are. -/
theorem measurements_eq {values out : List ℚ} (h : measurements values = .ok out) :
    out = values := by
  induction values using measurements.induct generalizing out with
  | case1 => exact (Except.ok.inj h).symm
  | case2 => cases h
  | case3 real imag rest ih =>
    obtain ⟨appended, hrest, hout⟩ := bind_eq_ok.mp h
    rw [← Except.ok.inj hout, ih hrest]

theorem encodeLong_long_le {z : ℤ} (hz : -2 ^ 63 ≤ z ∧ z < 2 ^ 63) :
    (encodeLong z).length ≤ 10 := encodeLong_length_le (by omega) (by omega)

theorem encodeLong_int_le {z : ℤ} (hz : -2 ^ 31 ≤ z ∧ z < 2 ^ 31) :
    (encodeLong z).length ≤ 5 := encodeLong_length_le (by omega) (by omega)

theorem encode_floats_length_le {bits : List UInt32} (hbits : bits.length < 2 ^ 32) :
    (encode (.array (bits.map .float))).length ≤ 6 + 4 * bits.length := by
  by_cases hnil : bits = []
  · have hencode : encode (.array (bits.map .float)) = encodeLong 0 := by simp [hnil, encode]
    have hzero : (encodeLong 0).length = 1 := encodeLong_length_one (by decide)
    rw [hencode, hzero]
    omega
  · have hcount : (encodeLong bits.length).length ≤ 5 :=
      encodeLong_length_le (by omega) (by omega)
    rw [encode_floats_length hnil]
    omega

/-- A record of samples takes at most 68 bytes beside the samples. -/
theorem length_iqSample_le {r : IQSample} (h : IQSample.InRange r)
    (hlength : r.measurements.length < 2 ^ 32) :
    (encode r.toValue).length ≤ 68 + 4 * r.measurements.length := by
  have hzero : (encodeLong 0).length = 1 := encodeLong_length_one (by decide)
  have hone : (encodeLong 1).length = 1 := encodeLong_length_one (by decide)
  have hid := encodeLong_long_le h.senId
  have hsecs := encodeLong_long_le h.timeSecs
  have hmicros := encodeLong_int_le h.timeMicroSecs
  have hrate := encodeLong_int_le h.samplingRate
  have hfreq := encodeLong_long_le h.centerFreq
  have hfloats := encode_floats_length_le hlength
  unfold IQSample.toValue
  simp only [List.replicate, List.cons_append, List.nil_append, encode, encodeAll,
    List.length_append, List.length_nil, encodeFloat_length, Nat.cast_zero, Nat.cast_one, hzero,
    hone] at hfloats ⊢
  omega

/-- Every record of samples fits into the buffer that is allocated for it. -/
theorem iqSample_fits {segment : RawSegment} {r : IQSample}
    (hmac : -2 ^ 63 ≤ macEth0 ∧ macEth0 < 2 ^ 63)
    (hsize : segment.iqTimeV2.length * 8 + 4096 < 2 ^ 32)
    (hsample : iqSample single macEth0 ctx segment = .ok r) :
    (encode r.toValue).length ≤ iqBufSize segment := by
  have hrange := inRange_iqSample hmac hsample
  obtain ⟨values, hvalues, hr⟩ := bind_eq_ok.mp hsample
  have hlength : r.measurements.length = segment.iqTimeV2.length := by
    rw [← Except.ok.inj hr, List.length_map, measurements_eq hvalues]
  have hle := length_iqSample_le hrange (by omega)
  rw [iqBufSize_eq hsize]
  omega

end EsSensor.AvroRecords
