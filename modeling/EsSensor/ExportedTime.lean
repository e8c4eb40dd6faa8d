import EsSensor.AvroSerialization
import EsSensor.FileSink
import EsSensor.IqCapture

/-!
The time stamps that leave the sensor: a column of the text file, and a pair of
integers in the records of both pipelines. The schemas call the second integer
microseconds. What is written there, and behind the point of the column, is the
number of nanoseconds.
-/
namespace EsSensor.ExportedTime

open AvroBinary AvroSerialization CheckedLoop FileSink IqCapture MachineWord

/-- What the `IQSample` schema asks for and the code gives; the rest is left null. -/
structure IQSample where
  senId : ℤ
  timeSecs : ℤ
  timeMicroSecs : ℤ
  frontendGain : UInt32
  samplingRate : ℤ
  centerFreq : ℤ
  measurements : List UInt32

/-- The fields in the order of the schema. -/
def IQSample.toValue (r : IQSample) : Value :=
  .record [
    .long r.senId,
    .long r.timeSecs,
    .int r.timeMicroSecs,
    .record (List.replicate 4 (.union 0 .null)),
    .record ([
      .union 0 .null,
      .union 0 .null,
      .union 1 (.float r.frontendGain),
      .union 1 (.int r.samplingRate),
      .long r.centerFreq] ++ List.replicate 8 (.union 0 .null)),
    .union 0 .null,
    .union 0 .null,
    .array (r.measurements.map .float)]

/-- The loop over the samples, two numbers at a time; the second is not checked for. -/
def measurements : List ℚ → Except Fault (List ℚ)
  | [] => .ok []
  | [_] => .error .outOfRange
  | real :: imag :: rest => do
    let appended ← measurements rest
    .ok (real :: imag :: appended)

/-- The record that the loop body of `IQ` fills in. -/
def iqSample (single : ℚ → UInt32) (macEth0 : ℤ) (ctx : ElectrosenseContext)
    (segment : RawSegment) : Except Fault IQSample := do
  let values ← measurements segment.iqTimeV2
  .ok {
    senId := macEth0
    timeSecs := int64 segment.timeStamp.sec
    timeMicroSecs := int32 segment.timeStamp.nsec
    frontendGain := single ctx.gain
    samplingRate := int32 ctx.samplingRate
    centerFreq := int64 segment.centerFrequency
    measurements := values.map single }

/-- `TimeSecs` and `TimeMicrosecs`, read where the `Sample` schema has them. -/
def senTime : Value → Option (ℤ × ℤ)
  | .record (_ :: _ :: _ :: _ :: .record [.long timeSecs, .int timeMicrosecs] :: _) =>
    some (timeSecs, timeMicrosecs)
  | _ => none

/-- `timeSecs` and `timeMicroSecs`, read where the `IQSample` schema has them. -/
def iqTime : Value → Option (ℤ × ℤ)
  | .record (_ :: .long timeSecs :: .int timeMicroSecs :: _) => some (timeSecs, timeMicroSecs)
  | _ => none

/-- Seconds since the epoch, and microseconds since then. -/
def instant (time : ℤ × ℤ) : ℚ := time.1 + time.2 / 10 ^ 6

/-- Within one microsecond of the capture. -/
def Near (t : Timespec) (x : ℚ) : Prop := |x - captureTime t| ≤ 1 / 10 ^ 6

/-- Segments with these time stamps are exported with the times of their capture. -/
structure Exported (times : List Timespec) : Prop where
  file : ∀ (text : FloatText) (segments : List (SpectrumSegment ℚ)),
    segments.map SpectrumSegment.timeStamp = times →
      List.Forall₂ Near times (readTimes ((fileSink text).stateAfter segments))
  file_ordered : ∀ (text : FloatText) (segments : List (SpectrumSegment ℚ)),
    segments.map SpectrumSegment.timeStamp = times →
      (times.map captureTime).Pairwise (· ≤ ·) →
        (readTimes ((fileSink text).stateAfter segments)).Pairwise (· ≤ ·)
  psd : ∀ (single : ℚ → UInt32) (macEth0 : ℤ) (ctx : ElectrosenseContext)
    (segment : SpectrumSegment ℚ) (r : Sample), segment.timeStamp ∈ times →
      psdSample single macEth0 ctx segment = .ok r →
        ∃ time, senTime r.toValue = some time ∧ Near segment.timeStamp (instant time)
  iq : ∀ (single : ℚ → UInt32) (macEth0 : ℤ) (ctx : ElectrosenseContext)
    (segment : RawSegment) (r : IQSample), segment.timeStamp ∈ times →
      iqSample single macEth0 ctx segment = .ok r →
        ∃ time, iqTime r.toValue = some time ∧ Near segment.timeStamp (instant time)

theorem near_fileTime_iff {t : Timespec} (ht : ClockTime t) :
    Near t (fileTime t) ↔ t.nsec = 0 ∨ 10 ^ 8 ≤ t.nsec := by
  constructor
  · intro hnear
    by_contra hdigits
    have hnonneg := ht.nsec_nonneg
    have hfar := fileTime_far (t := t) (by omega) (by omega)
    have hle := (abs_le.mp hnear).2
    linarith
  · intro hdigits
    rw [Near, fileTime_eq ht hdigits, sub_self, abs_zero]
    norm_num

/-- A nanosecond that is taken for a microsecond is read a thousand times as long. -/
theorem near_instant_iff {t : Timespec} (ht : ClockTime t) :
    Near t (instant (t.sec, t.nsec)) ↔ t.nsec ≤ 1 := by
  have hnonneg : (0 : ℚ) ≤ t.nsec := by exact_mod_cast ht.nsec_nonneg
  have hdiff : instant (t.sec, t.nsec) - captureTime t = t.nsec * (999 / 10 ^ 9) := by
    rw [instant, captureTime]
    ring
  rw [Near, hdiff, abs_of_nonneg (by positivity)]
  constructor
  · intro hnear
    have hlt : (t.nsec : ℚ) < 2 := by linarith
    have hint : t.nsec < 2 := by exact_mod_cast hlt
    omega
  · intro hle
    have hone : (t.nsec : ℚ) ≤ 1 := by exact_mod_cast hle
    linarith

section Run

variable {times : List Timespec} (hclock : ∀ t ∈ times, ClockTime t)

include hclock

theorem readTimes_eq (text : FloatText) {segments : List (SpectrumSegment ℚ)}
    (hsegments : segments.map SpectrumSegment.timeStamp = times) :
    readTimes ((fileSink text).stateAfter segments) = times.map fileTime := by
  have hall : ∀ segment ∈ segments, ClockTime segment.timeStamp := by
    intro segment hsegment
    refine hclock _ ?_
    rw [← hsegments]
    exact List.mem_map_of_mem hsegment
  rw [readTimes_stateAfter text hall, ← hsegments, List.map_map]
  rfl

theorem forall₂_readTimes_iff (text : FloatText) {segments : List (SpectrumSegment ℚ)}
    (hsegments : segments.map SpectrumSegment.timeStamp = times) :
    List.Forall₂ Near times (readTimes ((fileSink text).stateAfter segments)) ↔
      ∀ t ∈ times, t.nsec = 0 ∨ 10 ^ 8 ≤ t.nsec := by
  rw [readTimes_eq hclock text hsegments, List.forall₂_map_right_iff, List.forall₂_same]
  refine forall₂_congr ?_
  intro t ht
  exact near_fileTime_iff (hclock t ht)

/-- Times that are read as they are keep their order. -/
theorem readTimes_ordered (text : FloatText) {segments : List (SpectrumSegment ℚ)}
    (hsegments : segments.map SpectrumSegment.timeStamp = times)
    (hdigits : ∀ t ∈ times, t.nsec = 0 ∨ 10 ^ 8 ≤ t.nsec)
    (hordered : (times.map captureTime).Pairwise (· ≤ ·)) :
    (readTimes ((fileSink text).stateAfter segments)).Pairwise (· ≤ ·) := by
  have hsame : times.map fileTime = times.map captureTime := by
    refine List.map_congr_left ?_
    intro t ht
    exact fileTime_eq (hclock t ht) (hdigits t ht)
  rw [readTimes_eq hclock text hsegments, hsame]
  exact hordered

end Run

/-- No clock time is cut by the integers of a record. -/
theorem words_eq {t : Timespec} (ht : ClockTime t) :
    int64 t.sec = t.sec ∧ int32 t.nsec = t.nsec := by
  obtain ⟨hsec, hsec', hnsec, hnsec'⟩ := ht
  exact ⟨int64_eq_self (by omega) hsec', int32_eq_self (by omega) (by omega)⟩

theorem senTime_psdSample {single : ℚ → UInt32} {macEth0 : ℤ} {ctx : ElectrosenseContext}
    {segment : SpectrumSegment ℚ} {r : Sample} (ht : ClockTime segment.timeStamp)
    (hsample : psdSample single macEth0 ctx segment = .ok r) :
    senTime r.toValue = some (segment.timeStamp.sec, segment.timeStamp.nsec) := by
  obtain ⟨values, _, hr⟩ := bind_eq_ok.mp hsample
  obtain ⟨hsec, hnsec⟩ := words_eq ht
  have hread : senTime r.toValue = some (r.timeSecs, r.timeMicrosecs) := rfl
  rw [hread, ← Except.ok.inj hr, hsec, hnsec]

theorem iqTime_iqSample {single : ℚ → UInt32} {macEth0 : ℤ} {ctx : ElectrosenseContext}
    {segment : RawSegment} {r : IQSample} (ht : ClockTime segment.timeStamp)
    (hsample : iqSample single macEth0 ctx segment = .ok r) :
    iqTime r.toValue = some (segment.timeStamp.sec, segment.timeStamp.nsec) := by
  obtain ⟨values, _, hr⟩ := bind_eq_ok.mp hsample
  obtain ⟨hsec, hnsec⟩ := words_eq ht
  have hread : iqTime r.toValue = some (r.timeSecs, r.timeMicroSecs) := rfl
  rw [hread, ← Except.ok.inj hr, hsec, hnsec]

/-- A segment of which only the time counts. -/
def emptySegment (t : Timespec) : SpectrumSegment ℚ where
  sensorId := 0
  timeStamp := t
  centerFrequency := 0
  samplingRate := 0
  iqSamples := []

theorem map_emptySegment (times : List Timespec) :
    (times.map emptySegment).map SpectrumSegment.timeStamp = times := by
  rw [List.map_map]
  exact List.map_id times

/-- All writers give the time of the capture exactly when there are no nanoseconds: the
file needs nine digits of them, and the records one at most. -/
theorem exported_iff {times : List Timespec} (hclock : ∀ t ∈ times, ClockTime t) :
    Exported times ↔ ∀ t ∈ times, t.nsec = 0 := by
  constructor
  · intro hexported t ht
    have hfile := hexported.file default (times.map emptySegment) (map_emptySegment times)
    rw [forall₂_readTimes_iff hclock default (map_emptySegment times)] at hfile
    obtain ⟨r, hr⟩ : ∃ r, iqSample default 0 default ⟨0, t, 0, 0, [], []⟩ = .ok r := ⟨_, rfl⟩
    obtain ⟨time, htime, hnear⟩ := hexported.iq default 0 default _ r ht hr
    rw [iqTime_iqSample (hclock t ht) hr, Option.some.injEq] at htime
    rw [← htime, near_instant_iff (hclock t ht)] at hnear
    have hdigits := hfile t ht
    have hnonneg := (hclock t ht).nsec_nonneg
    omega
  · intro hzero
    have hdigits : ∀ t ∈ times, t.nsec = 0 ∨ 10 ^ 8 ≤ t.nsec := fun t ht => Or.inl (hzero t ht)
    have hnear : ∀ t ∈ times, Near t (instant (t.sec, t.nsec)) := by
      intro t ht
      rw [near_instant_iff (hclock t ht), hzero t ht]
      decide
    constructor
    · intro text segments hsegments
      exact (forall₂_readTimes_iff hclock text hsegments).mpr hdigits
    · intro text segments hsegments hordered
      exact readTimes_ordered hclock text hsegments hdigits hordered
    · intro single macEth0 ctx segment r ht hsample
      exact ⟨_, senTime_psdSample (hclock _ ht) hsample, hnear _ ht⟩
    · intro single macEth0 ctx segment r ht hsample
      exact ⟨_, iqTime_iqSample (hclock _ ht) hsample, hnear _ ht⟩

theorem exported_iff_whole_seconds : Exported [⟨1500000000, 0⟩, ⟨1500000001, 0⟩] := by
  have hclock : ∀ t ∈ [⟨1500000000, 0⟩, (⟨1500000001, 0⟩ : Timespec)], ClockTime t := by
    decide
  exact (exported_iff hclock).mpr (by decide)

/-- A capture that is one nanosecond later has eight digits turned into nine: the file
has it nine tenths of a second earlier. -/
theorem later_segment_earlier_in_file :
    (∀ t ∈ [⟨1500000000, 99999999⟩, (⟨1500000000, 100000000⟩ : Timespec)], ClockTime t) ∧
    ¬ Exported [⟨1500000000, 99999999⟩, ⟨1500000000, 100000000⟩] ∧
    ([⟨1500000000, 99999999⟩, (⟨1500000000, 100000000⟩ : Timespec)].map captureTime).Pairwise
      (· ≤ ·) ∧
    readTimes ((fileSink default).stateAfter
      ([⟨1500000000, 99999999⟩, ⟨1500000000, 100000000⟩].map emptySegment)) =
        [1500000000 + 99999999 / 10 ^ 8, 1500000000 + 1 / 10] := by
  have hclock : ∀ t ∈ [⟨1500000000, 99999999⟩, (⟨1500000000, 100000000⟩ : Timespec)],
      ClockTime t := by
    decide
  refine ⟨hclock, ?_, by decide +kernel, ?_⟩
  · intro hexported
    have hfile := hexported.file default _ (map_emptySegment _)
    rw [forall₂_readTimes_iff hclock default (map_emptySegment _)] at hfile
    exact absurd (hfile ⟨1500000000, 99999999⟩ (by decide)) (by decide)
  · rw [readTimes_eq hclock default (map_emptySegment _)]
    decide +kernel

end EsSensor.ExportedTime
