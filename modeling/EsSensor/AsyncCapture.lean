import EsSensor.FileSink
import EsSensor.IqCapture
import Mathlib.Algebra.Order.Floor.Ring

/-!
The asynchronous half of the driver. The receiver calls back with one buffer after the
other until the time to monitor is over; a start time that is given lets nothing begin
before it, and nothing at all when it has passed.
-/
namespace EsSensor.AsyncCapture

open CheckedLoop FileSink IqCapture

/-- `timespec_diff` -/
def timespecDiff (start stop : Timespec) : Timespec :=
  if stop.nsec - start.nsec < 0 then
    { sec := stop.sec - start.sec - 1, nsec := stop.nsec - start.nsec + 1000000000 }
  else { sec := stop.sec - start.sec, nsec := stop.nsec - start.nsec }

/-- The two kinds of segments that there are constructors for. -/
inductive Segment
  | raw (segment : RawSegment)
  | iq (segment : SpectrumSegment ℚ)

/-- `callback_package_t`, as far as it is read, with what the queues have been given. -/
structure CallbackPackage where
  centerFrequency : ℕ
  duration : ℕ
  samplesRead : ℤ := 0
  initTime : Timespec := ⟨0, 0⟩
  queue : List Segment := []
  queue2 : List Segment := []

/-- The values are taken in pairs; the second one of a pair is not checked for. -/
def iqPairs : List UInt8 → Except Fault (List (ℚ × ℚ))
  | [] => .ok []
  | [_] => .error .outOfRange
  | i :: q :: buf => do
    let pairs ← iqPairs buf
    .ok ((i.toNat, q.toNat) :: pairs)

/-- What the callback gives to its queues. -/
def enqueue (pipeline : String) (samplingRate : ℕ) (cp : CallbackPackage) (d : Delivery) :
    Except Fault CallbackPackage :=
  let segment := Segment.raw (capbufCallback cp.centerFrequency samplingRate d)
  if pipeline = "DEC" then
    .ok { cp with queue := cp.queue ++ [segment], queue2 := cp.queue2 ++ [segment] }
  else if pipeline = "IQ" then .ok { cp with queue := cp.queue ++ [segment] }
  else do
    let capbufRaw ← iqPairs d.buf
    .ok { cp with queue := cp.queue ++ [.iq {
      sensorId := -1000
      timeStamp := d.currentTime
      centerFrequency := cp.centerFrequency
      samplingRate := samplingRate
      iqSamples := capbufRaw }] }

/-- `capbuf_rtlsdr_callback`. The flag tells whether it cancels the reading, which ends
the thread. -/
def callback (pipeline : String) (samplingRate : ℕ) (cp : CallbackPackage) (d : Delivery) :
    Except Fault (CallbackPackage × Bool) := do
  let cp := if cp.initTime.sec = 0 then { cp with initTime := d.currentTime } else cp
  let cp ← enqueue pipeline samplingRate cp d
  let cp := { cp with samplesRead := cp.samplesRead + d.buf.length }
  let diff := timespecDiff cp.initTime d.currentTime
  .ok (cp, cp.duration ≠ 0 && (cp.duration : ℤ) ≤ diff.sec)

/-- `rtlsdr_read_async` over the buffers that come until `stop` cancels it. -/
def readAsync (pipeline : String) (samplingRate : ℕ) :
    CallbackPackage → List Delivery → Except Fault (CallbackPackage × Bool)
  | cp, [] => .ok (cp, false)
  | cp, d :: deliveries => do
    let (cp, cancelled) ← callback pipeline samplingRate cp d
    if cancelled then .ok (cp, true) else readAsync pipeline samplingRate cp deliveries

/-- `aux_thread`. The buffers are those that come when its sleep is over. -/
def auxThread (pipeline : String) (samplingRate startTime : ℕ) (currentTime : Timespec)
    (cp : CallbackPackage) (deliveries : List Delivery) :
    Except Fault (CallbackPackage × Bool) :=
  let timeDiff := timespecDiff currentTime ⟨startTime, 0⟩
  if startTime ≠ 0 ∧ (timeDiff.sec < 0 ∨ timeDiff.nsec < 0) then .ok (cp, false)
  else readAsync pipeline samplingRate cp deliveries

section Difference

variable {start stop : Timespec} (hstart : ClockTime start) (hstop : ClockTime stop)

include hstart hstop

theorem timespecDiff_nsec :
    0 ≤ (timespecDiff start stop).nsec ∧ (timespecDiff start stop).nsec < 10 ^ 9 := by
  have hlow := hstart.nsec_nonneg
  have hhigh := hstart.nsec_lt
  have hlow' := hstop.nsec_nonneg
  have hhigh' := hstop.nsec_lt
  unfold timespecDiff
  split <;> dsimp only <;> omega

omit hstart hstop in
theorem captureTime_timespecDiff (start stop : Timespec) :
    captureTime (timespecDiff start stop) = captureTime stop - captureTime start := by
  unfold timespecDiff captureTime
  split
  · push_cast
    ring
  · push_cast
    ring

/-- The seconds of a difference are its whole seconds, also below zero. -/
theorem timespecDiff_sec :
    (timespecDiff start stop).sec = ⌊captureTime stop - captureTime start⌋ := by
  obtain ⟨hlow, hhigh⟩ := timespecDiff_nsec hstart hstop
  have hlow' : (0 : ℚ) ≤ (timespecDiff start stop).nsec := by exact_mod_cast hlow
  have hhigh' : ((timespecDiff start stop).nsec : ℚ) < 10 ^ 9 := by exact_mod_cast hhigh
  rw [← captureTime_timespecDiff, eq_comm, Int.floor_eq_iff, captureTime]
  constructor
  · have hfraction : (0 : ℚ) ≤ (timespecDiff start stop).nsec / 10 ^ 9 := by positivity
    linarith
  · have hfraction : ((timespecDiff start stop).nsec : ℚ) / 10 ^ 9 < 1 := by
      rw [div_lt_one (by positivity)]
      exact hhigh'
    linarith

theorem le_timespecDiff_iff (duration : ℕ) :
    (duration : ℤ) ≤ (timespecDiff start stop).sec ↔
      (duration : ℚ) ≤ captureTime stop - captureTime start := by
  rw [timespecDiff_sec hstart hstop, Int.le_floor]
  norm_cast

/-- The test for a start in the past. -/
theorem past_iff :
    (timespecDiff start stop).sec < 0 ∨ (timespecDiff start stop).nsec < 0 ↔
      captureTime stop < captureTime start := by
  obtain ⟨hlow, _⟩ := timespecDiff_nsec hstart hstop
  rw [timespecDiff_sec hstart hstop, Int.floor_lt]
  constructor
  · rintro (hsec | hnsec)
    · push_cast at hsec
      linarith
    · exact absurd hlow (by omega)
  · intro hlt
    refine Or.inl ?_
    push_cast
    linarith

end Difference

/-- The time to monitor is over; none is limited by zero. -/
def Elapsed (duration : ℕ) (initTime : Timespec) (d : Delivery) : Prop :=
  duration ≠ 0 ∧ (duration : ℚ) ≤ captureTime d.currentTime - captureTime initTime

instance (duration : ℕ) (initTime : Timespec) (d : Delivery) :
    Decidable (Elapsed duration initTime d) :=
  inferInstanceAs (Decidable (duration ≠ 0 ∧ _ ≤ _))

/-- The buffers up to the first one at which the time is over, or all of them. -/
structure Recording (duration : ℕ) (initTime : Timespec) (taken rest : List Delivery)
    (cancelled : Bool) : Prop where
  early : ∀ d ∈ taken.dropLast, ¬ Elapsed duration initTime d
  cancelled_iff : cancelled = true ↔ ∃ d, taken.getLast? = some d ∧ Elapsed duration initTime d
  rest_eq : cancelled = false → rest = []

theorem recording_nil (duration : ℕ) (initTime : Timespec) :
    Recording duration initTime [] [] false where
  early d hd := by cases hd
  cancelled_iff := by simp
  rest_eq _ := rfl

variable {duration : ℕ} {initTime : Timespec} {d : Delivery} {taken rest : List Delivery}
  {cancelled : Bool}

theorem Recording.last (hover : Elapsed duration initTime d) (rest : List Delivery) :
    Recording duration initTime [d] rest true where
  early d' hd' := by cases hd'
  cancelled_iff := ⟨fun _ => ⟨d, rfl, hover⟩, fun _ => rfl⟩
  rest_eq hfalse := by cases hfalse

theorem Recording.cons (hearly : ¬ Elapsed duration initTime d)
    (h : Recording duration initTime taken rest cancelled) :
    Recording duration initTime (d :: taken) rest cancelled := by
  cases taken with
  | nil =>
    have hnever : ¬ ∃ d, ([] : List Delivery).getLast? = some d ∧ Elapsed duration initTime d := by
      rintro ⟨d, hd, _⟩
      cases hd
    refine ⟨fun d' hd' => (by cases hd'), ?_, h.rest_eq⟩
    rw [h.cancelled_iff]
    constructor
    · exact fun hsome => absurd hsome hnever
    · rintro ⟨d', hd', hover⟩
      obtain rfl := Option.some.inj hd'
      exact absurd hover hearly
  | cons next taken =>
    refine ⟨?_, ?_, h.rest_eq⟩
    · intro d' hd'
      rw [List.dropLast_cons_of_ne_nil (List.cons_ne_nil _ _)] at hd'
      rcases List.mem_cons.mp hd' with rfl | hd'
      · exact hearly
      · exact h.early d' hd'
    · rw [h.cancelled_iff, List.getLast?_cons_cons]

section Run

variable (pipeline : String) (samplingRate : ℕ)

/-- The package when these buffers have been taken. -/
def CallbackPackage.after (cp : CallbackPackage) (taken : List Delivery) : CallbackPackage :=
  { cp with
    samplesRead := cp.samplesRead + (taken.map (fun d => (d.buf.length : ℤ))).sum
    queue := cp.queue ++
      taken.map (fun d => .raw (capbufCallback cp.centerFrequency samplingRate d))
    queue2 := cp.queue2 ++ if pipeline = "DEC" then
      taken.map (fun d => .raw (capbufCallback cp.centerFrequency samplingRate d)) else [] }

variable {pipeline samplingRate} {cp : CallbackPackage}

theorem CallbackPackage.after_nil (cp : CallbackPackage) :
    cp.after pipeline samplingRate [] = cp := by
  cases cp
  simp [CallbackPackage.after]

theorem CallbackPackage.after_cons (cp : CallbackPackage) (d : Delivery) (taken : List Delivery) :
    (cp.after pipeline samplingRate [d]).after pipeline samplingRate taken =
      cp.after pipeline samplingRate (d :: taken) := by
  by_cases hdec : pipeline = "DEC"
  · simp [CallbackPackage.after, hdec, add_assoc]
  · simp [CallbackPackage.after, hdec, add_assoc]

theorem enqueue_eq (hpipeline : pipeline = "IQ" ∨ pipeline = "DEC") (cp : CallbackPackage)
    (d : Delivery) :
    enqueue pipeline samplingRate cp d = .ok
      { cp.after pipeline samplingRate [d] with samplesRead := cp.samplesRead } := by
  rcases hpipeline with rfl | rfl
  · simp [enqueue, CallbackPackage.after]
  · simp [enqueue, CallbackPackage.after]

/-- One buffer after the time was first taken. -/
theorem callback_eq (samplingRate : ℕ) (hpipeline : pipeline = "IQ" ∨ pipeline = "DEC")
    (hinit : ClockTime cp.initTime) (hsec : 0 < cp.initTime.sec) (hd : ClockTime d.currentTime) :
    callback pipeline samplingRate cp d = .ok (cp.after pipeline samplingRate [d],
      decide (Elapsed cp.duration cp.initTime d)) := by
  have htime := le_timespecDiff_iff hinit hd cp.duration
  have hkept : (if cp.initTime.sec = 0 then { cp with initTime := d.currentTime } else cp) = cp :=
    if_neg (by omega)
  have hover : (cp.duration ≠ 0 &&
      (cp.duration : ℤ) ≤ (timespecDiff cp.initTime d.currentTime).sec : Bool) =
        decide (Elapsed cp.duration cp.initTime d) := by
    rw [Bool.eq_iff_iff, Bool.and_eq_true, decide_eq_true_eq, decide_eq_true_eq,
      decide_eq_true_eq]
    exact and_congr_right (fun _ => htime)
  simp only [callback, hkept, enqueue_eq hpipeline, ok_bind, ← hover]
  simp [CallbackPackage.after]

theorem readAsync_spec (samplingRate : ℕ) (hpipeline : pipeline = "IQ" ∨ pipeline = "DEC")
    (hinit : ClockTime cp.initTime) (hsec : 0 < cp.initTime.sec) {deliveries : List Delivery}
    (hclock : ∀ d ∈ deliveries, ClockTime d.currentTime) :
    ∃ taken rest cancelled, deliveries = taken ++ rest ∧
      readAsync pipeline samplingRate cp deliveries =
        .ok (cp.after pipeline samplingRate taken, cancelled) ∧
      Recording cp.duration cp.initTime taken rest cancelled := by
  induction deliveries generalizing cp with
  | nil =>
    refine ⟨[], [], false, rfl, ?_, recording_nil _ _⟩
    rw [readAsync, CallbackPackage.after_nil]
  | cons d deliveries ih =>
    have hcall := callback_eq samplingRate hpipeline hinit hsec (hclock d List.mem_cons_self)
    rw [readAsync, hcall, ok_bind]
    dsimp only
    by_cases hover : Elapsed cp.duration cp.initTime d
    · refine ⟨[d], deliveries, true, rfl, ?_, Recording.last hover deliveries⟩
      rw [if_pos (decide_eq_true hover)]
    · obtain ⟨taken, rest, cancelled, hsplit, hrun, hrecording⟩ :=
        ih (show ClockTime (cp.after pipeline samplingRate [d]).initTime from hinit) hsec
          (fun d' hd' => hclock d' (List.mem_cons_of_mem _ hd'))
      refine ⟨d :: taken, rest, cancelled, by rw [hsplit]; rfl, ?_, hrecording.cons hover⟩
      rw [if_neg (by rw [decide_eq_true_eq]; exact hover), hrun, CallbackPackage.after_cons]

/-- With the first buffer the time is taken. -/
theorem readAsync_first (pipeline : String) (samplingRate : ℕ) (hinit : cp.initTime.sec = 0)
    {deliveries : List Delivery}
    (hclock : ∀ d' ∈ d :: deliveries, ClockTime d'.currentTime ∧ 0 < d'.currentTime.sec) :
    readAsync pipeline samplingRate cp (d :: deliveries) =
      readAsync pipeline samplingRate { cp with initTime := d.currentTime } (d :: deliveries) := by
  have hsec := (hclock d List.mem_cons_self).2
  have hcall : callback pipeline samplingRate cp d =
      callback pipeline samplingRate { cp with initTime := d.currentTime } d := by
    simp only [callback, hinit, if_true]
    rw [if_neg (by omega)]
  rw [readAsync, readAsync, hcall]

/-- A recording of samples holds, in order and each once, the buffers up to the first one
that comes when the time to monitor is over, counted from the first buffer; for the
decoders both queues are given them. After a start time in the past there is none. -/
theorem timed_recording (pipeline : String) (hpipeline : pipeline = "IQ" ∨ pipeline = "DEC")
    (samplingRate startTime : ℕ) (hstart : startTime < 2 ^ 32) (currentTime : Timespec)
    (hcurrent : ClockTime currentTime) (centerFrequency duration : ℕ) (first : Delivery)
    (deliveries : List Delivery)
    (hclock : ∀ d ∈ first :: deliveries, ClockTime d.currentTime ∧ 0 < d.currentTime.sec) :
    (startTime ≠ 0 ∧ (startTime : ℚ) < captureTime currentTime →
      auxThread pipeline samplingRate startTime currentTime
          { centerFrequency := centerFrequency, duration := duration } (first :: deliveries) =
        .ok ({ centerFrequency := centerFrequency, duration := duration }, false)) ∧
    (startTime = 0 ∨ captureTime currentTime ≤ startTime →
      ∃ taken rest cp cancelled, first :: deliveries = taken ++ rest ∧
        auxThread pipeline samplingRate startTime currentTime
            { centerFrequency := centerFrequency, duration := duration } (first :: deliveries) =
          .ok (cp, cancelled) ∧
        Recording duration first.currentTime taken rest cancelled ∧
        cp.queue = taken.map (fun d => .raw (capbufCallback centerFrequency samplingRate d)) ∧
        cp.queue2 = (if pipeline = "DEC" then cp.queue else []) ∧
        cp.samplesRead = (taken.map (fun d => (d.buf.length : ℤ))).sum) := by
  have hbegin : ClockTime ⟨startTime, 0⟩ :=
    ⟨Int.natCast_nonneg _, by dsimp only; omega, Int.le_refl 0, Int.ofNat_lt.mpr (by norm_num)⟩
  have htime : captureTime ⟨startTime, 0⟩ = startTime := by
    simp [captureTime]
  have hpast := past_iff hcurrent hbegin
  rw [htime] at hpast
  constructor
  · rintro ⟨hgiven, hlt⟩
    rw [auxThread, if_pos ⟨hgiven, hpast.mpr hlt⟩]
  · intro hready
    have hnot : ¬ (startTime ≠ 0 ∧ ((timespecDiff currentTime ⟨startTime, 0⟩).sec < 0 ∨
        (timespecDiff currentTime ⟨startTime, 0⟩).nsec < 0)) := by
      rintro ⟨hgiven, hover⟩
      rcases hready with hzero | hle
      · exact hgiven hzero
      · exact absurd (hpast.mp hover) (not_lt.mpr hle)
    obtain ⟨hfirst, hsec⟩ := hclock first List.mem_cons_self
    have hinit : ClockTime (CallbackPackage.mk centerFrequency duration 0 first.currentTime
        [] []).initTime := hfirst
    obtain ⟨taken, rest, cancelled, hsplit, hrun, hrecording⟩ :=
      readAsync_spec samplingRate hpipeline hinit hsec (fun d hd => (hclock d hd).1)
    refine ⟨taken, rest, CallbackPackage.after pipeline samplingRate
      ⟨centerFrequency, duration, 0, first.currentTime, [], []⟩ taken, cancelled, hsplit, ?_,
      hrecording, ?_, ?_, ?_⟩
    · rw [auxThread, if_neg hnot, readAsync_first pipeline samplingRate rfl hclock]
      exact hrun
    · rfl
    · rfl
    · exact Int.zero_add _

/-- Two seconds of time, and buffers a second apart: the third one is the last. -/
def everySecond : List Delivery :=
  [⟨⟨100, 5⟩, [1, 2]⟩, ⟨⟨101, 4⟩, [3, 4]⟩, ⟨⟨102, 6⟩, [5, 6]⟩, ⟨⟨103, 5⟩, [7, 8]⟩]

theorem timed_recording_two_seconds :
    ∃ taken rest cp cancelled, everySecond = taken ++ rest ∧
      auxThread "DEC" 2400000 0 ⟨99, 0⟩ { centerFrequency := 100000000, duration := 2 }
        everySecond = .ok (cp, cancelled) ∧
      Recording 2 ⟨100, 5⟩ taken rest cancelled ∧ cp.queue2 = cp.queue := by
  have hclock : ∀ d ∈ everySecond, ClockTime d.currentTime ∧ 0 < d.currentTime.sec := by decide
  obtain ⟨taken, rest, cp, cancelled, hsplit, hrun, hrecording, _, hboth, _⟩ :=
    (timed_recording "DEC" (.inr rfl) 2400000 0 (by norm_num) ⟨99, 0⟩ (by decide) 100000000 2
      ⟨⟨100, 5⟩, [1, 2]⟩ _ hclock).2 (.inl rfl)
  exact ⟨taken, rest, cp, cancelled, hsplit, hrun, hrecording, hboth⟩

end Run

end EsSensor.AsyncCapture
