import EsSensor.Library.ByteOrder
import EsSensor.Library.CheckedLoop
import EsSensor.Library.DrainChain
import EsSensor.Settings
import EsSensor.SpectrumSegment

/-!
The recording of samples to a file: the driver's callback, the block that
removes the offset when numbers are asked for, and the sink. `main` stops them
in this order.
-/
namespace EsSensor.IqCapture

open ByteOrder CheckedLoop DrainChain FifoChain GuardedRun Settings

/-- A segment of raw bytes. -/
structure RawSegment where
  sensorId : ℤ
  timeStamp : Timespec
  centerFrequency : ℕ
  samplingRate : ℕ
  buffer : List UInt8
  iqTimeV2 : List ℚ := []
  deriving DecidableEq, Repr

/-- One call of the callback: the clock, and the buffer that the library fills. -/
structure Delivery where
  currentTime : Timespec
  buf : List UInt8
  deriving DecidableEq, Repr

/-- What `capbuf_rtlsdr_callback` puts on the queue for the recording. -/
def capbufCallback (centerFreq samplingRate : ℕ) (d : Delivery) : RawSegment where
  sensorId := -1000
  timeStamp := d.currentTime
  centerFrequency := centerFreq
  samplingRate := samplingRate
  buffer := d.buf

/-- What the threads keep: the sink its file, and any of them a misuse of memory. -/
structure Memory where
  file : List UInt8 := []
  fault : Option Fault := none
  deriving DecidableEq, Repr

def maxSegment : ℕ := 2400000

def removeDC (a : ℚ) : ℚ := (a - 127.4) / 128

/-- The numbers of `floatArray` that `RemoveDCRTL::run` works on. They are copied
in from the start, read four times as far, and cut back to what was copied. -/
def floats (buffer : List UInt8) : Except Fault (List ℚ) :=
  if 4 * buffer.length ≤ maxSegment then .ok (buffer.map (fun byte => (byte.toNat : ℚ)))
  else .error .outOfRange

/-- The loop body of `RemoveDCRTL::run`. -/
def removeDCRTL : Block Memory RawSegment where
  init := {}
  step memory segment :=
    match floats segment.buffer with
    | .ok values => (memory, [{ segment with iqTimeV2 := values.map removeDC }])
    | .error e => ({ memory with fault := some e }, [])

/-- The bytes of floats in memory; `single` gives the bits of one. -/
def floatBytes (single : ℚ → UInt32) (values : List ℚ) : List UInt8 :=
  values.flatMap (fun x => littleEndian 4 (single x).toNat)

/-- What `IQSink::run` writes for a segment. -/
def written (single : ℚ → UInt32) (outputType : ℕ) (segment : RawSegment) : List UInt8 :=
  if outputType = outputTypeByte then segment.buffer
  else if outputType = outputTypeFloat then floatBytes single segment.iqTimeV2
  else []

/-- The loop body of `IQSink::run`, which ends the segment. -/
def iqSink (single : ℚ → UInt32) (outputType : ℕ) : Block Memory RawSegment where
  init := {}
  step memory segment :=
    ({ memory with file := memory.file ++ written single outputType segment }, [])

/-- The blocks that `main` puts behind the driver. -/
def captureBlocks (single : ℚ → UInt32) (outputType : ℕ) : List (Block Memory RawSegment) :=
  if outputType = outputTypeByte then [iqSink single outputType]
  else [removeDCRTL, iqSink single outputType]

/-- The memory of the last block, which has the file. -/
def sink (single : ℚ → UInt32) (outputType : ℕ) (s : State Memory RawSegment) : Memory :=
  s.net.held ((captureBlocks single outputType).length - 1)

/-- The length of the buffers of `rtlsdr_read_async` when it is called with zero. -/
def defaultBufLength : ℕ := 16 * 32 * 512

theorem stateAfter_iqSink (single : ℚ → UInt32) (outputType : ℕ) (segments : List RawSegment) :
    (iqSink single outputType).stateAfter segments =
      { file := segments.flatMap (written single outputType) } := by
  induction segments using List.reverseRecOn with
  | nil => rfl
  | append_singleton segments segment ih =>
    rw [Block.stateAfter_concat, ih, List.flatMap_append, List.flatMap_singleton]
    rfl

/-- The segment that `RemoveDCRTL` passes on. -/
def withFloats (segment : RawSegment) : RawSegment :=
  { segment with iqTimeV2 := segment.buffer.map (fun byte => removeDC byte.toNat) }

theorem step_removeDCRTL (memory : Memory) {segment : RawSegment}
    (hlength : segment.buffer.length ≤ defaultBufLength) :
    removeDCRTL.step memory segment = (memory, [withFloats segment]) := by
  have hfits : 4 * segment.buffer.length ≤ maxSegment := by
    unfold defaultBufLength at hlength
    unfold maxSegment
    omega
  simp only [removeDCRTL, floats, if_pos hfits, List.map_map]
  rfl

/-- With the library's buffers the array is never left. -/
theorem run_removeDCRTL {segments : List RawSegment}
    (hlength : ∀ segment ∈ segments, segment.buffer.length ≤ defaultBufLength) :
    removeDCRTL.stateAfter segments = {} ∧
      removeDCRTL.outputs segments = segments.map withFloats := by
  induction segments using List.reverseRecOn with
  | nil => exact ⟨rfl, rfl⟩
  | append_singleton segments segment ih =>
    obtain ⟨hstate, houtputs⟩ := ih (fun x hx => hlength x (List.mem_append_left _ hx))
    have hstep := step_removeDCRTL (removeDCRTL.stateAfter segments)
      (hlength segment (List.mem_append_right _ (List.mem_singleton_self _)))
    rw [Block.stateAfter_concat, Block.outputs_concat, hstep, hstate, houtputs, List.map_append]
    exact ⟨rfl, rfl⟩

variable {single : ℚ → UInt32} {outputType : ℕ} {s : State Memory RawSegment}
  {segments : List RawSegment}

/-- Every block has taken all that comes from the segments. -/
def Taken (single : ℚ → UInt32) (outputType : ℕ) (segments : List RawSegment)
    (s : State Memory RawSegment) : Prop :=
  ∀ i b, (captureBlocks single outputType)[i]? = some b →
    s.net.held i = b.stateAfter (through (captureBlocks single outputType) segments i)

theorem sink_of_byte (htype : outputType = outputTypeByte)
    (htaken : Taken single outputType segments s) :
    sink single outputType s = { file := segments.flatMap RawSegment.buffer } := by
  have hblocks : captureBlocks single outputType = [iqSink single outputType] := if_pos htype
  unfold Taken at htaken
  rw [hblocks] at htaken
  rw [sink, hblocks]
  show s.net.held 0 = _
  rw [htaken 0 _ rfl, through, stateAfter_iqSink]
  congr 2
  funext segment
  exact if_pos htype

theorem sink_of_float (htype : outputType = outputTypeFloat)
    (hlength : ∀ segment ∈ segments, segment.buffer.length ≤ defaultBufLength)
    (htaken : Taken single outputType segments s) :
    s.net.held 0 = {} ∧
      sink single outputType s =
        { file := segments.flatMap (fun segment =>
            floatBytes single (segment.buffer.map (fun byte => removeDC byte.toNat))) } := by
  have hnot : outputType ≠ outputTypeByte := by
    rw [htype]
    decide
  have hblocks : captureBlocks single outputType = [removeDCRTL, iqSink single outputType] :=
    if_neg hnot
  obtain ⟨hstate, houtputs⟩ := run_removeDCRTL hlength
  unfold Taken at htaken
  rw [hblocks] at htaken
  rw [sink, hblocks]
  refine ⟨(htaken 0 _ rfl).trans hstate, ?_⟩
  show s.net.held 1 = _
  have hthrough : through [removeDCRTL, iqSink single outputType] segments 1 =
      segments.map withFloats := houtputs
  rw [htaken 1 _ rfl, hthrough, stateAfter_iqSink, List.flatMap_map]
  congr 2
  funext segment
  rw [written, if_neg hnot, if_pos htype]
  rfl

/-- When the last `stop` returns the file holds, in order and each once, the
buffers that the callback has put on the queue, or their values without offset. -/
theorem capture_complete (single : ℚ → UInt32) (outputType centerFreq samplingRate : ℕ)
    (deliveries : List Delivery) (actions : List DrainChain.Action)
    (hrun : run (DrainChain.act (captureBlocks single outputType)) actions
      (DrainChain.start (captureBlocks single outputType)
        (deliveries.map (capbufCallback centerFreq samplingRate)) {}) = some s)
    (hstopped : (captureBlocks single outputType).length < s.stopping) :
    ∃ enqueued rest, deliveries = enqueued ++ rest ∧
      s.net.source = rest.map (capbufCallback centerFreq samplingRate) ∧
      (outputType = outputTypeByte →
        sink single outputType s = { file := enqueued.flatMap Delivery.buf }) ∧
      (outputType = outputTypeFloat →
        (∀ d ∈ deliveries, d.buf.length ≤ defaultBufLength) →
        s.net.held 0 = {} ∧
          sink single outputType s =
            { file := enqueued.flatMap (fun d =>
                floatBytes single (d.buf.map (fun byte => removeDC byte.toNat))) }) := by
  obtain ⟨segments, hsource, _, htaken⟩ := held_of_stopped hrun hstopped
  obtain ⟨enqueued, rest, hsplit, rfl, hrest⟩ := List.map_eq_append_iff.mp hsource
  refine ⟨enqueued, rest, hsplit, hrest.symm, ?_, ?_⟩
  · intro htype
    have hsink := sink_of_byte htype htaken
    rw [List.flatMap_map] at hsink
    exact hsink
  · intro htype hlength
    have hsegments : ∀ segment ∈ enqueued.map (capbufCallback centerFreq samplingRate),
        segment.buffer.length ≤ defaultBufLength := by
      intro segment hsegment
      obtain ⟨d, hd, rfl⟩ := List.mem_map.mp hsegment
      exact hlength d (hsplit ▸ List.mem_append_left rest hd)
    have hsink := sink_of_float htype hsegments htaken
    rw [List.flatMap_map] at hsink
    exact hsink

/-- Two buffers; the producer ends with the second one still on its queue, and
each block goes on after its flag was cleared. -/
def twoBuffers : List DrainChain.Action :=
  [.enter 0, .enter 1, .test 0, .produce, .tell, .dequeue 0, .produce, .finish, .join, .tell,
    .send 0, .send 0, .test 0, .size 0 false, .dequeue 0, .send 0, .send 0, .test 0,
    .size 0 true, .join, .test 1, .dequeue 1, .send 1, .tell, .test 1, .size 1 false,
    .dequeue 1, .send 1, .test 1, .size 1 true, .join]

def twoDeliveries : List Delivery := [⟨⟨0, 0⟩, [1, 2]⟩, ⟨⟨0, 1⟩, [3, 4]⟩]

theorem capture_complete_two_buffers :
    ∃ s enqueued rest, twoDeliveries = enqueued ++ rest ∧
      run (DrainChain.act (captureBlocks (fun _ => 9) outputTypeFloat)) twoBuffers
        (DrainChain.start (captureBlocks (fun _ => 9) outputTypeFloat)
          (twoDeliveries.map (capbufCallback 100 2400000)) {}) = some s ∧
      (sink (fun _ => 9) outputTypeFloat s).file = enqueued.flatMap (fun d =>
        floatBytes (fun _ => 9) (d.buf.map (fun byte => removeDC byte.toNat))) := by
  obtain ⟨s, hrun, hstopped⟩ : ∃ s, run (DrainChain.act (captureBlocks (fun _ => 9) outputTypeFloat))
      twoBuffers (DrainChain.start (captureBlocks (fun _ => 9) outputTypeFloat)
        (twoDeliveries.map (capbufCallback 100 2400000)) {}) = some s ∧ 2 < s.stopping :=
    ⟨_, rfl, by decide +kernel⟩
  obtain ⟨enqueued, rest, hsplit, _, _, hfloat⟩ :=
    capture_complete (fun _ => 9) outputTypeFloat 100 2400000 twoDeliveries twoBuffers hrun hstopped
  have hsink := (hfloat rfl (by decide)).2
  exact ⟨s, enqueued, rest, hsplit, hrun, by rw [hsink]⟩

end EsSensor.IqCapture
