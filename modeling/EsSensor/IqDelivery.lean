import EsSensor.Collector

/-!
The samples of the receiver on their way to a collector: the driver's callback, the
removal of the offset, the serialization and the transmission are stopped in this order,
and each of them first empties its queue.
-/
namespace EsSensor.IqDelivery

open AvroBinary AvroRecords CheckedLoop Collector DrainChain ExportedTime FifoChain GuardedRun
  IqCapture MachineWord Transmission

/-- A segment with its Avro buffer. -/
structure IqSegment where
  raw : RawSegment
  avroBuffer : List UInt8 := []

/-- What the threads keep: the transmission what it has dequeued. -/
structure Memory where
  fault : Option Fault := none
  dequeued : List (List UInt8) := []
  deriving DecidableEq, Repr

/-- The loop body of `RemoveDCRTL::run`. -/
def removeDCRTL : Block Memory IqSegment where
  init := {}
  step memory segment :=
    match floats segment.raw.buffer with
    | .ok values =>
      (memory, [{ segment with raw := { segment.raw with iqTimeV2 := values.map removeDC } }])
    | .error e => ({ memory with fault := some e }, [])

section Serialization

variable (cut : ℕ → List UInt8 → List UInt8) (single : ℚ → UInt32) (macEth0 : ℤ)
  (ctx : ElectrosenseContext)

/-- What the loop body of `IQ` gives to `setAvroBuffer`. -/
def iqBuffer (segment : RawSegment) : Except Fault (List UInt8) := do
  let r ← iqSample single macEth0 ctx segment
  iqKind.write cut (iqBufSize segment) r

/-- The loop body of `AvroSerialization::IQ`. -/
def avroSerialization : Block Memory IqSegment where
  init := {}
  step memory segment :=
    match iqBuffer cut single macEth0 ctx segment.raw with
    | .ok buf => (memory, [{ segment with avroBuffer := buf }])
    | .error e => ({ memory with fault := some e }, [])

/-- The loop body of `Transmission::run` up to its packet. -/
def transmission : Block Memory IqSegment where
  init := {}
  step memory segment :=
    ({ memory with dequeued := memory.dequeued ++ [segment.avroBuffer] }, [])

/-- The blocks that `main` puts behind the driver when there is a host. -/
def iqBlocks : List (Block Memory IqSegment) :=
  [removeDCRTL, avroSerialization cut single macEth0 ctx, transmission]

/-- What the callback puts on the queue. -/
def delivered (centerFreq : ℕ) (d : Delivery) : IqSegment where
  raw := capbufCallback centerFreq ctx.samplingRate d

/-- The record of one buffer. The integer that is called microseconds has the nanoseconds. -/
def deliveryRecord (centerFreq : ℕ) (d : Delivery) : IQSample where
  senId := macEth0
  timeSecs := int64 d.currentTime.sec
  timeMicroSecs := int32 d.currentTime.nsec
  frontendGain := single ctx.gain
  samplingRate := int32 ctx.samplingRate
  centerFreq := int64 centerFreq
  measurements := d.buf.map (fun byte => single (removeDC byte.toNat))

end Serialization

/-- Whole USB transfers, in buffers of the library's own length. -/
structure Delivery.FromLibrary (d : Delivery) : Prop where
  length_le : d.buf.length ≤ defaultBufLength
  even : d.buf.length % 2 = 0

variable {cut : ℕ → List UInt8 → List UInt8} {single : ℚ → UInt32} {macEth0 : ℤ}
  {ctx : ElectrosenseContext} {centerFreq : ℕ} {d : Delivery}

theorem measurements_of_even {values : List ℚ} (heven : values.length % 2 = 0) :
    measurements values = .ok values := by
  induction values using measurements.induct with
  | case1 => rfl
  | case2 value => exact absurd heven (by rw [List.length_singleton]; decide)
  | case3 real imag rest ih =>
    have hrest : rest.length % 2 = 0 := by
      rw [List.length_cons, List.length_cons] at heven
      omega
    rw [measurements, ih hrest]
    rfl

/-- The segment behind the removal of the offset. -/
def withoutOffset (segment : IqSegment) : IqSegment :=
  { segment with raw := withFloats segment.raw }

theorem step_removeDCRTL (memory : Memory) {segment : IqSegment}
    (hlength : segment.raw.buffer.length ≤ defaultBufLength) :
    removeDCRTL.step memory segment = (memory, [withoutOffset segment]) := by
  have hfits : 4 * segment.raw.buffer.length ≤ maxSegment := by
    unfold defaultBufLength at hlength
    unfold maxSegment
    omega
  simp only [removeDCRTL, floats, if_pos hfits, List.map_map]
  rfl

section Delivered

variable (cut single ctx centerFreq) (hmac : -2 ^ 63 ≤ macEth0 ∧ macEth0 < 2 ^ 63)

theorem iqSample_delivered (macEth0 : ℤ) (hd : Delivery.FromLibrary d) :
    iqSample single macEth0 ctx (withoutOffset (delivered ctx centerFreq d)).raw =
      .ok (deliveryRecord single macEth0 ctx centerFreq d) := by
  have hvalues : measurements (d.buf.map (fun byte => removeDC byte.toNat)) =
      .ok (d.buf.map (fun byte => removeDC byte.toNat)) := by
    apply measurements_of_even
    rw [List.length_map]
    exact hd.even
  unfold iqSample
  rw [show (withoutOffset (delivered ctx centerFreq d)).raw.iqTimeV2 =
    d.buf.map (fun byte => removeDC byte.toNat) from rfl, hvalues, ok_bind, List.map_map]
  rfl

include hmac

theorem iqBuffer_delivered (hd : Delivery.FromLibrary d) :
    iqBuffer cut single macEth0 ctx (withoutOffset (delivered ctx centerFreq d)).raw =
      .ok (payloadOf iqKind (deliveryRecord single macEth0 ctx centerFreq d)) := by
  have hsample := iqSample_delivered single ctx centerFreq macEth0 hd
  have hlength : (withoutOffset (delivered ctx centerFreq d)).raw.iqTimeV2.length =
      d.buf.length := List.length_map ..
  have hle := hd.length_le
  have hfits := iqSample_fits hmac (by rw [hlength]; unfold defaultBufLength at hle; omega)
    hsample
  rw [iqBuffer, hsample, ok_bind]
  exact iqKind.write_eq cut hfits

omit hmac in
/-- The segment behind the serialization. -/
def serialized (macEth0 : ℤ) (segment : IqSegment) : IqSegment :=
  { segment with avroBuffer := (iqBuffer cut single macEth0 ctx segment.raw).toOption.getD [] }

theorem step_avroSerialization (memory : Memory) (hd : Delivery.FromLibrary d) :
    (avroSerialization cut single macEth0 ctx).step memory
        (withoutOffset (delivered ctx centerFreq d)) =
      (memory,
        [serialized cut single ctx macEth0 (withoutOffset (delivered ctx centerFreq d))]) := by
  have hbuffer := iqBuffer_delivered cut single ctx centerFreq hmac hd
  simp only [avroSerialization, serialized, hbuffer]
  rfl

theorem avroBuffer_serialized (hd : Delivery.FromLibrary d) :
    (serialized cut single ctx macEth0
      (withoutOffset (delivered ctx centerFreq d))).avroBuffer =
        payloadOf iqKind (deliveryRecord single macEth0 ctx centerFreq d) := by
  have hbuffer := iqBuffer_delivered cut single ctx centerFreq hmac hd
  rw [serialized, hbuffer]
  rfl

end Delivered

theorem stateAfter_transmission (segments : List IqSegment) :
    transmission.stateAfter segments = { dequeued := segments.map IqSegment.avroBuffer } := by
  induction segments using List.reverseRecOn with
  | nil => rfl
  | append_singleton segments segment ih =>
    rw [Block.stateAfter_concat, ih, List.map_append]
    rfl

/-- What the three blocks hold when all of these buffers have gone through them. -/
theorem held_of_deliveries (cut : ℕ → List UInt8 → List UInt8) (single : ℚ → UInt32)
    (ctx : ElectrosenseContext) (centerFreq : ℕ)
    (hmac : -2 ^ 63 ≤ macEth0 ∧ macEth0 < 2 ^ 63) {enqueued : List Delivery}
    (hlibrary : ∀ d ∈ enqueued, Delivery.FromLibrary d) {net : Network Memory IqSegment}
    (hheld : ∀ i b, (iqBlocks cut single macEth0 ctx)[i]? = some b →
      net.held i = b.stateAfter
        (through (iqBlocks cut single macEth0 ctx) (enqueued.map (delivered ctx centerFreq)) i)) :
    net.held 0 = {} ∧ net.held 1 = {} ∧
      net.held 2 = { dequeued := enqueued.map (fun d =>
        payloadOf iqKind (deliveryRecord single macEth0 ctx centerFreq d)) } := by
  have hremove : ∀ segment ∈ enqueued.map (delivered ctx centerFreq), ∀ memory,
      removeDCRTL.step memory segment = (memory, [withoutOffset segment]) := by
    intro segment hsegment memory
    obtain ⟨d, hd, rfl⟩ := List.mem_map.mp hsegment
    exact step_removeDCRTL memory (hlibrary d hd).length_le
  have hserialize : ∀ segment ∈ (enqueued.map (delivered ctx centerFreq)).map withoutOffset,
      ∀ memory, (avroSerialization cut single macEth0 ctx).step memory segment =
        (memory, [serialized cut single ctx macEth0 segment]) := by
    intro segment hsegment memory
    rw [List.map_map] at hsegment
    obtain ⟨d, hd, rfl⟩ := List.mem_map.mp hsegment
    exact step_avroSerialization cut single ctx centerFreq hmac memory (hlibrary d hd)
  have hfirst := Block.run_of_map hremove
  have hsecond := Block.run_of_map hserialize
  have hone : through (iqBlocks cut single macEth0 ctx)
      (enqueued.map (delivered ctx centerFreq)) 1 =
        (enqueued.map (delivered ctx centerFreq)).map withoutOffset := hfirst.2
  have htwo : through (iqBlocks cut single macEth0 ctx)
      (enqueued.map (delivered ctx centerFreq)) 2 =
        ((enqueued.map (delivered ctx centerFreq)).map withoutOffset).map
          (serialized cut single ctx macEth0) := by
    rw [← hsecond.2, ← hone]
    rfl
  refine ⟨(hheld 0 _ rfl).trans hfirst.1, ?_, ?_⟩
  · rw [hheld 1 _ rfl, hone]
    exact hsecond.1
  · rw [hheld 2 _ rfl, htwo, stateAfter_transmission, List.map_map, List.map_map, List.map_map]
    congr 1
    apply List.map_congr_left
    intro d hd
    exact avroBuffer_serialized cut single ctx centerFreq hmac (hlibrary d hd)

theorem inRange_deliveryRecord (single : ℚ → UInt32) (ctx : ElectrosenseContext)
    (centerFreq : ℕ) (hmac : -2 ^ 63 ≤ macEth0 ∧ macEth0 < 2 ^ 63)
    (hd : Delivery.FromLibrary d) :
    IQSample.InRange (deliveryRecord single macEth0 ctx centerFreq d) :=
  inRange_iqSample hmac (iqSample_delivered single ctx centerFreq macEth0 hd)

theorem length_deliveryRecord_le (single : ℚ → UInt32) (ctx : ElectrosenseContext)
    (centerFreq : ℕ) (hmac : -2 ^ 63 ≤ macEth0 ∧ macEth0 < 2 ^ 63)
    (hd : Delivery.FromLibrary d) :
    (payloadOf iqKind (deliveryRecord single macEth0 ctx centerFreq d)).length ≤ 2 ^ 30 := by
  have hrange := inRange_deliveryRecord single ctx centerFreq hmac hd
  have hlength : (deliveryRecord single macEth0 ctx centerFreq d).measurements.length =
      d.buf.length := List.length_map ..
  have hle := hd.length_le
  unfold defaultBufLength at hle
  have hrecord := length_iqSample_le hrange (by omega)
  show (encode (deliveryRecord single macEth0 ctx centerFreq d).toValue).length ≤ 2 ^ 30
  omega

/-- When the last `stop` has returned, what the transmission has sent is collected as one
record for each buffer that the callback has put on the queue, in order and each once. -/
theorem samples_delivered (cut : ℕ → List UInt8 → List UInt8) (single : ℚ → UInt32)
    (ctx : ElectrosenseContext) (centerFreq : ℕ) (hmac : -2 ^ 63 ≤ macEth0 ∧ macEth0 < 2 ^ 63)
    (deliveries : List Delivery) (hlibrary : ∀ d ∈ deliveries, Delivery.FromLibrary d)
    (actions : List DrainChain.Action) (s : DrainChain.State Memory IqSegment)
    (hrun : GuardedRun.run (DrainChain.act (iqBlocks cut single macEth0 ctx)) actions
      (DrainChain.start (iqBlocks cut single macEth0 ctx)
        (deliveries.map (delivered ctx centerFreq)) {}) = some s)
    (hstopped : 3 < s.stopping) (connection : ConnectionType) (fresh : ℕ → UInt8) :
    ∃ enqueued rest, deliveries = enqueued ++ rest ∧
      s.net.source = rest.map (delivered ctx centerFreq) ∧
      (∀ i < 3, (s.net.held i).fault = none) ∧
      ∀ calls, List.Forall₂ (fun buffer calls => Succeeds connection
          (Setup.packetSize ⟨ctx, "IQ", connection, fresh⟩ buffer.length) calls)
          (s.net.held 2).dequeued calls →
        ∃ t, Transmission.run ⟨ctx, "IQ", connection, fresh⟩ {}
            ((s.net.held 2).dequeued.zip calls) = .ok t ∧
          collect iqKind false t.sent =
            some (enqueued.map (deliveryRecord single macEth0 ctx centerFreq)) := by
  obtain ⟨segments, hsource, _, hheld⟩ := held_of_stopped hrun hstopped
  obtain ⟨enqueued, rest, hsplit, rfl, hrest⟩ := List.map_eq_append_iff.mp hsource
  have henqueued : ∀ d ∈ enqueued, Delivery.FromLibrary d :=
    fun d hd => hlibrary d (hsplit ▸ List.mem_append_left rest hd)
  obtain ⟨hzero, hone, htwo⟩ :=
    held_of_deliveries cut single ctx centerFreq hmac henqueued hheld
  refine ⟨enqueued, rest, hsplit, hrest.symm, ?_, ?_⟩
  · intro i hi
    obtain rfl | rfl | rfl : i = 0 ∨ i = 1 ∨ i = 2 := by omega
    · rw [hzero]
    · rw [hone]
    · rw [htwo]
  · intro calls hcalls
    have hdequeued : (s.net.held 2).dequeued = (enqueued.map
        (deliveryRecord single macEth0 ctx centerFreq)).map (payloadOf iqKind) := by
      rw [htwo, List.map_map]
      rfl
    rw [hdequeued] at hcalls ⊢
    rw [List.forall₂_map_left_iff] at hcalls
    have hwritten : Written iqKind ⟨ctx, "IQ", connection, fresh⟩
      (enqueued.map (deliveryRecord single macEth0 ctx centerFreq)) calls := hcalls
    have hrange : ∀ r ∈ enqueued.map (deliveryRecord single macEth0 ctx centerFreq),
        iqKind.InRange r := by
      intro r hr
      obtain ⟨d, hd, rfl⟩ := List.mem_map.mp hr
      exact inRange_deliveryRecord single ctx centerFreq hmac (henqueued d hd)
    have hsize : ∀ r ∈ enqueued.map (deliveryRecord single macEth0 ctx centerFreq),
        (payloadOf iqKind r).length ≤ 2 ^ 30 := by
      intro r hr
      obtain ⟨d, hd, rfl⟩ := List.mem_map.mp hr
      exact length_deliveryRecord_le single ctx centerFreq hmac (henqueued d hd)
    exact collect_run _ hrange hsize hwritten

/-- Two buffers; each block goes on after its flag was cleared. -/
def twoSegments : List DrainChain.Action :=
  [.enter 0, .enter 1, .enter 2, .test 0, .produce, .tell, .dequeue 0, .produce, .finish, .join,
    .tell, .send 0, .send 0, .test 0, .size 0 false, .dequeue 0, .send 0, .send 0, .test 0,
    .size 0 true, .join, .test 1, .dequeue 1, .send 1, .send 1, .tell, .test 1, .size 1 false,
    .dequeue 1, .send 1, .send 1, .test 1, .size 1 true, .join, .test 2, .dequeue 2, .send 2,
    .tell, .test 2, .size 2 false, .dequeue 2, .send 2, .test 2, .size 2 true, .join]

theorem samples_delivered_two_buffers :
    ∃ stream, collect iqKind false stream =
      some (twoDeliveries.map (deliveryRecord (fun _ => 9) 42 {} 100)) := by
  obtain ⟨s, hrun, hstopped, hempty⟩ : ∃ s,
      GuardedRun.run (DrainChain.act (iqBlocks (fun _ bytes => bytes) (fun _ => 9) 42 {}))
        twoSegments (DrainChain.start (iqBlocks (fun _ bytes => bytes) (fun _ => 9) 42 {})
          (twoDeliveries.map (delivered {} 100)) {}) = some s ∧
        3 < s.stopping ∧ s.net.source.length = 0 :=
    ⟨_, rfl, by decide +kernel, by decide +kernel⟩
  have hlibrary : ∀ d ∈ twoDeliveries, Delivery.FromLibrary d := by
    intro d hd
    have hboth : ∀ d ∈ twoDeliveries,
        d.buf.length ≤ defaultBufLength ∧ d.buf.length % 2 = 0 := by decide
    exact ⟨(hboth d hd).1, (hboth d hd).2⟩
  obtain ⟨enqueued, rest, hsplit, hsource, _, hsent⟩ :=
    samples_delivered (fun _ bytes => bytes) (fun _ => 9) {} 100 (by norm_num) twoDeliveries
      hlibrary twoSegments s hrun hstopped .TLS (fun _ => 0)
  have hrest : rest = [] := by
    rw [hsource, List.length_map] at hempty
    exact List.length_eq_zero_iff.mp hempty
  have hcalls := succeeds_all .TLS
    (fun buffer => Setup.packetSize ⟨{}, "IQ", .TLS, fun _ => 0⟩ buffer.length)
    (s.net.held 2).dequeued
  obtain ⟨t, _, hcollect⟩ := hsent _ hcalls
  rw [hrest, List.append_nil] at hsplit
  rw [hsplit]
  exact ⟨t.sent, hcollect⟩

end EsSensor.IqDelivery
