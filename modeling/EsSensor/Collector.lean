import EsSensor.AvroRecords
import EsSensor.PsdPipeline
import EsSensor.Transmission

/-!
The other end of the connection. The collector takes the stream apart into packets
and reads each payload with the schema that the sensor has used; for spectra it gets
one record for each hop.
-/
namespace EsSensor.Collector

open Averaging AvroBinary AvroRecords AvroSerialization CheckedLoop FifoChain MachineWord
  PsdPipeline RtlsdrDriver SpectralWindow Transmission

section Stream

variable {R : Type} (kind : RecordKind R)

/-- A payload is one record and nothing behind it. -/
def readPayload (payload : List UInt8) : Option R := do
  let (value, rest) ← kind.schema.read payload
  if rest = [] then kind.ofValue value else none

/-- Packets, and a record out of each. -/
def collect (withBins : Bool) (stream : List UInt8) : Option (List R) := do
  let packets ← (packetCode withBins).decode stream
  packets.mapM (fun p => readPayload kind p.payload)

/-- What `getAvroBuffer` gives for a record. -/
def payloadOf (r : R) : List UInt8 := encode (kind.toValue r)

variable {kind}

theorem readPayload_payloadOf {r : R} (hr : kind.InRange r) :
    readPayload kind (payloadOf kind r) = some r := by
  have hread := read_encode kind.schema (kind.toValue r) (kind.describes hr) []
  rw [List.append_nil] at hread
  rw [readPayload, payloadOf, hread]
  show (if ([] : List UInt8) = [] then kind.ofValue (kind.toValue r) else none) = some r
  rw [if_pos rfl, kind.ofValue_toValue]

theorem mapM_readPayload (cfg : Setup) {records : List R}
    (hrange : ∀ r ∈ records, kind.InRange r) :
    (records.map (fun r => cfg.packet (payloadOf kind r))).mapM
      (fun p => readPayload kind p.payload) = some records := by
  induction records with
  | nil => rfl
  | cons r rest ih =>
    have hfirst := readPayload_payloadOf (hrange r List.mem_cons_self)
    have hrest := ih (fun r' hr' => hrange r' (List.mem_cons_of_mem _ hr'))
    rw [List.map_cons, List.mapM_cons, hrest]
    show (readPayload kind (payloadOf kind r)).bind _ = _
    rw [hfirst]
    rfl

/-- Whatever records are sent one after the other, they are what is collected. -/
theorem collect_packets (cfg : Setup) {records : List R}
    (hrange : ∀ r ∈ records, kind.InRange r)
    (hsize : ∀ r ∈ records, (payloadOf kind r).length ≤ 2 ^ 30) :
    collect kind (cfg.pipeline = "PSD")
      (records.flatMap (fun r => (cfg.packet (payloadOf kind r)).bytes)) = some records := by
  have hvalid : ∀ p ∈ records.map (fun r => cfg.packet (payloadOf kind r)),
      (packetCode (cfg.pipeline = "PSD")).Valid p := by
    intro p hp
    obtain ⟨r, hr, rfl⟩ := List.mem_map.mp hp
    exact packet_valid cfg (hsize r hr)
  have hdecode := FrameCode.decode_frames hvalid
  rw [List.flatMap_map] at hdecode
  show ((packetCode (cfg.pipeline = "PSD")).decode _).bind _ = _
  rw [show (packetCode (cfg.pipeline = "PSD")).decode
    (records.flatMap (fun r => (cfg.packet (payloadOf kind r)).bytes)) = _ from hdecode]
  exact mapM_readPayload cfg hrange

/-- The system calls that write the packets of the records. -/
abbrev Written (kind : RecordKind R) (cfg : Setup) (records : List R)
    (calls : List (List ℤ)) : Prop :=
  List.Forall₂ (fun r calls =>
    Succeeds cfg.connection (cfg.packetSize (payloadOf kind r).length) calls) records calls

theorem fst_zip_payloads {cfg : Setup} {records : List R} {calls : List (List ℤ)}
    (hwritten : Written kind cfg records calls) :
    ((records.map (payloadOf kind)).zip calls).flatMap (fun item => (cfg.packet item.1).bytes) =
      records.flatMap (fun r => (cfg.packet (payloadOf kind r)).bytes) := by
  induction hwritten with
  | nil => rfl
  | cons _ _ ih =>
    rw [List.map_cons, List.zip_cons_cons, List.flatMap_cons, List.flatMap_cons, ih]

theorem mem_zip_payloads {cfg : Setup} {records : List R} {calls : List (List ℤ)}
    (hwritten : Written kind cfg records calls) :
    ∀ item ∈ (records.map (payloadOf kind)).zip calls,
      (∃ r ∈ records, item.1 = payloadOf kind r) ∧
        Succeeds cfg.connection (cfg.packetSize item.1.length) item.2 := by
  induction hwritten with
  | nil =>
    intro item hitem
    cases hitem
  | @cons r c records calls hfirst _ ih =>
    intro item hitem
    rcases List.mem_cons.mp hitem with rfl | hitem
    · exact ⟨⟨r, List.mem_cons_self, rfl⟩, hfirst⟩
    · obtain ⟨⟨r', hr', heq⟩, hcalls⟩ := ih item hitem
      exact ⟨⟨r', List.mem_cons_of_mem _ hr', heq⟩, hcalls⟩

/-- What the transmission sends of records is collected as these records. -/
theorem collect_run (cfg : Setup) {records : List R} {calls : List (List ℤ)}
    (hrange : ∀ r ∈ records, kind.InRange r)
    (hsize : ∀ r ∈ records, (payloadOf kind r).length ≤ 2 ^ 30)
    (hwritten : Written kind cfg records calls) :
    ∃ t, run cfg {} ((records.map (payloadOf kind)).zip calls) = .ok t ∧
      collect kind (cfg.pipeline = "PSD") t.sent = some records := by
  have hcached : Cached cfg {} := fun hprev => absurd rfl hprev
  have hitems := mem_zip_payloads hwritten
  have hlengths : ∀ item ∈ (records.map (payloadOf kind)).zip calls,
      1 ≤ item.1.length ∧ item.1.length ≤ 2 ^ 30 := by
    intro item hitem
    obtain ⟨⟨r, hr, heq⟩, _⟩ := hitems item hitem
    rw [heq]
    exact ⟨kind.encode_pos r, hsize r hr⟩
  obtain ⟨t, hrun, hrunning⟩ := run_returns hcached rfl hlengths
    (fun item hitem => (hitems item hitem).2)
  have hspec := run_spec hcached hlengths
  rw [hrun] at hspec
  have hsent := hspec hrunning
  rw [fst_zip_payloads hwritten] at hsent
  refine ⟨t, hrun, ?_⟩
  rw [hsent]
  exact collect_packets cfg hrange hsize

/-- A write that takes the packet in one call. -/
theorem succeeds_once (connection : ConnectionType) (size : ℕ) :
    Succeeds connection size [(size : ℤ)] := by
  intro msg hmsg
  have hsize : ((size : ℤ) = msg.length) := by rw [hmsg]
  cases connection with
  | TCP =>
    refine ⟨(msg.drop 0).take (size : ℤ).toNat, ?_⟩
    show tcpWrite msg 0 [(size : ℤ)] = _
    rw [tcpWrite, if_neg (by omega), if_pos (by omega)]
  | TLS =>
    refine ⟨msg.take (size : ℤ).toNat, ?_⟩
    show Except.ok (if (size : ℤ) = msg.length then (0 : ℤ) else -1, _) = _
    rw [if_pos hsize]

theorem succeeds_all (connection : ConnectionType) (size : List UInt8 → ℕ)
    (buffers : List (List UInt8)) :
    List.Forall₂ (fun buffer calls => Succeeds connection (size buffer) calls) buffers
      (buffers.map (fun buffer => [(size buffer : ℤ)])) := by
  rw [List.forall₂_map_right_iff, List.forall₂_same]
  exact fun buffer _ => succeeds_once connection (size buffer)

end Stream

end EsSensor.Collector
