import EsSensor.Library.HexText
import EsSensor.HopRecords
import EsSensor.IqDelivery

/-!
The number by which a sensor is known. The address of the interface is printed in
hexadecimal digits and read back to the base 16, so that every record names the interface
it comes from.
-/
namespace EsSensor.SensorId

open AvroRecords AvroSerialization ByteOrder CheckedLoop Collector ExportedTime HexText
  HopRecords IqCapture IqDelivery Transmission

def isspace (c : Char) : Bool := c = ' ' || ('\t' ≤ c && c ≤ '\r')

/-- Whether the number is negated, and the text behind the sign. -/
def sign : List Char → Bool × List Char
  | '-' :: text => (true, text)
  | '+' :: text => (false, text)
  | text => (false, text)

/-- The text behind the marker of the base. -/
def behindMarker : List Char → List Char
  | '0' :: 'x' :: text => text
  | '0' :: 'X' :: text => text
  | text => text

/-- `strtoll` to the base 16. A value that is too large in size is the nearest one. -/
def strtoll (text : List Char) : ℤ :=
  let (negative, text) := sign (text.dropWhile isspace)
  let value : ℤ := ofDigits 0 (behindMarker text)
  max (-2 ^ 63) (min (2 ^ 63 - 1) (if negative then -value else value))

/-- What is in a buffer up to its zero. -/
def cString (buffer : List Char) : List Char := buffer.takeWhile (· != '\x00')

/-- `get_mac_address_eth0`: its result, and the variable behind it. The results of `socket`
and `ioctl` are arguments, and what is on the stack in place of `mac_hex`. -/
def getMacAddressEth0 (earlier : List Char) (sock status : ℤ) (saData : List UInt8)
    (macDec : ℤ) : Except Fault (ℤ × ℤ) :=
  if sock < 0 then .ok (-1, macDec)
  else if status < 0 then .ok (-2, macDec)
  else do
    let address ← (List.range 6).mapM (readAt saData)
    let macHex ← storeAt earlier 0 (bytesText address ++ ['\x00'])
    .ok (0, strtoll (cString macHex))

section Text

variable {text : List Char}

theorem notMem_of_space {c : Char} (hc : isspace c = true) (bytes : List UInt8) :
    c ∉ bytesText bytes := by
  refine notMem_bytesText ?_ bytes
  rintro d hd rfl
  have hnone : ∀ d < 16, isspace (Nat.digitChar d) = false := by decide
  rw [hnone d hd] at hc
  cases hc

/-- Digits begin with no space. -/
theorem dropWhile_bytesText (bytes : List UInt8) :
    (bytesText bytes).dropWhile isspace = bytesText bytes := by
  cases htext : bytesText bytes with
  | nil => rfl
  | cons c text =>
    apply List.dropWhile_cons_of_neg
    intro hc
    refine notMem_of_space hc bytes ?_
    rw [htext]
    exact List.mem_cons_self

/-- Nor with a sign. -/
theorem sign_bytesText (bytes : List UInt8) :
    sign (bytesText bytes) = (false, bytesText bytes) := by
  have hminus := notMem_bytesText (c := '-') (by decide) bytes
  have hplus := notMem_bytesText (c := '+') (by decide) bytes
  generalize bytesText bytes = text at hminus hplus
  unfold sign
  split
  · exact absurd List.mem_cons_self hminus
  · exact absurd List.mem_cons_self hplus
  · rfl

/-- No byte is taken for the marker. -/
theorem behindMarker_bytesText (bytes : List UInt8) :
    behindMarker (bytesText bytes) = bytesText bytes := by
  have hlower := notMem_bytesText (c := 'x') (by decide) bytes
  have hupper := notMem_bytesText (c := 'X') (by decide) bytes
  generalize bytesText bytes = text at hlower hupper
  unfold behindMarker
  split
  · exact absurd (List.mem_cons_of_mem _ List.mem_cons_self) hlower
  · exact absurd (List.mem_cons_of_mem _ List.mem_cons_self) hupper
  · rfl

theorem strtoll_bytesText {bytes : List UInt8} (hlength : bytes.length ≤ 7) :
    strtoll (bytesText bytes) = ofBigEndian bytes := by
  have hlt := ofBigEndian_lt bytes
  have hpow : 256 ^ bytes.length ≤ 256 ^ 7 := Nat.pow_le_pow_right (by decide) hlength
  have hvalue : ofDigits 0 (bytesText bytes) = ofBigEndian bytes := by
    rw [ofDigits_bytesText, Nat.zero_mul, Nat.zero_add]
  unfold strtoll
  rw [dropWhile_bytesText, sign_bytesText]
  dsimp only
  rw [behindMarker_bytesText, hvalue, if_neg Bool.false_ne_true]
  omega

theorem cString_append (hzero : '\x00' ∉ text) (behind : List Char) :
    cString (text ++ '\x00' :: behind) = text := by
  have hall : ∀ c ∈ text, (c != '\x00') = true := by
    intro c hc
    rw [bne_iff_ne]
    rintro rfl
    exact hzero hc
  rw [cString, List.takeWhile_append_of_pos hall, List.takeWhile_cons_of_neg (by decide),
    List.append_nil]

end Text

variable {earlier : List Char} {saData : List UInt8}

theorem mapM_readAt_take {n : ℕ} (hn : n ≤ saData.length) :
    (List.range n).mapM (readAt saData) = .ok (saData.take n) := by
  rw [mapM_eq_ok_iff, List.forall₂_iff_get]
  refine ⟨by rw [List.length_range, List.length_take]; omega, ?_⟩
  intro i hi hi'
  rw [List.length_take] at hi'
  rw [List.get_eq_getElem, List.get_eq_getElem, List.getElem_range, List.getElem_take,
    readAt_eq_ok, List.getElem?_eq_getElem]

/-- The number of an address is the one that its six bytes stand for. -/
theorem getMacAddressEth0_eq (hearlier : earlier.length = 19) (hdata : saData.length = 14)
    {sock status : ℤ} (hsock : 0 ≤ sock) (hstatus : 0 ≤ status) (macDec : ℤ) :
    getMacAddressEth0 earlier sock status saData macDec =
      .ok (0, (ofBigEndian (saData.take 6) : ℕ)) := by
  have hsix : (saData.take 6).length = 6 := by
    rw [List.length_take]
    omega
  have hzero := notMem_bytesText (c := '\x00') (by decide) (saData.take 6)
  have htext := length_bytesText (saData.take 6)
  have hfits : 0 + (bytesText (saData.take 6) ++ ['\x00']).length ≤ earlier.length := by
    rw [List.length_append, htext, hsix, hearlier]
    decide
  rw [getMacAddressEth0, if_neg (by omega), if_neg (by omega), mapM_readAt_take (by omega),
    ok_bind, storeAt, if_pos hfits, ok_bind, List.take_zero, List.nil_append, List.append_assoc,
    List.singleton_append, cString_append hzero, strtoll_bytesText (by omega)]

/-- The interface that a record names. -/
def interface (senId : ℤ) : List UInt8 := bigEndian 6 senId.toNat

theorem interface_ofBigEndian (hdata : saData.length = 14) :
    interface (ofBigEndian (saData.take 6) : ℕ) = saData.take 6 := by
  have hsix : (saData.take 6).length = 6 := by
    rw [List.length_take]
    omega
  have hbytes := bigEndian_ofBigEndian (saData.take 6)
  rw [hsix] at hbytes
  rw [interface, Int.toNat_natCast, hbytes]

section Records

variable {cut : ℕ → List UInt8 → List UInt8} {single : ℚ → UInt32} {macEth0 : ℤ}
  {ctx : ElectrosenseContext}

/-- The number that is stored does not matter for the room that a record has. -/
theorem deployed_of_bounds (hdeployed : Deployed ctx macEth0) {z : ℤ} (hlow : 0 ≤ z)
    (hhigh : z < 2 ^ 48) : Deployed ctx z :=
  { hdeployed with mac_nonneg := hlow, mac_lt := hhigh }

theorem senId_psdSample {segment : SpectrumSegment ℚ} {r : Sample}
    (hsample : psdSample single macEth0 ctx segment = .ok r) : r.senId = macEth0 := by
  obtain ⟨values, _, hr⟩ := bind_eq_ok.mp hsample
  rw [← Except.ok.inj hr]

theorem senId_iqSample {segment : RawSegment} {r : IQSample}
    (hsample : iqSample single macEth0 ctx segment = .ok r) : r.senId = macEth0 := by
  obtain ⟨values, _, hr⟩ := bind_eq_ok.mp hsample
  rw [← Except.ok.inj hr]

/-- Samples in pairs, no more than a buffer of one gigabyte has room for. -/
structure Sized (segment : RawSegment) : Prop where
  even : segment.iqTimeV2.length % 2 = 0
  length_le : segment.iqTimeV2.length * 8 + 4096 ≤ 2 ^ 30

theorem exists_iqSample (single : ℚ → UInt32) (macEth0 : ℤ) (ctx : ElectrosenseContext)
    {segment : RawSegment} (hsegment : Sized segment) :
    ∃ r, iqSample single macEth0 ctx segment = .ok r := by
  unfold iqSample
  rw [measurements_of_even hsegment.even]
  exact ⟨_, rfl⟩

theorem iqBuffer_of_iqSample (hmac : -2 ^ 63 ≤ macEth0 ∧ macEth0 < 2 ^ 63)
    {segment : RawSegment} (hsegment : Sized segment) {r : IQSample}
    (hsample : iqSample single macEth0 ctx segment = .ok r) :
    iqBuffer cut single macEth0 ctx segment = .ok (payloadOf iqKind r) := by
  have hlength := hsegment.length_le
  rw [iqBuffer, hsample, ok_bind]
  exact iqKind.write_eq cut (iqSample_fits hmac (by omega) hsample)

theorem length_payload_iqSample (hmac : -2 ^ 63 ≤ macEth0 ∧ macEth0 < 2 ^ 63)
    {segment : RawSegment} (hsegment : Sized segment) {r : IQSample}
    (hsample : iqSample single macEth0 ctx segment = .ok r) :
    (payloadOf iqKind r).length ≤ 2 ^ 30 := by
  have hlength := hsegment.length_le
  have hfits := iqSample_fits hmac (by omega) hsample
  rw [iqBufSize_eq (by omega)] at hfits
  show (AvroBinary.encode r.toValue).length ≤ 2 ^ 30
  omega

/-- What the serialization of samples sends of any segments is collected, record for
record. -/
theorem collect_iqSamples (cut : ℕ → List UInt8 → List UInt8) (single : ℚ → UInt32)
    (ctx : ElectrosenseContext) (hmac : -2 ^ 63 ≤ macEth0 ∧ macEth0 < 2 ^ 63)
    {segments : List RawSegment} (hsegments : ∀ segment ∈ segments, Sized segment)
    (connection : ConnectionType) (fresh : ℕ → UInt8) :
    ∃ buffers records, segments.mapM (iqBuffer cut single macEth0 ctx) = .ok buffers ∧
      List.Forall₂ (fun segment r => iqSample single macEth0 ctx segment = .ok r)
        segments records ∧
      ∀ calls, List.Forall₂ (fun buffer calls => Succeeds connection
          (Setup.packetSize ⟨ctx, "IQ", connection, fresh⟩ buffer.length) calls) buffers calls →
        ∃ t, run ⟨ctx, "IQ", connection, fresh⟩ {} (buffers.zip calls) = .ok t ∧
          collect iqKind false t.sent = some records := by
  obtain ⟨records, hrun⟩ := exists_mapM_eq_ok.mpr
    (fun segment hsegment => exists_iqSample single macEth0 ctx (hsegments segment hsegment))
  have hsamples := mapM_eq_ok_iff.mp hrun
  refine ⟨records.map (payloadOf iqKind), records, ?_, hsamples, ?_⟩
  · rw [mapM_eq_ok_iff, List.forall₂_map_right_iff]
    have hboth := List.forall₂_iff_get.mp hsamples
    refine List.forall₂_iff_get.mpr ⟨hboth.1, ?_⟩
    intro i hi hi'
    exact iqBuffer_of_iqSample hmac (hsegments _ (List.getElem_mem hi)) (hboth.2 i hi hi')
  · intro calls hcalls
    rw [List.forall₂_map_left_iff] at hcalls
    have hwritten : Written iqKind ⟨ctx, "IQ", connection, fresh⟩ records calls := hcalls
    refine collect_run _ ?_ ?_ hwritten
    · intro r hr
      obtain ⟨segment, _, hsample⟩ := exists_of_mem_mapM hrun hr
      exact inRange_iqSample hmac hsample
    · intro r hr
      obtain ⟨segment, hsegment, hsample⟩ := exists_of_mem_mapM hrun hr
      exact length_payload_iqSample hmac (hsegments segment hsegment) hsample

/-- However the packets of the buffers are written, the collector gets a record of each,
and all of them name the interface. -/
def Named {R : Type} (kind : RecordKind R) (senId : R → ℤ) (cfg : Setup)
    (address : List UInt8) (buffers : List (List UInt8)) : Prop :=
  ∀ calls, List.Forall₂ (fun buffer calls =>
      Succeeds cfg.connection (cfg.packetSize buffer.length) calls) buffers calls →
    ∃ t records, run cfg {} (buffers.zip calls) = .ok t ∧
      collect kind (cfg.pipeline = "PSD") t.sent = some records ∧
      records.length = buffers.length ∧ ∀ r ∈ records, interface (senId r) = address

/-- Every record that a collector gets, of spectra or of samples, names the interface of
its sensor: the six bytes of the address can be read off its number. -/
theorem records_name_interface (hearlier : earlier.length = 19) (hdata : saData.length = 14)
    {sock status : ℤ} (hsock : 0 ≤ sock) (hstatus : 0 ≤ status) (macDec : ℤ)
    (cut : ℕ → List UInt8 → List UInt8) (single : ℚ → UInt32) (connection : ConnectionType)
    (fresh : ℕ → UInt8) :
    ∃ senId, getMacAddressEth0 earlier sock status saData macDec = .ok (0, senId) ∧
      0 ≤ senId ∧ senId < 2 ^ 48 ∧
      (∀ (ctx : ElectrosenseContext) (segments : List (SpectrumSegment ℚ)),
        (∃ z, Deployed ctx z) →
        (∀ segment ∈ segments, segment.psdValues.length = ctx.fftSize) →
        ∃ buffers, psdBuffers cut single senId ctx segments = .ok buffers ∧
          buffers.length = segments.length ∧
          Named psdKind Sample.senId ⟨ctx, "PSD", connection, fresh⟩ (saData.take 6) buffers) ∧
      ∀ (ctx : ElectrosenseContext) (segments : List RawSegment),
        (∀ segment ∈ segments, Sized segment) →
        ∃ buffers, segments.mapM (iqBuffer cut single senId ctx) = .ok buffers ∧
          buffers.length = segments.length ∧
          Named iqKind IQSample.senId ⟨ctx, "IQ", connection, fresh⟩ (saData.take 6) buffers := by
  have hlt := ofBigEndian_lt (saData.take 6)
  have hsix : (saData.take 6).length = 6 := by
    rw [List.length_take]
    omega
  rw [hsix] at hlt
  have hname := interface_ofBigEndian hdata
  refine ⟨_, getMacAddressEth0_eq hearlier hdata hsock hstatus macDec, by omega, by omega,
    ?_, ?_⟩
  · rintro ctx segments ⟨z, hz⟩ hpsd
    have hdeployed : Deployed ctx (ofBigEndian (saData.take 6) : ℕ) :=
      deployed_of_bounds hz (by omega) (by omega)
    obtain ⟨records, hsamples⟩ := exists_records single hdeployed hpsd
    refine ⟨_, psdBuffers_eq hdeployed hsamples, ?_, ?_⟩
    · rw [List.length_map, hsamples.length_eq]
    intro calls hcalls
    obtain ⟨t, hrun, hcollect⟩ := collect_samples hdeployed hsamples connection fresh hcalls
    refine ⟨t, records, hrun, hcollect, (List.length_map _).symm, ?_⟩
    intro r hr
    obtain ⟨segment, _, hsample⟩ := exists_of_mem_mapM (mapM_eq_ok_iff.mpr hsamples) hr
    rw [senId_psdSample hsample, hname]
  · intro ctx segments hsegments
    have hmac : -2 ^ 63 ≤ ((ofBigEndian (saData.take 6) : ℕ) : ℤ) ∧
        ((ofBigEndian (saData.take 6) : ℕ) : ℤ) < 2 ^ 63 := by omega
    obtain ⟨buffers, records, hbuffers, hsamples, hsend⟩ :=
      collect_iqSamples cut single ctx hmac hsegments connection fresh
    have hlength := (mapM_eq_ok_iff.mp hbuffers).length_eq
    refine ⟨buffers, hbuffers, hlength.symm, ?_⟩
    intro calls hcalls
    obtain ⟨t, hrun, hcollect⟩ := hsend calls hcalls
    refine ⟨t, records, hrun, hcollect, hsamples.length_eq.symm.trans hlength, ?_⟩
    intro r hr
    obtain ⟨segment, _, hsample⟩ := exists_of_mem_mapM (mapM_eq_ok_iff.mpr hsamples) hr
    rw [senId_iqSample hsample, hname]

/-- The bytes of an address with what is unused of the field. -/
def someAddress : List UInt8 := [0x0a, 0xb0, 0, 0xff, 9, 0x80, 0, 0, 0, 0, 0, 0, 0, 0]

/-- A spectrum of 128 bins without power. -/
def silence : SpectrumSegment ℚ where
  sensorId := -1000
  timeStamp := ⟨100, 5⟩
  centerFrequency := 433000000
  samplingRate := 2400000
  iqSamples := []
  psdValues := List.replicate 128 (-100)

/-- A spectrum and a pair of samples are collected, and name the interface. -/
theorem records_name_interface_one_pair :
    ∃ senId spectra samples p r, getMacAddressEth0 (List.replicate 19 'q') 3 0 someAddress 5 =
        .ok (0, senId) ∧
      collect psdKind true spectra = some [p] ∧
      interface p.senId = [0x0a, 0xb0, 0, 0xff, 9, 0x80] ∧
      collect iqKind false samples = some [r] ∧
      interface r.senId = [0x0a, 0xb0, 0, 0xff, 9, 0x80] := by
  have hsized : ∀ segment ∈ [RawSegment.mk (-1000) ⟨100, 5⟩ 1000 24 [0, 255] [1, -1]],
      Sized segment := by
    intro segment hsegment
    obtain rfl := List.mem_singleton.mp hsegment
    exact ⟨rfl, by decide⟩
  have hsilence : ∀ segment ∈ [silence], segment.psdValues.length = oneWindow.fftSize := by
    intro segment hsegment
    obtain rfl := List.mem_singleton.mp hsegment
    exact List.length_replicate
  obtain ⟨senId, hid, _, _, hpsd, hiq⟩ := records_name_interface
    (show (List.replicate 19 'q').length = 19 by rfl) (show someAddress.length = 14 by rfl)
    (show (0 : ℤ) ≤ 3 by decide) (le_refl (0 : ℤ)) 5 (fun _ bytes => bytes) (fun _ => 7) .TCP
    (fun _ => 0)
  obtain ⟨buffers, _, hlength, hnamed⟩ := hpsd oneWindow _ ⟨42, deployed_oneWindow⟩ hsilence
  obtain ⟨t, records, _, hcollect, hrecords, hall⟩ := hnamed _ (succeeds_all .TCP
    (fun buffer => Setup.packetSize ⟨oneWindow, "PSD", .TCP, fun _ => 0⟩ buffer.length) buffers)
  obtain ⟨p, rfl⟩ := List.length_eq_one_iff.mp (hrecords.trans hlength)
  obtain ⟨buffers', _, hlength', hnamed'⟩ := hiq {} _ hsized
  obtain ⟨t', records', _, hcollect', hrecords', hall'⟩ := hnamed' _ (succeeds_all .TCP
    (fun buffer => Setup.packetSize ⟨{}, "IQ", .TCP, fun _ => 0⟩ buffer.length) buffers')
  obtain ⟨r, rfl⟩ := List.length_eq_one_iff.mp (hrecords'.trans hlength')
  exact ⟨senId, t.sent, t'.sent, p, r, hid, hcollect, hall p List.mem_cons_self, hcollect',
    hall' r List.mem_cons_self⟩

end Records

end EsSensor.SensorId
