import EsSensor.Collector

/-!
From the hops of the sampling loop to the records of the collector. The averages leave
the pipeline in the order of the hops, each is serialized and sent on its own, and so the
collector reads the records of the first hops, whatever the interleaving.
-/
namespace EsSensor.HopRecords

open AvroBinary AvroRecords AvroSerialization CheckedLoop Collector FifoChain MachineWord
  LoopTrace PsdPipeline RtlsdrDriver SpectralWindow Transmission

/-- The loop of `AvroSerialization::PSD` over the segments that it dequeues. -/
def psdBuffers (cut : ℕ → List UInt8 → List UInt8) (single : ℚ → UInt32) (macEth0 : ℤ)
    (ctx : ElectrosenseContext) (segments : List (SpectrumSegment ℚ)) :
    Except Fault (List (List UInt8)) :=
  segments.mapM (fun segment => do
    let r ← psdSample single macEth0 ctx segment
    psdKind.write cut (bufSize ctx) r)

/-- What the collector learns about a hop. -/
structure RecordOf (lib : Library ℚ) (ctx : ElectrosenseContext) (single : ℚ → UInt32)
    (macEth0 : ℤ) (c : Capture) (r : Sample) : Prop where
  segments : (c.enqueued ℚ).length = ctx.avgFactor
  senId : r.senId = macEth0
  fftSize : r.fftSize = ctx.fftSize
  averagingFactor : r.averagingFactor = int32 ctx.avgFactor
  timeSecs : r.timeSecs = int64 c.currentTime.sec
  centerFreq : r.centerFreq = int64 c.centerFreq
  bins : r.squaredMag.length = ctx.getReducedFFTSize
  squaredMag : ∀ i < ctx.getReducedFFTSize, windowIndex ctx i < ctx.fftSize ∧
    r.squaredMag[i]? = some (single (Averaging.decibel lib.log10
      (meanPower lib ctx (c.enqueued ℚ) (windowIndex ctx i))))

/-- A configuration under which every record has room, and the sensor's number. -/
structure Deployed (ctx : ElectrosenseContext) (macEth0 : ℤ) : Prop where
  documented : Documented ctx
  size_le : ctx.log2FftSize ≤ 17
  reduced : ctx.getReducedFFTSize + 10 ≤ ctx.fftSize
  factor : 1 ≤ ctx.avgFactor
  batch : 1 ≤ ctx.fftBatchlen
  mac_nonneg : 0 ≤ macEth0
  mac_lt : macEth0 < 2 ^ 48

variable {lib : Library ℚ} {ctx : ElectrosenseContext} {single : ℚ → UInt32} {macEth0 : ℤ}
  {cut : ℕ → List UInt8 → List UInt8}

theorem recordOf_of_averaged (hdeployed : Deployed ctx macEth0) {c : Capture}
    {segment : SpectrumSegment ℚ} {r : Sample} (haveraged : AveragedOf lib ctx c segment)
    (hsample : psdSample single macEth0 ctx segment = .ok r) :
    RecordOf lib ctx single macEth0 c r := by
  have hreduced := hdeployed.reduced
  have hsize := fftSize_le hdeployed.size_le
  have hword : int32 ctx.fftSize = ctx.fftSize := int32_of_lt (by omega)
  have hinside := (inside_iff_le hdeployed.documented).mpr (by omega)
  have hbins := length_squaredMag hsample
  obtain ⟨values, hvalues, hr⟩ := bind_eq_ok.mp hsample
  have hread := mapM_eq_ok_iff.mp hvalues
  obtain rfl := Except.ok.inj hr
  constructor
  case segments => exact haveraged.segments
  case senId => rfl
  case fftSize =>
    dsimp only
    exact hword
  case averagingFactor => dsimp only
  case timeSecs => rw [haveraged.timeStamp]
  case centerFreq => rw [haveraged.centerFrequency]
  case bins => exact hbins
  case squaredMag =>
    intro i hi
    refine ⟨hinside i hi, ?_⟩
    have hlength : i < values.length := by
      rw [← hread.length_eq, List.length_range]
      exact hi
    have hcell := hread.get (by rwa [List.length_range]) hlength
    rw [List.get_eq_getElem, List.getElem_range, readAt_eq_ok, haveraged.psdValues,
      List.getElem?_map, List.getElem?_range (hinside i hi)] at hcell
    have hvalue : Averaging.decibel lib.log10
        (meanPower lib ctx (c.enqueued ℚ) (windowIndex ctx i)) = values[i] :=
      Option.some.inj hcell
    dsimp only
    rw [List.getElem?_map, List.getElem?_eq_getElem hlength, Option.map_some, hvalue]

theorem psdBuffers_eq (hdeployed : Deployed ctx macEth0) {segments : List (SpectrumSegment ℚ)}
    {records : List Sample}
    (hsamples : List.Forall₂ (fun segment r => psdSample single macEth0 ctx segment = .ok r)
      segments records) :
    psdBuffers cut single macEth0 ctx segments = .ok (records.map (payloadOf psdKind)) := by
  rw [psdBuffers, mapM_eq_ok_iff, List.forall₂_map_right_iff]
  refine hsamples.imp ?_
  intro segment r hsample
  have hfits := fits_of_ten_bins hdeployed.mac_nonneg hdeployed.mac_lt hdeployed.size_le
    hdeployed.reduced hsample
  rw [hsample, ok_bind]
  exact psdKind.write_eq cut hfits

theorem exists_records (single : ℚ → UInt32) (hdeployed : Deployed ctx macEth0)
    {segments : List (SpectrumSegment ℚ)}
    (hpsd : ∀ segment ∈ segments, segment.psdValues.length = ctx.fftSize) :
    ∃ records, List.Forall₂ (fun segment r => psdSample single macEth0 ctx segment = .ok r)
      segments records := by
  have hreduced := hdeployed.reduced
  have hall : ∀ segment ∈ segments, ∃ r, psdSample single macEth0 ctx segment = .ok r := by
    intro segment hsegment
    exact exists_psdSample single macEth0 segment hdeployed.documented (by omega)
      (hpsd segment hsegment)
  obtain ⟨records, hrun⟩ := exists_mapM_eq_ok.mpr hall
  exact ⟨records, mapM_eq_ok_iff.mp hrun⟩

/-- A record is no longer than its buffer, which is no longer than the largest spectrum. -/
theorem length_payload_le (hdeployed : Deployed ctx macEth0) {segment : SpectrumSegment ℚ}
    {r : Sample} (hsample : psdSample single macEth0 ctx segment = .ok r) :
    (payloadOf psdKind r).length ≤ 2 ^ 30 := by
  have hfits := fits_of_ten_bins hdeployed.mac_nonneg hdeployed.mac_lt hdeployed.size_le
    hdeployed.reduced hsample
  have hsize := fftSize_le hdeployed.size_le
  rw [bufSize_eq hdeployed.size_le] at hfits
  show (encode r.toValue).length ≤ 2 ^ 30
  omega

/-- The records of any segments are what is collected of their buffers. -/
theorem collect_samples (hdeployed : Deployed ctx macEth0) {segments : List (SpectrumSegment ℚ)}
    {records : List Sample}
    (hsamples : List.Forall₂ (fun segment r => psdSample single macEth0 ctx segment = .ok r)
      segments records) (connection : ConnectionType) (fresh : ℕ → UInt8) {calls : List (List ℤ)}
    (hcalls : List.Forall₂ (fun buffer calls => Succeeds connection
      (Setup.packetSize ⟨ctx, "PSD", connection, fresh⟩ buffer.length) calls)
      (records.map (payloadOf psdKind)) calls) :
    ∃ t, run ⟨ctx, "PSD", connection, fresh⟩ {}
        ((records.map (payloadOf psdKind)).zip calls) = .ok t ∧
      collect psdKind true t.sent = some records := by
  have hmac : -2 ^ 63 ≤ macEth0 ∧ macEth0 < 2 ^ 63 := by
    have hlow := hdeployed.mac_nonneg
    have hhigh := hdeployed.mac_lt
    omega
  have hrun := mapM_eq_ok_iff.mpr hsamples
  have hrange : ∀ r ∈ records, psdKind.InRange r := by
    intro r hr
    obtain ⟨segment, _, hsample⟩ := exists_of_mem_mapM hrun hr
    exact inRange_psdSample hmac hsample
  have hsize : ∀ r ∈ records, (payloadOf psdKind r).length ≤ 2 ^ 30 := by
    intro r hr
    obtain ⟨segment, _, hsample⟩ := exists_of_mem_mapM hrun hr
    exact length_payload_le hdeployed hsample
  rw [List.forall₂_map_left_iff] at hcalls
  have hwritten : Written psdKind ⟨ctx, "PSD", connection, fresh⟩ records calls := hcalls
  exact collect_run _ hrange hsize hwritten

/-- What has left the pipeline, against the hops in their order. -/
theorem sink_follows_hops (lib : Library ℚ) (hfactor : 1 ≤ ctx.avgFactor)
    (hbatch : 1 ≤ ctx.fftBatchlen) (converterEnabled : Bool) (s : SyncState)
    (answers : List Answers)
    (hanswers : ∀ a ∈ answers, a.context.avgFactor = ctx.avgFactor)
    {net : Network (Averaging.BlockState ℚ) (SpectrumSegment ℚ)}
    (hnet : Reachable (psdBlocks lib ctx)
      (enqueuedBy ℚ (SyncSampling converterEnabled s answers)) {} net) :
    ∃ averages, List.Forall₂ (AveragedOf lib ctx)
        (hops (SyncSampling converterEnabled s answers)) averages ∧
      net.queue 4 <+: averages := by
  have hlength : ∀ c ∈ hops (SyncSampling converterEnabled s answers),
      (c.enqueued ℚ).length = ctx.avgFactor := length_enqueued_of_hop hanswers
  rw [enqueuedBy_eq] at hnet
  refine ⟨_, averages_forall₂ lib ctx hfactor _ hlength, ?_⟩
  exact (sink_of_reachable hnet).trans
    (averaging_of_hops lib ctx hfactor hbatch hlength (List.prefix_refl _)).2

/-- However the threads interleave and however far the serialization has come: of what
it has taken the collector gets one record for each hop, in the order of the hops. The
powers are exact until they are written. -/
theorem records_follow_hops (lib : Library ℚ) (single : ℚ → UInt32)
    (cut : ℕ → List UInt8 → List UInt8) (hdeployed : Deployed ctx macEth0)
    (converterEnabled : Bool) (s : SyncState) (answers : List Answers)
    (hanswers : ∀ a ∈ answers, a.context.avgFactor = ctx.avgFactor)
    (net : Network (Averaging.BlockState ℚ) (SpectrumSegment ℚ))
    (hnet : Reachable (psdBlocks lib ctx)
      (enqueuedBy ℚ (SyncSampling converterEnabled s answers)) {} net)
    (taken : List (SpectrumSegment ℚ)) (htaken : taken <+: net.queue 4)
    (connection : ConnectionType) (fresh : ℕ → UInt8) :
    ∃ buffers, psdBuffers cut single macEth0 ctx taken = .ok buffers ∧
      ∀ calls, List.Forall₂ (fun buffer calls => Succeeds connection
          (Setup.packetSize ⟨ctx, "PSD", connection, fresh⟩ buffer.length) calls) buffers calls →
        ∃ t records, run ⟨ctx, "PSD", connection, fresh⟩ {} (buffers.zip calls) = .ok t ∧
          collect psdKind true t.sent = some records ∧ records.length = taken.length ∧
          ∀ k, (hk : k < records.length) →
            ∃ hk' : k < (hops (SyncSampling converterEnabled s answers)).length,
              RecordOf lib ctx single macEth0
                (hops (SyncSampling converterEnabled s answers))[k] records[k] := by
  obtain ⟨averages, haverages, hsink⟩ :=
    sink_follows_hops lib hdeployed.factor hdeployed.batch converterEnabled s answers hanswers
      hnet
  have hinitial := htaken.trans hsink
  have hpsd : ∀ segment ∈ taken, segment.psdValues.length = ctx.fftSize := by
    intro segment hsegment
    obtain ⟨k, hk, rfl⟩ := List.getElem_of_mem hsegment
    obtain ⟨_, haveraged⟩ := getElem_of_isPrefix haverages hinitial k hk
    rw [haveraged.psdValues, List.length_map, List.length_range]
  obtain ⟨records, hsamples⟩ := exists_records single hdeployed hpsd
  refine ⟨_, psdBuffers_eq hdeployed hsamples, ?_⟩
  intro calls hcalls
  obtain ⟨t, hrun, hcollect⟩ := collect_samples hdeployed hsamples connection fresh hcalls
  refine ⟨t, records, hrun, hcollect, hsamples.length_eq.symm, ?_⟩
  intro k hk
  have hk' : k < taken.length := by rwa [hsamples.length_eq]
  obtain ⟨hlt, haveraged⟩ := getElem_of_isPrefix haverages hinitial k hk'
  exact ⟨hlt, recordOf_of_averaged hdeployed haveraged (hsamples.get hk' hk)⟩

/-- Spectra of 128 bins, one window for each hop, transformed one at a time. -/
def oneWindow : ElectrosenseContext where
  log2FftSize := 7
  avgFactor := 1
  soverlap := 0
  fftBatchlen := 1

theorem deployed_oneWindow : Deployed oneWindow 42 where
  documented := ⟨by decide, by decide, by norm_num [oneWindow], by norm_num [oneWindow]⟩
  size_le := by decide
  reduced := by decide +kernel
  factor := by decide
  batch := by decide
  mac_nonneg := by decide
  mac_lt := by decide

/-- One hop, with every call successful. -/
def oneHop : List (Visit SyncState Answers (Option Capture)) :=
  SyncSampling false (SyncState.start (.ofFreqs [433000000] (List.cons_ne_nil _ _)) opened)
    [Answers.success oneWindow 512]

/-- The hop has gone through all queues. -/
def passed : Network (Averaging.BlockState ℚ) (SpectrumSegment ℚ) :=
  passage.foldl (act (psdBlocks sizeOne oneWindow))
    (Network.start (psdBlocks sizeOne oneWindow) (enqueuedBy ℚ oneHop) {})

theorem records_follow_hops_one_window :
    ∃ c r stream, (hops oneHop)[0]? = some c ∧ collect psdKind true stream = some [r] ∧
      RecordOf sizeOne oneWindow (fun _ => 7) 42 c r := by
  have hnet := reachable_acts (psdBlocks sizeOne oneWindow) (enqueuedBy ℚ oneHop) {} passage
  have hlength : (passed.queue 4).length = 1 := by decide +kernel
  obtain ⟨buffers, _, hall⟩ := records_follow_hops sizeOne (fun _ => 7) (fun _ bytes => bytes)
    deployed_oneWindow false _ _ (fun a ha => congrArg (fun a : Answers => a.context.avgFactor)
      (List.mem_singleton.mp ha)) passed hnet (passed.queue 4) (List.prefix_refl _) .TCP
    (fun _ => 0)
  have hcalls := succeeds_all .TCP
    (fun buffer => Setup.packetSize ⟨oneWindow, "PSD", .TCP, fun _ => 0⟩ buffer.length) buffers
  obtain ⟨t, records, _, hcollect, hrecords, hhops⟩ := hall _ hcalls
  obtain ⟨r, rfl⟩ := List.length_eq_one_iff.mp (hrecords.trans hlength)
  obtain ⟨hlt, hrecord⟩ := hhops 0 Nat.one_pos
  exact ⟨_, r, t.sent, List.getElem?_eq_getElem hlt, hcollect, hrecord⟩

end EsSensor.HopRecords
