import EsSensor.Averaging
import EsSensor.RtlsdrDriver
import Mathlib.Algebra.BigOperators.Group.List.Basic
import Mathlib.Data.List.Forall2
import Mathlib.Data.List.Infix
import Mathlib.Data.Rat.Cast.OfScientific

/-!
The spectrum pipeline: the sampling loop, the removal of the offset, the window,
the transform and the averaging run as threads that are joined by queues. The
transform works on batches of its own length; the averages must nevertheless be
those of the hops.
-/
namespace EsSensor.PsdPipeline

open Batches FifoChain CollectingBlock LoopTrace Averaging RtlsdrDriver

/-- What the blocks take from libraries. `fft` is the transform with its shift:
size, signal and bin give a value. -/
structure Library (K : Type) where
  hamming : ℕ → ℕ → K
  sqrt : K → K
  log10 : K → K
  fft : ℕ → List (K × K) → ℕ → K × K

theorem getElem_of_isPrefix {α β : Type} {R : α → β → Prop} {xs : List α} {ys zs : List β}
    (hys : List.Forall₂ R xs ys) (hzs : zs <+: ys) (k : ℕ) (hk : k < zs.length) :
    ∃ hk' : k < xs.length, R xs[k] zs[k] := by
  have hlt : k < ys.length := Nat.lt_of_lt_of_le hk hzs.length_le
  have hlt' : k < xs.length := by rw [hys.length_eq]; exact hlt
  refine ⟨hlt', ?_⟩
  rw [hzs.getElem hk]
  exact hys.get hlt' hlt

section Transform

variable {K : Type} (lib : Library K) (ctx : ElectrosenseContext)

/-- `FFT::ComputeFFT` for one segment. -/
def computeFFT (segment : SpectrumSegment K) : SpectrumSegment K :=
  { segment with
    iqSamplesFreq := (List.range ctx.fftSize).map
      (lib.fft ctx.fftSize segment.iqSamples) }

/-- The loop body of `FFT::run`. -/
def fftStep (s : BlockState K) (segment : SpectrumSegment K) :
    BlockState K × List (SpectrumSegment K) :=
  let mFFTBatch := s.held ++ [segment]
  if mFFTBatch.length = ctx.fftBatchlen then
    ({ s with held := [] }, mFFTBatch.map (computeFFT lib ctx))
  else ({ s with held := mFFTBatch }, [])

def fft : Block (BlockState K) (SpectrumSegment K) where
  init := {}
  step := fftStep lib ctx

theorem fft_collects :
    Collects (fft lib ctx) ctx.fftBatchlen (fun held => { held := held }) (fun _ => True)
      (fun batch => batch.map (computeFFT lib ctx)) where
  init := rfl
  keep held segment hlt := by
    simp [fft, fftStep, Nat.ne_of_lt hlt]
  full held segment hfull _ := by
    simp [fft, fftStep, hfull]

/-- The block sends the transformed segments in order, the last ones later. -/
theorem outputs_fft_isPrefix (hbatch : 1 ≤ ctx.fftBatchlen)
    (segments : List (SpectrumSegment K)) :
    (fft lib ctx).outputs segments <+: segments.map (computeFFT lib ctx) := by
  have hrun := ((fft_collects lib ctx).run hbatch segments (fun _ _ => trivial)).2
  have hsplit := congrArg (List.map (computeFFT lib ctx)) (flatten_batches hbatch segments)
  rw [List.map_append, List.map_flatten] at hsplit
  rw [hrun, List.flatMap_def, ← hsplit]
  exact List.prefix_append _ _

end Transform

section Hops

variable {K : Type} [Field K]

/-- A hop is an iteration of the sampling loop that gets to the end of its cut. -/
def hops (run : List (Visit SyncState Answers (Option Capture))) : List Capture :=
  (run.filterMap Visit.output).filter (fun c => c.iqVectors.toBool)

/-- All that the sampling loop puts into its queue, in order. -/
def enqueuedBy (K : Type) [NatCast K] (run : List (Visit SyncState Answers (Option Capture))) :
    List (SpectrumSegment K) :=
  (run.filterMap Visit.output).flatMap (Capture.enqueued K)

theorem enqueuedBy_eq (run : List (Visit SyncState Answers (Option Capture))) :
    enqueuedBy K run = (hops run).flatMap (Capture.enqueued K) := by
  unfold enqueuedBy hops
  induction run.filterMap Visit.output with
  | nil => rfl
  | cons c rest ih =>
    cases hvectors : c.iqVectors with
    | error e =>
      have hempty : c.enqueued K = [] := by simp [Capture.enqueued, hvectors]
      simp [hempty, hvectors, Except.toBool, ih]
    | ok iqVectors => simp [hvectors, Except.toBool, ih]

/-- Each hop of a run gives as many segments as are averaged. -/
theorem length_enqueued_of_hop {converterEnabled : Bool} {s : SyncState}
    {answers : List Answers} {avgFactor : ℕ}
    (hfactor : ∀ a ∈ answers, a.context.avgFactor = avgFactor) :
    ∀ c ∈ hops (SyncSampling converterEnabled s answers),
      (c.enqueued K).length = avgFactor := by
  intro c hc
  obtain ⟨hmem, hcut⟩ := List.mem_filter.mp hc
  obtain ⟨v, hv, hvc⟩ := List.mem_filterMap.mp hmem
  obtain ⟨_, _, s', hiter⟩ := visits_inv (fun _ => True) (fun _ => True)
    (fun _ _ _ _ _ _ _ => trivial) trivial answers (fun _ _ => trivial) v hv
  rw [hvc] at hiter
  obtain ⟨t, _, _, ⟨_, _, hnone⟩ | ⟨invert, _, _, hcapture⟩⟩ := iterate_eq_ok hiter
  · cases hnone
  · obtain rfl := Option.some.inj hcapture
    rw [length_enqueued K hcut]
    exact hfactor _ (input_mem_of_mem_visits hv)

end Hops

section Pipeline

variable {K : Type} [Field K] (lib : Library K) (ctx : ElectrosenseContext)

/-- The loop body of `RemoveDC::run`. -/
def removeDC (segment : SpectrumSegment K) : SpectrumSegment K :=
  { segment with
    iqSamples := segment.iqSamples.map
      (fun iq => ((iq.1 - 127.4) / 128, (iq.2 - 127.4) / 128)) }

/-- The weights that `Windowing::run` prepares. -/
def windowFunction : List K :=
  (List.range ctx.fftSize).map (fun i => lib.hamming (i + 1) ctx.fftSize)

/-- The sum of the squared weights. -/
def windowNorm : K := (windowFunction lib ctx).foldl (fun W w => W + w ^ 2) 0

/-- The loop body of `Windowing::run`. A segment has as many samples as there
are weights. -/
def windowing (segment : SpectrumSegment K) : SpectrumSegment K :=
  { segment with
    iqSamples := segment.iqSamples.mapIdx (fun p iq =>
      (iq.1 * (windowFunction lib ctx).getD p 0 * lib.sqrt (ctx.fftSize / windowNorm lib ctx),
        iq.2 * (windowFunction lib ctx).getD p 0 *
          lib.sqrt (ctx.fftSize / windowNorm lib ctx))) }

/-- The spectrum that a segment of the driver is given on its way. -/
def processed (segment : SpectrumSegment K) : SpectrumSegment K :=
  computeFFT lib ctx (windowing lib ctx (removeDC segment))

/-- The samples that are transformed: without their offset and weighted by the window. -/
def windowedSamples (segment : SpectrumSegment K) : List (K × K) :=
  segment.iqSamples.mapIdx (fun p iq =>
    ((iq.1 - 127.4) / 128 * (windowFunction lib ctx).getD p 0 *
        lib.sqrt (ctx.fftSize / windowNorm lib ctx),
      (iq.2 - 127.4) / 128 * (windowFunction lib ctx).getD p 0 *
        lib.sqrt (ctx.fftSize / windowNorm lib ctx)))

/-- |X|² in bin i of a segment. -/
def binPower (segment : SpectrumSegment K) (i : ℕ) : K :=
  (lib.fft ctx.fftSize (windowedSamples lib ctx segment) i).1 ^ 2 +
    (lib.fft ctx.fftSize (windowedSamples lib ctx segment) i).2 ^ 2

/-- The mean over the segments of |X|² in bin i. -/
def meanPower (segments : List (SpectrumSegment K)) (i : ℕ) : K :=
  (segments.map (fun segment => binPower lib ctx segment i)).sum / segments.length

theorem iqSamples_windowing (segment : SpectrumSegment K) :
    (windowing lib ctx (removeDC segment)).iqSamples = windowedSamples lib ctx segment := by
  apply List.ext_getElem?
  intro p
  simp only [windowing, removeDC, windowedSamples, List.getElem?_mapIdx, List.getElem?_map,
    Option.map_map, Function.comp_def]

/-- The blocks fill every bin with the transform of the windowed samples. -/
theorem bin_processed (segment : SpectrumSegment K) {i : ℕ} (hi : i < ctx.fftSize) :
    bin (processed lib ctx segment) i =
      lib.fft ctx.fftSize (windowedSamples lib ctx segment) i := by
  rw [bin, processed, computeFFT, iqSamples_windowing, List.getD_eq_getElem?_getD,
    List.getElem?_map, List.getElem?_range hi]
  rfl

theorem power_map_processed (segments : List (SpectrumSegment K)) {i : ℕ}
    (hi : i < ctx.fftSize) :
    power (segments.map (processed lib ctx)) i / segments.length =
      meanPower lib ctx segments i := by
  have hfold : ∀ start : K, (segments.map (processed lib ctx)).foldl
      (fun power segment => power + (bin segment i).1 ^ 2 + (bin segment i).2 ^ 2) start =
      start + (segments.map (fun segment => binPower lib ctx segment i)).sum := by
    induction segments with
    | nil => simp
    | cons segment rest ih =>
      intro start
      rw [List.map_cons, List.foldl_cons, ih, List.map_cons, List.sum_cons,
        bin_processed lib ctx segment hi, binPower]
      simp only [add_assoc]
  rw [power, hfold, zero_add, meanPower]

theorem uniform_of_hop (c : Capture) :
    Uniform ((c.enqueued K).map (processed lib ctx)) := by
  have hfreq : ∀ a ∈ (c.enqueued K).map (processed lib ctx),
      a.centerFrequency = c.centerFreq := by
    intro a ha
    obtain ⟨segment, hsegment, rfl⟩ := List.mem_map.mp ha
    exact (mem_enqueued hsegment).1
  intro a ha b hb
  rw [hfreq a ha, hfreq b hb]

variable [LinearOrder K]

/-- The four blocks in the order of their queues. -/
def psdBlocks : List (Block (BlockState K) (SpectrumSegment K)) :=
  [Block.ofMap {} removeDC, Block.ofMap {} (windowing lib ctx), fft lib ctx,
    averaging lib.log10 ctx.fftSize ctx.avgFactor]

theorem through_fft_isPrefix (hbatch : 1 ≤ ctx.fftBatchlen)
    (source : List (SpectrumSegment K)) :
    through (psdBlocks lib ctx) source 3 <+: source.map (processed lib ctx) := by
  have hpre : through (psdBlocks lib ctx) source 2 =
      (source.map removeDC).map (windowing lib ctx) := by
    simp [through, psdBlocks, Block.outputs_ofMap]
  have hmap : source.map (processed lib ctx) =
      ((source.map removeDC).map (windowing lib ctx)).map (computeFFT lib ctx) := by
    rw [List.map_map, List.map_map]
    rfl
  rw [hmap, ← hpre]
  exact outputs_fft_isPrefix lib ctx hbatch _

/-- A segment that leaves the pipeline for a hop. -/
structure AveragedOf (c : Capture) (out : SpectrumSegment K) : Prop where
  segments : (c.enqueued K).length = ctx.avgFactor
  centerFrequency : out.centerFrequency = c.centerFreq
  timeStamp : out.timeStamp = c.currentTime
  psdValues : out.psdValues = (List.range ctx.fftSize).map
    (fun i => decibel lib.log10 (meanPower lib ctx (c.enqueued K) i))

theorem averaged_of_hop (hfactor : 1 ≤ ctx.avgFactor) {c : Capture}
    (hc : (c.enqueued K).length = ctx.avgFactor) :
    ∃ out, averaged lib.log10 ctx.fftSize ctx.avgFactor
        ((c.enqueued K).map (processed lib ctx)) = [out] ∧ AveragedOf lib ctx c out := by
  have hpsd : psdAvg lib.log10 ctx.fftSize ctx.avgFactor
      ((c.enqueued K).map (processed lib ctx)) = (List.range ctx.fftSize).map
        (fun i => decibel lib.log10 (meanPower lib ctx (c.enqueued K) i)) := by
    refine List.map_congr_left fun i hi => ?_
    rw [← power_map_processed lib ctx _ (List.mem_range.mp hi), hc]
  cases hsegments : c.enqueued K with
  | nil =>
    rw [hsegments] at hc
    exact absurd hc (by simp only [List.length_nil]; omega)
  | cons first rest =>
    have hfirst : first ∈ c.enqueued K := by simp [hsegments]
    obtain ⟨hfreq, htime, _⟩ := mem_enqueued hfirst
    rw [hsegments] at hpsd hc
    refine ⟨_, rfl, by rw [hsegments]; exact hc, hfreq, htime, ?_⟩
    rw [hsegments]
    exact hpsd

/-- The batches that reach the averaging block are whole hops, in their order. -/
theorem batches_isPrefix_hops (hfactor : 1 ≤ ctx.avgFactor) (hbatch : 1 ≤ ctx.fftBatchlen)
    {captures : List Capture}
    (hlength : ∀ c ∈ captures, (c.enqueued K).length = ctx.avgFactor)
    {taken : List (SpectrumSegment K)}
    (htaken : taken <+:
      through (psdBlocks lib ctx) (captures.flatMap (Capture.enqueued K)) 3) :
    batches ctx.avgFactor taken <+:
      captures.map (fun c => (c.enqueued K).map (processed lib ctx)) := by
  have hall := htaken.trans (through_fft_isPrefix lib ctx hbatch _)
  have hblocks : (captures.flatMap (Capture.enqueued K)).map (processed lib ctx) =
      (captures.map (fun c => (c.enqueued K).map (processed lib ctx))).flatten := by
    rw [List.map_flatMap, List.flatMap_def]
  rw [hblocks] at hall
  have hinitial := batches_isPrefix hfactor hall
  rw [batches_flatten hfactor] at hinitial
  · exact hinitial
  · intro block hblock
    obtain ⟨c, hc, rfl⟩ := List.mem_map.mp hblock
    rw [List.length_map, hlength c hc]

/-- What the averaging block makes of hops that it has taken completely. -/
theorem averaging_of_hops (hfactor : 1 ≤ ctx.avgFactor) (hbatch : 1 ≤ ctx.fftBatchlen)
    {captures : List Capture}
    (hlength : ∀ c ∈ captures, (c.enqueued K).length = ctx.avgFactor)
    {taken : List (SpectrumSegment K)}
    (htaken : taken <+:
      through (psdBlocks lib ctx) (captures.flatMap (Capture.enqueued K)) 3) :
    ((averaging lib.log10 ctx.fftSize ctx.avgFactor).stateAfter taken).warnings = 0 ∧
      (averaging lib.log10 ctx.fftSize ctx.avgFactor).outputs taken <+:
        captures.flatMap (fun c => averaged lib.log10 ctx.fftSize ctx.avgFactor
          ((c.enqueued K).map (processed lib ctx))) := by
  have hinitial := batches_isPrefix_hops lib ctx hfactor hbatch hlength htaken
  obtain ⟨hstate, houtputs⟩ := (averaging_collects lib.log10 ctx.fftSize).run hfactor taken
    (by
      intro batch hmem
      obtain ⟨c, _, rfl⟩ := List.mem_map.mp (hinitial.subset hmem)
      exact uniform_of_hop lib ctx c)
  refine ⟨by rw [hstate], ?_⟩
  rw [houtputs]
  have hflat := hinitial.flatMap (averaged lib.log10 ctx.fftSize ctx.avgFactor)
  rw [List.flatMap_map] at hflat
  exact hflat

/-- A hop gives one averaged segment, so the averages are numbered like the hops. -/
theorem averages_forall₂ (hfactor : 1 ≤ ctx.avgFactor) (captures : List Capture)
    (hlength : ∀ c ∈ captures, (c.enqueued K).length = ctx.avgFactor) :
    List.Forall₂ (AveragedOf lib ctx) captures
      (captures.flatMap (fun c => averaged lib.log10 ctx.fftSize ctx.avgFactor
        ((c.enqueued K).map (processed lib ctx)))) := by
  induction captures with
  | nil => exact .nil
  | cons c rest ih =>
    obtain ⟨out, haveraged, hout⟩ :=
      averaged_of_hop lib ctx hfactor (hlength c List.mem_cons_self)
    rw [List.flatMap_cons, haveraged]
    exact .cons hout (ih (fun c hc => hlength c (List.mem_cons_of_mem _ hc)))

/-- However the threads interleave, what has left the pipeline are the averages
of the first hops, and no mixed batch has been met. -/
theorem averages_follow_hops (hfactor : 1 ≤ ctx.avgFactor) (hbatch : 1 ≤ ctx.fftBatchlen)
    (converterEnabled : Bool) (s : SyncState) (answers : List Answers)
    (hanswers : ∀ a ∈ answers, a.context.avgFactor = ctx.avgFactor)
    (net : Network (BlockState K) (SpectrumSegment K))
    (hnet : Reachable (psdBlocks lib ctx)
      (enqueuedBy K (SyncSampling converterEnabled s answers)) {} net) :
    (net.held 3).warnings = 0 ∧
      ∀ k, (hk : k < (net.queue 4).length) →
        ∃ hk' : k < (hops (SyncSampling converterEnabled s answers)).length,
          AveragedOf lib ctx (hops (SyncSampling converterEnabled s answers))[k]
            (net.queue 4)[k] := by
  have hlength : ∀ c ∈ hops (SyncSampling converterEnabled s answers),
      (c.enqueued K).length = ctx.avgFactor := length_enqueued_of_hop hanswers
  rw [enqueuedBy_eq] at hnet
  obtain ⟨taken, htaken, hheld⟩ := held_of_reachable (i := 3) hnet rfl
  have hsink : net.queue 4 <+: _ := (sink_of_reachable hnet).trans
    (averaging_of_hops lib ctx hfactor hbatch hlength (List.prefix_refl _)).2
  refine ⟨?_, getElem_of_isPrefix (averages_forall₂ lib ctx hfactor _ hlength) hsink⟩
  rw [hheld]
  exact (averaging_of_hops lib ctx hfactor hbatch hlength htaken).1

end Pipeline

/-- Two windows of one sample for each hop, transformed one at a time. -/
def twoWindows : ElectrosenseContext where
  log2FftSize := 0
  avgFactor := 2
  soverlap := 0
  fftBatchlen := 1

/-- A rectangular window; a transform of size one is the identity. -/
def sizeOne : Library ℚ where
  hamming := fun _ _ => 1
  sqrt := id
  log10 := fun _ => 0
  fft := fun _ signal i => signal.getD i (0, 0)

/-- One segment on its way through all queues. -/
def passage : List Action :=
  [.produce, .take 0, .send 0, .take 1, .send 1, .take 2, .send 2, .take 3, .send 3]

/-- One hop, with every call successful. -/
def singleHop : List (Visit SyncState Answers (Option Capture)) :=
  SyncSampling false (SyncState.start (.ofFreqs [100000000] (List.cons_ne_nil _ _)) opened)
    [Answers.success twoWindows 512]

theorem averages_follow_hops_two_windows :
    ∃ net c out, Reachable (psdBlocks sizeOne twoWindows) (enqueuedBy ℚ singleHop) {} net ∧
      (net.held 3).warnings = 0 ∧ (hops singleHop)[0]? = some c ∧
      (net.queue 4)[0]? = some out ∧ AveragedOf sizeOne twoWindows c out := by
  have hnet := reachable_acts (psdBlocks sizeOne twoWindows) (enqueuedBy ℚ singleHop) {}
    (passage ++ passage)
  obtain ⟨hwarnings, hall⟩ := averages_follow_hops sizeOne twoWindows (by decide) (by decide)
    false _ _ (fun a ha => congrArg (fun a : Answers => a.context.avgFactor)
      (List.mem_singleton.mp ha)) _ hnet
  obtain ⟨hlt, hout⟩ := hall 0 (by decide +kernel)
  exact ⟨_, _, _, hnet, hwarnings, List.getElem?_eq_getElem hlt,
    List.getElem?_eq_getElem (by decide +kernel), hout⟩

end EsSensor.PsdPipeline
