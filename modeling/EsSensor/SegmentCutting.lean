import EsSensor.Library.OverlappingWindows
import EsSensor.SpectrumInversion

/-!
How the segments of a hop are cut from the buffer of one read. The length that
is read and the indices that are used are computed apart from each other, in
32-bit words; where neither wraps the segments are overlapping windows of the
samples.
-/
namespace EsSensor.SegmentCutting

open CheckedLoop LoopTrace MachineWord OverlappingWindows RtlsdrDriver SpectrumInversion

section Words

variable (ctx : ElectrosenseContext)

/-- The bytes that the segments of one read cover. -/
def bytesCovered : ℕ := 2 * ((ctx.fftSize - ctx.soverlap) * ctx.avgFactor + ctx.soverlap)

/-- `j + i * (fft_size - overlap) * 2`, in words. -/
def wordIndex (i j : ℕ) : ℕ := u32 (j + u32 (i * u32Sub ctx.fftSize ctx.soverlap * 2))

/-- The bytes that the segments are made of are among the first n of the buffer. -/
def CutInside (n : ℕ) : Prop :=
  ∀ i < ctx.avgFactor, ∀ k < u32 (ctx.fftSize * 2) / 2,
    wordIndex ctx i (2 * k) < n ∧ wordIndex ctx i (2 * k + 1) < n

/-- Every byte that the segments are made of is one of those that are read. -/
def ReadsInside : Prop := CutInside ctx (readLength ctx)

/-- The next multiple of the size of a bulk transfer. -/
def roundUp (n : ℕ) : ℕ :=
  if n % bulkTransferMultiple ≠ 0 then n + (bulkTransferMultiple - n % bulkTransferMultiple)
  else n

theorem roundUp_spec (n : ℕ) : 512 ∣ roundUp n ∧ n ≤ roundUp n ∧ roundUp n < n + 512 := by
  unfold roundUp bulkTransferMultiple
  split <;> omega

variable {ctx}

theorem fftSize_lt : ctx.fftSize < 2 ^ 32 := Nat.mod_lt _ (by decide)

/-- What is read is the covered length, as a word, and rounded up. -/
theorem readLength_eq (hs : ctx.soverlap < ctx.fftSize) :
    readLength ctx = roundUp (u32 (bytesCovered ctx)) := by
  have hsub : u32Sub ctx.fftSize ctx.soverlap = ctx.fftSize - ctx.soverlap :=
    u32Sub_of_le hs.le fftSize_lt
  rw [readLength, hsub, Nat.mul_comm _ 2]
  rfl

/-- An index without the wraps on its way. -/
theorem wordIndex_eq (hs : ctx.soverlap < ctx.fftSize) (i j : ℕ) :
    wordIndex ctx i j = u32 (j + i * (2 * (ctx.fftSize - ctx.soverlap))) := by
  have hsub : u32Sub ctx.fftSize ctx.soverlap = ctx.fftSize - ctx.soverlap :=
    u32Sub_of_le hs.le fftSize_lt
  rw [wordIndex, hsub, Nat.mul_assoc, Nat.mul_comm _ 2]
  exact Nat.add_mod_mod j _ (2 ^ 32)

theorem bytesCovered_eq (hs : ctx.soverlap < ctx.fftSize) (ha : 1 ≤ ctx.avgFactor) :
    bytesCovered ctx = covered (2 * (ctx.fftSize - ctx.soverlap)) (2 * ctx.fftSize)
      ctx.avgFactor := by
  rw [covered_eq ha (by omega), bytesCovered, Nat.mul_add]
  congr 1
  · ring
  · omega

theorem lt_covered {i j : ℕ} (hs : ctx.soverlap < ctx.fftSize) (hi : i < ctx.avgFactor)
    (hj : j < 2 * ctx.fftSize) : j + i * (2 * (ctx.fftSize - ctx.soverlap)) < bytesCovered ctx := by
  rw [bytesCovered_eq hs (by omega), Nat.add_comm]
  exact window_end_le hi j hj

/-- Every byte that is covered lies in some segment. -/
theorem exists_index {n : ℕ} (hs : ctx.soverlap < ctx.fftSize) (ha : 1 ≤ ctx.avgFactor)
    (hn : n < bytesCovered ctx) :
    ∃ i < ctx.avgFactor, ∃ j < 2 * ctx.fftSize,
      j + i * (2 * (ctx.fftSize - ctx.soverlap)) = n := by
  rw [bytesCovered_eq hs ha, covered] at hn
  set stride := 2 * (ctx.fftSize - ctx.soverlap)
  have hsplit := Nat.div_add_mod' n stride
  have hlt := Nat.mod_lt n (show 0 < stride by omega)
  by_cases hlast : n / stride < ctx.avgFactor
  · exact ⟨n / stride, hlast, n % stride, by omega, by omega⟩
  · have hmul := Nat.mul_le_mul_right stride (show ctx.avgFactor - 1 ≤ n / stride by omega)
    exact ⟨ctx.avgFactor - 1, by omega, n - (ctx.avgFactor - 1) * stride, by omega, by omega⟩

/-- The pairs of a segment, in words. -/
theorem pairs_eq (hsize : 2 * ctx.fftSize < 2 ^ 32) :
    u32 (ctx.fftSize * 2) / 2 = ctx.fftSize := by
  rw [u32_of_lt (by omega)]
  omega

/-- The reads in terms of single bytes. -/
theorem readsInside_iff (hs : ctx.soverlap < ctx.fftSize) (hsize : 2 * ctx.fftSize < 2 ^ 32) :
    ReadsInside ctx ↔ ∀ i < ctx.avgFactor, ∀ j < 2 * ctx.fftSize,
      u32 (j + i * (2 * (ctx.fftSize - ctx.soverlap))) < readLength ctx := by
  unfold ReadsInside CutInside
  rw [pairs_eq hsize]
  simp only [wordIndex_eq hs]
  constructor
  · intro h i hi j hj
    obtain ⟨heven, hodd⟩ := h i hi (j / 2) (by omega)
    rcases Nat.mod_two_eq_zero_or_one j with hzero | hone
    · rwa [show 2 * (j / 2) = j by omega] at heven
    · rwa [show 2 * (j / 2) + 1 = j by omega] at hodd
  · intro h i hi k hk
    exact ⟨h i hi (2 * k) (by omega), h i hi (2 * k + 1) (by omega)⟩

/-- The reads stay inside the buffer exactly when the covered length fits a word,
or when its wrap is rounded up to the size of the whole range. -/
theorem readsInside_iff_covered (hs : ctx.soverlap < ctx.fftSize) (ha : 1 ≤ ctx.avgFactor)
    (hsize : 2 * ctx.fftSize < 2 ^ 32) :
    ReadsInside ctx ↔
      bytesCovered ctx < 2 ^ 32 ∨ 2 ^ 32 - 512 < bytesCovered ctx % 2 ^ 32 := by
  rw [readsInside_iff hs hsize, readLength_eq hs]
  obtain ⟨hdvd, hle, hlt⟩ := roundUp_spec (u32 (bytesCovered ctx))
  have hword : u32 (bytesCovered ctx) < 2 ^ 32 := Nat.mod_lt _ (by decide)
  constructor
  · intro hinside
    by_contra hnot
    obtain ⟨hwraps, hlow⟩ := not_or.mp hnot
    -- the last byte of the range is covered, and the length stays below it
    obtain ⟨i, hi, j, hj, hindex⟩ := exists_index hs ha (show 2 ^ 32 - 1 < bytesCovered ctx by omega)
    have hlast := hinside i hi j hj
    rw [hindex, u32_of_lt (by decide)] at hlast
    have hsmall : u32 (bytesCovered ctx) ≤ 2 ^ 32 - 512 := Nat.le_of_not_lt hlow
    omega
  · intro hfits i hi j hj
    have hindex := lt_covered hs hi hj
    rcases hfits with hfits | hround
    · rw [u32_of_lt hfits] at hle ⊢
      rw [u32_of_lt (hindex.trans hfits)]
      omega
    · have hfull : 2 ^ 32 - 512 < u32 (bytesCovered ctx) := hround
      have hidx : u32 (j + i * (2 * (ctx.fftSize - ctx.soverlap))) < 2 ^ 32 :=
        Nat.mod_lt _ (by decide)
      omega

end Words

section Cut

variable {ctx : ElectrosenseContext} {buf : List UInt8}

theorem exists_cutSegments_iff :
    (∃ segments, cutSegments ctx buf = .ok segments) ↔ CutInside ctx buf.length := by
  have hpair : ∀ i k, (∃ iq, (do
      let re ← readAt buf (wordIndex ctx i (2 * k))
      let im ← readAt buf (wordIndex ctx i (2 * k + 1))
      .ok (re, im) : Except Fault (UInt8 × UInt8)) = .ok iq) ↔
        wordIndex ctx i (2 * k) < buf.length ∧ wordIndex ctx i (2 * k + 1) < buf.length := by
    intro i k
    rw [← exists_readAt_eq_ok, ← exists_readAt_eq_ok]
    constructor
    · intro ⟨iq, hiq⟩
      obtain ⟨re, hre, hrest⟩ := bind_eq_ok.mp hiq
      obtain ⟨im, him, _⟩ := bind_eq_ok.mp hrest
      exact ⟨⟨re, hre⟩, ⟨im, him⟩⟩
    · intro ⟨⟨re, hre⟩, ⟨im, him⟩⟩
      exact ⟨(re, im), by rw [hre, ok_bind, him, ok_bind]⟩
  rw [cutSegments, exists_mapM_eq_ok, CutInside]
  simp only [List.mem_range]
  refine forall₂_congr fun i _ => ?_
  rw [cutSegment, exists_mapM_eq_ok]
  simp only [List.mem_range]
  exact forall₂_congr fun k _ => hpair i k

end Cut

/-- With every size up to 2 ^ 30, the loop over the segments stays inside what was
read exactly when the covered length does not wrap, or wraps into its last 512
bytes. -/
theorem segment_reads_inside_iff (ctx : ElectrosenseContext) (hlog : ctx.log2FftSize ≤ 30)
    (hs : ctx.soverlap < ctx.fftSize) (ha : 1 ≤ ctx.avgFactor) :
    (ReadsInside ctx ↔
      bytesCovered ctx < 2 ^ 32 ∨ 2 ^ 32 - 512 < bytesCovered ctx % 2 ^ 32) ∧
    ∀ buf : List UInt8, buf.length = readLength ctx →
      ((∃ segments, cutSegments ctx buf = .ok segments) ↔ ReadsInside ctx) := by
  have hpow : 2 ^ ctx.log2FftSize ≤ 2 ^ 30 := Nat.pow_le_pow_right (by decide) hlog
  have hle : ctx.fftSize ≤ 2 ^ ctx.log2FftSize := Nat.mod_le _ _
  refine ⟨readsInside_iff_covered hs ha (by omega), fun buf hbuf => ?_⟩
  rw [exists_cutSegments_iff, hbuf]
  rfl

theorem segment_reads_inside_iff_default :
    ReadsInside {} ∧ ∃ segments, cutSegments {} (List.replicate 1536 0) = .ok segments := by
  obtain ⟨hinside, hcut⟩ := segment_reads_inside_iff {} (by decide) (by decide) (by decide)
  have hin : ReadsInside {} := hinside.mpr (Or.inl (by decide))
  exact ⟨hin, (hcut _ (by rw [List.length_replicate]; decide)).mpr hin⟩

/-- The largest transform, averaged 2 ^ 14 times: 2 ^ 32 bytes are covered, and
none is read. -/
def wrapping : ElectrosenseContext where
  log2FftSize := 17
  soverlap := 0
  avgFactor := 16384

theorem covered_length_wraps : readLength wrapping = 0 ∧ ¬ ReadsInside wrapping := by
  refine ⟨by decide, fun hinside => ?_⟩
  have hfirst := (hinside 0 (by decide) 0 (by decide)).1
  exact absurd hfirst (by decide)

section Windows

/-- The samples of a buffer: I and Q in turn. -/
def iqPairs : List UInt8 → List (UInt8 × UInt8)
  | re :: im :: rest => (re, im) :: iqPairs rest
  | _ => []

theorem length_iqPairs (buf : List UInt8) : (iqPairs buf).length = buf.length / 2 := by
  induction buf using iqPairs.induct with
  | case1 re im rest ih =>
    rw [iqPairs, List.length_cons, ih]
    simp only [List.length_cons]
    omega
  | case2 buf hshort =>
    cases buf with
    | nil => rfl
    | cons re rest =>
      cases rest with
      | nil => simp [iqPairs]
      | cons im rest => exact absurd rfl (hshort re im rest)

theorem getElem?_iqPairs {buf : List UInt8} {n : ℕ} (hn : 2 * n + 1 < buf.length) :
    ∃ re im, buf[2 * n]? = some re ∧ buf[2 * n + 1]? = some im ∧
      (iqPairs buf)[n]? = some (re, im) := by
  induction n generalizing buf with
  | zero =>
    obtain ⟨re, im, rest, rfl⟩ : ∃ re im rest, buf = re :: im :: rest := by
      rcases buf with _ | ⟨re, _ | ⟨im, rest⟩⟩
      · simp at hn
      · simp at hn
      · exact ⟨re, im, rest, rfl⟩
    exact ⟨re, im, rfl, rfl, rfl⟩
  | succ n ih =>
    rcases buf with _ | ⟨re, _ | ⟨im, rest⟩⟩
    · simp at hn
    · simp at hn
    · obtain ⟨re', im', hre, him, hpair⟩ := @ih rest (by simp at hn; omega)
      exact ⟨re', im', by simpa [Nat.mul_add] using hre, by simpa [Nat.mul_add] using him,
        by simpa [iqPairs] using hpair⟩

variable {ctx : ElectrosenseContext} {buf : List UInt8}

/-- Where nothing wraps, a segment is a window of the samples. -/
theorem cutSegment_eq (hs : ctx.soverlap < ctx.fftSize) (hfits : bytesCovered ctx < 2 ^ 32)
    (hbuf : bytesCovered ctx ≤ buf.length) {i : ℕ} (hi : i < ctx.avgFactor) :
    cutSegment ctx buf i =
      .ok (window (ctx.fftSize - ctx.soverlap) ctx.fftSize (iqPairs buf) i) := by
  set stride := ctx.fftSize - ctx.soverlap with hstride
  have hsize : 2 * ctx.fftSize < 2 ^ 32 := by
    have hlast := lt_covered hs hi (show 2 * ctx.fftSize - 1 < 2 * ctx.fftSize by omega)
    omega
  have hread : ∀ k ∈ List.range ctx.fftSize, (do
      let re ← readAt buf (wordIndex ctx i (2 * k))
      let im ← readAt buf (wordIndex ctx i (2 * k + 1))
      .ok (re, im) : Except Fault (UInt8 × UInt8)) =
        .ok ((iqPairs buf).getD (i * stride + k) (0, 0)) := by
    intro k hk
    have hk' := List.mem_range.mp hk
    have hlast := lt_covered hs hi (show 2 * k + 1 < 2 * ctx.fftSize by omega)
    rw [← hstride] at hlast
    have hindex : i * (2 * stride) = 2 * (i * stride) := by ring
    obtain ⟨re, im, hre, him, hpair⟩ := @getElem?_iqPairs buf (i * stride + k) (by omega)
    rw [wordIndex_eq hs, wordIndex_eq hs, ← hstride, u32_of_lt (by omega), u32_of_lt (by omega),
      show 2 * k + i * (2 * stride) = 2 * (i * stride + k) by omega,
      show 2 * k + 1 + i * (2 * stride) = 2 * (i * stride + k) + 1 by omega,
      readAt_eq_ok.mpr hre, readAt_eq_ok.mpr him, List.getD_eq_getElem?_getD, hpair]
    rfl
  have hcut : cutSegment ctx buf i = .ok ((List.range ctx.fftSize).map (fun k =>
      (iqPairs buf).getD (i * stride + k) (0, 0))) := by
    rw [cutSegment, pairs_eq hsize]
    exact mapM_eq_ok_map hread
  rw [hcut]
  congr 1
  apply List.ext_getElem?
  intro k
  rw [window, List.getElem?_take]
  by_cases hk : k < ctx.fftSize
  · have hlast := lt_covered hs hi (show 2 * k + 1 < 2 * ctx.fftSize by omega)
    rw [← hstride] at hlast
    have hindex : i * (2 * stride) = 2 * (i * stride) := by ring
    obtain ⟨re, im, _, _, hpair⟩ := @getElem?_iqPairs buf (i * stride + k) (by omega)
    rw [if_pos hk, List.getElem?_drop, hpair, List.getElem?_map, List.getElem?_range hk,
      Option.map_some, List.getD_eq_getElem?_getD, hpair]
    rfl
  · rw [if_neg hk, List.getElem?_eq_none]
    simpa using hk

theorem cutSegments_eq (hs : ctx.soverlap < ctx.fftSize) (hfits : bytesCovered ctx < 2 ^ 32)
    (hbuf : bytesCovered ctx ≤ buf.length) :
    cutSegments ctx buf = .ok (windows (ctx.fftSize - ctx.soverlap) ctx.fftSize ctx.avgFactor
      (iqPairs buf)) :=
  mapM_eq_ok_map fun _ hi => cutSegment_eq hs hfits hbuf (List.mem_range.mp hi)

end Windows

section Run

/-- The settings that fix how a buffer is cut. -/
structure SameCut (ctx ctx' : ElectrosenseContext) : Prop where
  log2FftSize : ctx'.log2FftSize = ctx.log2FftSize
  soverlap : ctx'.soverlap = ctx.soverlap
  avgFactor : ctx'.avgFactor = ctx.avgFactor

variable {ctx : ElectrosenseContext} {a : Answers} {s s' : SyncState}

theorem SameCut.fftSize {ctx' : ElectrosenseContext} (h : SameCut ctx ctx') :
    ctx'.fftSize = ctx.fftSize := by
  rw [ElectrosenseContext.fftSize, h.log2FftSize, ElectrosenseContext.fftSize]

theorem SameCut.readLength {ctx' : ElectrosenseContext} (h : SameCut ctx ctx') :
    RtlsdrDriver.readLength ctx' = RtlsdrDriver.readLength ctx := by
  unfold RtlsdrDriver.readLength
  rw [h.fftSize, h.soverlap, h.avgFactor]

theorem SameCut.cutSegments {ctx' : ElectrosenseContext} (h : SameCut ctx ctx')
    (buf : List UInt8) : RtlsdrDriver.cutSegments ctx' buf = RtlsdrDriver.cutSegments ctx buf := by
  unfold RtlsdrDriver.cutSegments RtlsdrDriver.cutSegment
  rw [h.fftSize, h.soverlap, h.avgFactor]

/-- The buffer is not set up yet, or for this configuration. -/
structure Configured (ctx : ElectrosenseContext) (s : SyncState) : Prop where
  sized : Sized s
  slen : s.fftSize = 0 ∨ s.slen = readLength ctx ∧ s.fftSize = ctx.fftSize

theorem Configured.resize (hsize : ctx.fftSize ≠ 0) (hcut : SameCut ctx a.context)
    (h : Configured ctx s) :
    (resizeBuffer a s).slen = readLength ctx ∧ (resizeBuffer a s).fftSize = ctx.fftSize := by
  unfold resizeBuffer
  by_cases hsame : s.fftSize ≠ a.context.fftSize
  · rw [if_pos hsame]
    exact ⟨hcut.readLength, hcut.fftSize⟩
  · rw [if_neg hsame]
    rw [not_not, hcut.fftSize] at hsame
    rcases h.slen with hzero | hset
    · exact absurd (hsame.symm.trans hzero) hsize
    · exact hset

/-- Tuning leaves the buffer as it is. -/
theorem Configured.tuned {t : SyncState} {converterEnabled : Bool} {mustInvert : Option Bool}
    (h : Configured ctx s) (hretune : retune converterEnabled a s.hopping.hop
      { s with hopping := s.hopping.advance } = .ok (t, mustInvert)) : Configured ctx t := by
  have htuned := sameBuffer_retune hretune
  have hbuffer : SameBuffer s t := ⟨htuned.fftSize, htuned.slen, htuned.iqBuf⟩
  exact ⟨h.sized.of_sameBuffer hbuffer, by rw [hbuffer.fftSize, hbuffer.slen]; exact h.slen⟩

/-- One iteration: what it captures has the length that is read, and the buffer
stays set up. -/
theorem Configured.iterate {converterEnabled : Bool} {o : Option Capture}
    (hsize : ctx.fftSize ≠ 0) (hcut : SameCut ctx a.context) (h : Configured ctx s)
    (hiter : iterate converterEnabled s a = .ok (s', o)) :
    Configured ctx s' ∧ ∀ c ∈ o, c.raw.length = readLength ctx ∧
      c.iqVectors = c.iqBuf >>= cutSegments ctx ∧
      ∀ buf, c.iqBuf = .ok buf → buf.length = readLength ctx := by
  have hsized := sized_iterate h.sized hiter
  obtain ⟨t, mustInvert, hretune, hcase⟩ := iterate_eq_ok hiter
  have ht := h.tuned hretune
  rcases hcase with ⟨rfl, rfl, rfl⟩ | ⟨invert, rfl, rfl, rfl⟩
  · exact ⟨ht, by simp⟩
  · obtain ⟨hslen, hfft⟩ := ht.resize hsize hcut
    refine ⟨⟨hsized, Or.inr ⟨hslen, hfft⟩⟩, ?_⟩
    intro c hc
    obtain rfl := Option.mem_some_iff.mp hc
    have hraw : (transfer a.data (resizeBuffer a t).iqBuf).length = readLength ctx := by
      rw [length_transfer, ← hslen]
      exact sized_resizeBuffer a ht.sized
    refine ⟨hraw, ?_, ?_⟩
    · change (_ >>= cutSegments a.context) = (_ >>= cutSegments ctx)
      rw [funext hcut.cutSegments]
      rfl
    · intro buf hbuf
      cases invert with
      | true => rw [length_invertLoop hbuf, hraw]
      | false => rw [← Except.ok.inj hbuf, hraw]

/-- Every call of an iteration succeeds, and the read delivers what it is asked for. -/
structure Succeeds (converterEnabled : Bool) (ctx : ElectrosenseContext) (a : Answers) :
    Prop where
  converterTune : converterEnabled = true → a.converterTune.isSome = true
  setCenterFreq : a.setCenterFreq = 0
  resetBuffer : 0 ≤ a.resetBuffer
  setDirectSampling : 0 ≤ a.setDirectSampling
  setTunerGainMode : 0 ≤ a.setTunerGainMode
  setTunerGain : 0 ≤ a.setTunerGain
  readSync : a.readSync = 0
  nRead : a.nRead = readLength ctx
  data : a.data.length = readLength ctx

variable {converterEnabled : Bool}

theorem Succeeds.setsCenterFreq (h : Succeeds converterEnabled ctx a) (freq : ℕ)
    (s : SyncState) : ∃ t, RtlsdrDriver.setCenterFreq a freq s = (t, true) ∧
      t.running = s.running := by
  refine ⟨_, setCenterFreq_of_zero freq h.setCenterFreq, ?_⟩
  simp [h.resetBuffer]

theorem Succeeds.switches (h : Succeeds converterEnabled ctx a) (centerFreq : ℕ)
    (s : SyncState) : ∃ t, switchDirectSampling a centerFreq s = .ok t ∧
      t.running = s.running := by
  unfold switchDirectSampling
  rw [if_neg (not_lt.mpr h.setDirectSampling), if_neg (not_lt.mpr h.setTunerGainMode),
    if_neg (not_lt.mpr h.setTunerGain), if_neg (not_lt.mpr h.setDirectSampling)]
  split_ifs <;> exact ⟨_, rfl, rfl⟩

/-- Tuning goes on to the read, and the loop is not stopped. -/
theorem Succeeds.tunes (h : Succeeds converterEnabled ctx a) (centerFreq : ℕ)
    (s : SyncState) : ∃ t mustInvert,
      retune converterEnabled a centerFreq s = .ok (t, some mustInvert) ∧
        t.running = s.running := by
  by_cases hsame : s.previousFreq = centerFreq
  · exact ⟨_, _, retune_of_eq hsame, rfl⟩
  cases converterEnabled with
  | true =>
    obtain ⟨⟨proxyFreq, mustInvert⟩, htune⟩ := Option.isSome_iff_exists.mp (h.converterTune rfl)
    rw [retune_converter_of_ne hsame]
    simp only [retuneConverter, htune]
    by_cases hproxy : s.previousProxyFreq = proxyFreq
    · rw [if_neg (not_not.mpr hproxy)]
      exact ⟨_, mustInvert, rfl, rfl⟩
    · rw [if_pos hproxy]
      obtain ⟨t, hset, ht⟩ := h.setsCenterFreq (proxyFreq * 1000) { s with
        previousFreq := centerFreq
        previousProxyFreq := proxyFreq
        hardware := { s.hardware with tune := some ⟨centerFreq / 1000, proxyFreq, mustInvert⟩ } }
      rw [hset]
      exact ⟨t, mustInvert, rfl, ht⟩
  | false =>
    obtain ⟨u, hswitch, hu⟩ := h.switches centerFreq { s with previousFreq := centerFreq }
    obtain ⟨t, hset, ht⟩ := h.setsCenterFreq centerFreq u
    refine ⟨t, false, ?_, ht.trans hu⟩
    rw [retune_native_of_ne hsame, retuneNative, hswitch, ok_bind, hset]
    rfl

/-- The buffer of an iteration that succeeds: what its read has delivered, inverted
where the converter asks for it. -/
def received (a : Answers) (c : Capture) : List UInt8 :=
  if c.mustInvert then invert a.data else a.data

theorem Succeeds.length_received (h : Succeeds converterEnabled ctx a) (c : Capture) :
    (received a c).length = readLength ctx := by
  unfold received
  split
  · rw [length_invert, h.data]
  · exact h.data

/-- An iteration that succeeds gets to its read, has what was read in the buffer
and leaves the loop running. -/
theorem Configured.reads (hsize : ctx.fftSize ≠ 0) (hcut : SameCut ctx a.context)
    (hinside : ReadsInside ctx) (h : Configured ctx s)
    (hsucceeds : Succeeds converterEnabled ctx a) :
    ∃ s' c, RtlsdrDriver.iterate converterEnabled s a = .ok (s', some c) ∧
      s'.running = s.running ∧ c.readOk = true ∧ c.raw = a.data ∧ c.iqBuf = .ok (received a c) := by
  obtain ⟨t, mustInvert, hretune, hrunning⟩ :=
    hsucceeds.tunes s.hopping.hop { s with hopping := s.hopping.advance }
  have ht := h.tuned hretune
  obtain ⟨hslen, -⟩ := ht.resize hsize hcut
  have hread : ReadSucceeds t a := ⟨hsucceeds.readSync, by rw [hslen]; exact hsucceeds.nRead⟩
  have hraw : transfer a.data (resizeBuffer a t).iqBuf = a.data := by
    apply transfer_of_length
    rw [hsucceeds.data, ← hslen]
    exact (sized_resizeBuffer a ht.sized).symm
  have hbuf := @iqBuf_of_readOk a t s.hopping.hop mustInvert ht.sized hread
  have hrun := @running_readAndCut a t s.hopping.hop mustInvert ht.sized hread
  rw [hraw] at hbuf hrun
  refine ⟨_, _, iterate_of_read hretune, hrun.trans ?_, (readOk_capture _ _ _).mpr hread, hraw,
    hbuf⟩
  rw [funext hcut.cutSegments]
  have hkept : (resizeBuffer a t).running = s.running := by
    rw [show s.running = t.running from hrunning.symm]
    unfold resizeBuffer
    split <;> rfl
  have hlength := hsucceeds.length_received
    (capture a s.hopping.hop mustInvert (resizeBuffer a t))
  rw [ReadsInside, ← hlength] at hinside
  obtain ⟨segments, hsegments⟩ := exists_cutSegments_iff.mpr hinside
  change cutSegments ctx (if mustInvert then invert a.data else a.data) = _ at hsegments
  rw [hkept, hsegments]
  exact Bool.and_true _

/-- The segments of one read against its samples. -/
structure ExactOverlap (ctx : ElectrosenseContext) (samples : List (UInt8 × UInt8))
    (segments : List (List (UInt8 × UInt8))) : Prop where
  count : segments.length = ctx.avgFactor
  size : ∀ segment ∈ segments, segment.length = ctx.fftSize
  shared : ∀ i, i + 1 < ctx.avgFactor →
    (segments.getD i []).drop (ctx.fftSize - ctx.soverlap) =
      (segments.getD (i + 1) []).take ctx.soverlap
  reassembled :
    (segments.map (fun segment => segment.take (ctx.fftSize - ctx.soverlap))).flatten ++
        (segments.getD (ctx.avgFactor - 1) []).drop (ctx.fftSize - ctx.soverlap) =
      samples.take ((ctx.fftSize - ctx.soverlap) * ctx.avgFactor + ctx.soverlap)

theorem exactOverlap_windows (hs : ctx.soverlap < ctx.fftSize) (ha : 1 ≤ ctx.avgFactor)
    {samples : List (UInt8 × UInt8)}
    (hlength : (ctx.fftSize - ctx.soverlap) * ctx.avgFactor + ctx.soverlap ≤ samples.length) :
    ExactOverlap ctx samples
      (windows (ctx.fftSize - ctx.soverlap) ctx.fftSize ctx.avgFactor samples) := by
  have hcovered : covered (ctx.fftSize - ctx.soverlap) ctx.fftSize ctx.avgFactor =
      (ctx.fftSize - ctx.soverlap) * ctx.avgFactor + ctx.soverlap := by
    rw [covered_eq ha (by omega), Nat.mul_comm, Nat.sub_sub_self hs.le]
  have hget : ∀ i < ctx.avgFactor, (windows (ctx.fftSize - ctx.soverlap) ctx.fftSize
      ctx.avgFactor samples).getD i [] =
        window (ctx.fftSize - ctx.soverlap) ctx.fftSize samples i := by
    intro i hi
    rw [List.getD_eq_getElem?_getD, getElem?_windows hi, Option.getD_some]
  refine ⟨length_windows, ?_, ?_, ?_⟩
  · intro segment hsegment
    obtain ⟨i, hi, rfl⟩ := List.mem_map.mp hsegment
    exact length_window (by rw [hcovered]; exact hlength) (List.mem_range.mp hi)
  · intro i hi
    rw [hget i (by omega), hget (i + 1) hi, window_overlap, Nat.sub_sub_self hs.le]
  · rw [hget _ (by omega), reassemble ha (Nat.sub_le _ _), hcovered]

/-- What is cut from a buffer of the length that is read. -/
theorem exists_exactOverlap (hs : ctx.soverlap < ctx.fftSize) (ha : 1 ≤ ctx.avgFactor)
    (hword : bytesCovered ctx < 2 ^ 32) {buf : List UInt8}
    (hbuf : bytesCovered ctx ≤ buf.length) :
    ∃ segments, cutSegments ctx buf = .ok segments ∧ ExactOverlap ctx (iqPairs buf) segments := by
  refine ⟨_, cutSegments_eq hs hword hbuf, exactOverlap_windows hs ha ?_⟩
  rw [length_iqPairs]
  rw [bytesCovered] at hbuf
  omega

/-- Throughout a run in one configuration, the length that is read is the covered
one, rounded up, every index lies below it, and the segments of every read are
exactly overlapping windows of its samples. An iteration whose calls succeed has
such a read, of what was delivered, and a run without failures has it every time. -/
theorem segments_overlap_exactly (ctx : ElectrosenseContext) (hs : ctx.soverlap < ctx.fftSize)
    (ha : 1 ≤ ctx.avgFactor)
    (hfits : 2 * ((ctx.fftSize - ctx.soverlap) * ctx.avgFactor + ctx.soverlap) + 512 < 2 ^ 31)
    (converterEnabled : Bool) (hopping : SequentialHopping) (hardware : Hardware)
    (answers : List Answers) (hcut : ∀ a ∈ answers, SameCut ctx a.context) :
    (512 ∣ readLength ctx ∧ bytesCovered ctx ≤ readLength ctx ∧
      readLength ctx < bytesCovered ctx + 512) ∧ ReadsInside ctx ∧
    (∀ v ∈ SyncSampling converterEnabled (SyncState.start hopping hardware) answers,
      (∀ c ∈ v.output, c.raw.length = readLength ctx ∧
        ∀ buf, c.iqBuf = .ok buf → ∃ segments, c.iqVectors = .ok segments ∧
          ExactOverlap ctx (iqPairs buf) segments) ∧
      (Succeeds converterEnabled ctx v.input → ∃ c ∈ v.output, c.readOk = true ∧
        c.raw = v.input.data ∧ c.iqBuf = .ok (received v.input c) ∧
        ∃ segments, c.iqVectors = .ok segments ∧
          ExactOverlap ctx (iqPairs (received v.input c)) segments)) ∧
    ((∀ a ∈ answers, Succeeds converterEnabled ctx a) →
      (SyncSampling converterEnabled (SyncState.start hopping hardware) answers).map
        Visit.input = answers) := by
  have hword : bytesCovered ctx < 2 ^ 32 := by
    rw [bytesCovered]
    omega
  have hsize : 2 * ctx.fftSize < 2 ^ 32 := by
    have hlast := lt_covered hs (show 0 < ctx.avgFactor by omega)
      (show 2 * ctx.fftSize - 1 < 2 * ctx.fftSize by omega)
    omega
  have hne : ctx.fftSize ≠ 0 := by omega
  have hlen : readLength ctx = roundUp (bytesCovered ctx) := by
    rw [readLength_eq hs, u32_of_lt hword]
  obtain ⟨hdvd, hle, hlt⟩ := roundUp_spec (bytesCovered ctx)
  rw [← hlen] at hdvd hle hlt
  have hinside : ReadsInside ctx := (readsInside_iff_covered hs ha hsize).mpr (Or.inl hword)
  have hstart : Configured ctx (SyncState.start hopping hardware) := ⟨rfl, Or.inl rfl⟩
  refine ⟨⟨hdvd, hle, hlt⟩, hinside, fun v hv => ?_, fun hsucceed => ?_⟩
  · have hkeep : ∀ s a s' o, Configured ctx s → iterate converterEnabled s a = .ok (s', o) →
        SameCut ctx a.context → Configured ctx s' :=
      fun s a s' o h hiter hsame => (h.iterate hne hsame hiter).1
    obtain ⟨hconfigured, hsame, s', hiter⟩ := visits_inv (Configured ctx)
      (fun v => SameCut ctx v.input.context) hkeep hstart answers
      (fun v hv => hcut v.input (input_mem_of_mem_visits hv)) v hv
    have hread := (hconfigured.iterate hne hsame hiter).2
    have hsegments : ∀ c ∈ v.output, ∀ buf, c.iqBuf = .ok buf →
        ∃ segments, c.iqVectors = .ok segments ∧ ExactOverlap ctx (iqPairs buf) segments := by
      intro c hc buf hbuf
      obtain ⟨_, hvectors, hlength⟩ := hread c hc
      rw [hvectors, hbuf, ok_bind]
      exact exists_exactOverlap hs ha hword (by rw [hlength buf hbuf]; exact hle)
    refine ⟨fun c hc => ⟨(hread c hc).1, hsegments c hc⟩, fun hsucceeds => ?_⟩
    obtain ⟨t, c, hreads, _, hok, hraw, hbuf⟩ := hconfigured.reads hne hsame hinside hsucceeds
    obtain ⟨_, houtput⟩ := Prod.mk.inj (Except.ok.inj (hreads.symm.trans hiter))
    exact ⟨c, houtput.symm, hok, hraw, hbuf, hsegments c houtput.symm _ hbuf⟩
  · refine visits_complete (Configured ctx)
      (fun a => SameCut ctx a.context ∧ Succeeds converterEnabled ctx a) ?_ hstart rfl answers
      (fun a ha => ⟨hcut a ha, hsucceed a ha⟩)
    intro s a h hgoes
    obtain ⟨s', c, hiter, hrunning, _⟩ := h.reads hne hgoes.1 hinside hgoes.2
    exact ⟨s', some c, hiter, (h.iterate hne hgoes.1 hiter).1, hrunning⟩

theorem succeeds_success : Succeeds false {} (Answers.success {} 1536) where
  converterTune := by decide
  setCenterFreq := rfl
  resetBuffer := le_rfl
  setDirectSampling := le_rfl
  setTunerGainMode := le_rfl
  setTunerGain := le_rfl
  readSync := rfl
  nRead := rfl
  data := List.length_replicate

/-- Both reads of a run of two iterations are cut, with an overlap of 128 samples. -/
theorem segments_overlap_exactly_default :
    readLength {} = 1536 ∧ ReadsInside {} ∧
    (SyncSampling false (SyncState.start (.ofFreqs [100000000] (List.cons_ne_nil _ _)) opened)
      [Answers.success {} 1536, Answers.success {} 1536]).map Visit.input =
        [Answers.success {} 1536, Answers.success {} 1536] ∧
    ∀ v ∈ SyncSampling false
        (SyncState.start (.ofFreqs [100000000] (List.cons_ne_nil _ _)) opened)
        [Answers.success {} 1536, Answers.success {} 1536],
      ∃ c ∈ v.output, c.raw = List.replicate 1536 127 ∧ ∃ segments,
        c.iqVectors = .ok segments ∧ ExactOverlap {} (iqPairs (received v.input c))
          segments := by
  have hanswers : ∀ a ∈ [Answers.success {} 1536, Answers.success {} 1536],
      a = Answers.success {} 1536 := by
    intro a ha
    simpa using ha
  obtain ⟨_, hinside, hrun, hall⟩ := segments_overlap_exactly {} (by decide) (by decide)
    (by decide) false (.ofFreqs [100000000] (List.cons_ne_nil _ _)) opened
    [Answers.success {} 1536, Answers.success {} 1536]
    (fun a ha => by rw [hanswers a ha]; exact ⟨rfl, rfl, rfl⟩)
  refine ⟨by decide, hinside, hall fun a ha => by rw [hanswers a ha]; exact succeeds_success,
    fun v hv => ?_⟩
  have hinput := hanswers v.input (input_mem_of_mem_visits hv)
  obtain ⟨c, hc, _, hraw, _, segments, hsegments, hoverlap⟩ :=
    (hrun v hv).2 (by rw [hinput]; exact succeeds_success)
  exact ⟨c, hc, by rw [hraw, hinput]; rfl, segments, hsegments, hoverlap⟩

end Run

end EsSensor.SegmentCutting
