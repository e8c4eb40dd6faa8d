import EsSensor.SegmentCutting
import EsSensor.SpectrumInversion

/-!
Which reads the segments come from. A failed read is reported and ends the loop
with this iteration, but the iteration goes on to cut its segments.
-/
namespace EsSensor.FailedReads

open CheckedLoop LoopTrace RtlsdrDriver SegmentCutting SpectrumInversion

/-- Whether an iteration gets to its read, and whether it then inverts. -/
def inversion (converterEnabled : Bool) (s : SyncState) (a : Answers) : Option Bool :=
  if s.previousFreq = s.hopping.hop then some false
  else if converterEnabled then
    a.converterTune.bind (fun answer =>
      if s.previousProxyFreq = answer.1 ∨ a.setCenterFreq = 0 then some answer.2 else none)
  else if a.setCenterFreq = 0 then some false
  else none

/-- What is read into the buffer, inverted if asked for, and cut. -/
def readVectors (inverted : Bool) (s : SyncState) (a : Answers) :
    Except Fault (List (List (UInt8 × UInt8))) :=
  let raw := transfer a.data (resizeBuffer a s).iqBuf
  (if inverted then invertLoop a.nRead raw else .ok raw) >>= cutSegments a.context

/-- The indices of the inversion are among the first n of the buffer. -/
def InvertInside (nRead n : ℕ) : Prop := ∀ k < (nRead + 1) / 2, 2 * k < n

/-- An iteration gets to its read and cuts at least one segment, all of them
from inside the buffer. -/
def Cuts (converterEnabled : Bool) (s : SyncState) (a : Answers) : Prop :=
  ∃ inverted ∈ inversion converterEnabled s a,
    (inverted = true → InvertInside a.nRead (resizeBuffer a s).slen) ∧
      0 < a.context.avgFactor ∧ CutInside a.context (resizeBuffer a s).slen

/-- A segment is cut from what a successful read of this iteration has delivered,
as it is or inverted. -/
structure Delivered {K : Type} [NatCast K] (s : SyncState) (a : Answers)
    (segment : SpectrumSegment K) : Prop where
  readSucceeds : ReadSucceeds s a
  bytes : ∃ inverted : Bool, ∃ i < a.context.avgFactor, ∃ iqVector,
    cutSegment a.context (if inverted then invert a.data else a.data) i = .ok iqVector ∧
      segment.iqSamples = iqVector.map (fun iq => ((iq.1.toNat : K), (iq.2.toNat : K)))

section Buffer

variable {a : Answers} {s t : SyncState} {buf : List UInt8}

theorem exists_invertLoop_iff {nRead : ℕ} :
    (∃ buf', invertLoop nRead buf = .ok buf') ↔ InvertInside nRead buf.length := by
  constructor
  · rintro ⟨buf', hloop⟩ k hk
    obtain ⟨b, b', hb, hstep⟩ :=
      foldlM_step_ok (fun b : List UInt8 => b.length = buf.length)
        (fun _ _ _ hb hround => (length_invertRound hround).trans hb) rfl hloop k
        (List.mem_range.mpr hk)
    obtain ⟨x, hread, _⟩ := bind_eq_ok.mp hstep
    rw [← hb]
    exact exists_readAt_eq_ok.mp ⟨x, hread⟩
  · intro hinside
    exact ⟨_, invertRounds_eq hinside⟩

theorem SameBuffer.resize (h : SameBuffer s t) :
    SameBuffer (resizeBuffer a s) (resizeBuffer a t) := by
  unfold resizeBuffer
  rw [h.fftSize]
  by_cases hfft : s.fftSize ≠ a.context.fftSize
  · rw [if_pos hfft, if_pos hfft]
    exact ⟨rfl, rfl, by rw [h.iqBuf]⟩
  · rw [if_neg hfft, if_neg hfft]
    exact h

end Buffer

section Step

variable {converterEnabled : Bool} {a : Answers} {s t s' : SyncState} {o : Option Capture}

/-- Tuning gets to the read as `inversion` says. -/
theorem retune_inversion {mustInvert : Option Bool}
    (hretune : retune converterEnabled a s.hopping.hop { s with hopping := s.hopping.advance } =
      .ok (t, mustInvert)) : mustInvert = inversion converterEnabled s a := by
  unfold inversion
  by_cases hsame : s.previousFreq = s.hopping.hop
  · rw [retune_of_eq (s := { s with hopping := s.hopping.advance }) hsame] at hretune
    rw [if_pos hsame, (Prod.mk.inj (Except.ok.inj hretune)).2]
  rw [if_neg hsame]
  cases converterEnabled with
  | true =>
    rw [retune_converter_of_ne (s := { s with hopping := s.hopping.advance }) hsame] at hretune
    obtain ⟨answer, hanswer, ⟨hproxy, _, hinvert⟩ | ⟨hproxy, _, hinvert⟩⟩ :=
      retuneConverter_cases hretune
    · rw [if_pos rfl, Option.mem_def.mp hanswer, Option.bind_some, if_pos (Or.inl hproxy), hinvert]
    · have hproxy' : s.previousProxyFreq ≠ answer.1 := hproxy
      simp [Option.mem_def.mp hanswer, hproxy', hinvert]
  | false =>
    rw [retune_native_of_ne (s := { s with hopping := s.hopping.advance }) hsame] at hretune
    obtain ⟨_, _, _, hinvert⟩ := retuneNative_cases hretune
    simpa using hinvert

/-- What an iteration cuts, by its state before tuning. -/
theorem iterate_capture (hiter : iterate converterEnabled s a = .ok (s', o)) :
    (inversion converterEnabled s a = none ∧ o = none) ∨
      ∃ inverted c, inversion converterEnabled s a = some inverted ∧ o = some c ∧
        c.iqVectors = readVectors inverted s a := by
  obtain ⟨t, mustInvert, hretune, hcase⟩ := iterate_eq_ok hiter
  have htuned := sameBuffer_retune hretune
  have hbuf := SameBuffer.resize (a := a) (s := s) ⟨htuned.fftSize, htuned.slen, htuned.iqBuf⟩
  obtain rfl := retune_inversion hretune
  rcases hcase with ⟨hnone, _, ho⟩ | ⟨inverted, hsome, _, ho⟩
  · exact Or.inl ⟨hnone, ho⟩
  · refine Or.inr ⟨inverted, _, hsome, ho, ?_⟩
    rw [readVectors, ← hbuf.iqBuf]
    rfl

/-- There are segments exactly when the inversion and the cut stay inside the
buffer. -/
theorem exists_readVectors_iff {inverted : Bool} (hs : Sized s) :
    (∃ iqVectors, readVectors inverted s a = .ok iqVectors) ↔
      (inverted = true → InvertInside a.nRead (resizeBuffer a s).slen) ∧
        CutInside a.context (resizeBuffer a s).slen := by
  have hlength : (transfer a.data (resizeBuffer a s).iqBuf).length = (resizeBuffer a s).slen := by
    rw [length_transfer]
    exact sized_resizeBuffer a hs
  cases inverted with
  | false =>
    rw [← hlength, ← exists_cutSegments_iff]
    simp [readVectors]
  | true =>
    constructor
    · rintro ⟨iqVectors, hrun⟩
      obtain ⟨buf, hloop, hcut⟩ := bind_eq_ok.mp hrun
      have hinside := exists_invertLoop_iff.mp ⟨buf, hloop⟩
      have hcutInside := exists_cutSegments_iff.mp ⟨iqVectors, hcut⟩
      rw [hlength] at hinside
      rw [length_invertLoop hloop, hlength] at hcutInside
      exact ⟨fun _ => hinside, hcutInside⟩
    · rintro ⟨hinside, hcutInside⟩
      rw [← hlength] at hinside hcutInside
      obtain ⟨buf, hloop⟩ := exists_invertLoop_iff.mpr (hinside rfl)
      rw [← length_invertLoop hloop] at hcutInside
      obtain ⟨iqVectors, hcut⟩ := exists_cutSegments_iff.mpr hcutInside
      exact ⟨iqVectors, bind_eq_ok.mpr ⟨buf, hloop, hcut⟩⟩

/-- A read that succeeds leaves in the buffer what it has delivered. -/
theorem readVectors_of_readSucceeds {inverted : Bool} (hs : Sized s)
    (hdelivers : a.readSync = 0 → a.data.length = a.nRead) (hread : ReadSucceeds s a) :
    readVectors inverted s a =
      cutSegments a.context (if inverted then invert a.data else a.data) := by
  have hdata : transfer a.data (resizeBuffer a s).iqBuf = a.data := by
    apply transfer_of_length
    rw [hdelivers hread.1, hread.2]
    exact (sized_resizeBuffer a hs).symm
  rw [readVectors, hdata]
  cases inverted with
  | false => rfl
  | true =>
    rw [if_pos rfl, invertLoop_eq (hdelivers hread.1).symm]
    rfl

variable (K : Type) [NatCast K] {inverted : Bool} {c : Capture}

/-- The segments of a read that succeeds are made of what it has delivered. -/
theorem delivered_of_readSucceeds {segment : SpectrumSegment K} (hs : Sized s)
    (hdelivers : a.readSync = 0 → a.data.length = a.nRead) (hread : ReadSucceeds s a)
    (hc : c.iqVectors = readVectors inverted s a) (hsegment : segment ∈ c.enqueued K) :
    Delivered s a segment := by
  rw [readVectors_of_readSucceeds hs hdelivers hread] at hc
  refine ⟨hread, inverted, ?_⟩
  unfold Capture.enqueued at hsegment
  cases hvectors : c.iqVectors with
  | error e => simp [hvectors] at hsegment
  | ok iqVectors =>
    simp only [hvectors, List.mem_map] at hsegment
    obtain ⟨iqVector, hmem, rfl⟩ := hsegment
    obtain ⟨i, hi, hcut⟩ := exists_of_mem_mapM (hc.symm.trans hvectors) hmem
    exact ⟨i, List.mem_range.mp hi, iqVector, hcut, rfl⟩

theorem enqueued_ne_nil_iff (hs : Sized s) (hc : c.iqVectors = readVectors inverted s a) :
    c.enqueued K ≠ [] ↔ (inverted = true → InvertInside a.nRead (resizeBuffer a s).slen) ∧
      0 < a.context.avgFactor ∧ CutInside a.context (resizeBuffer a s).slen := by
  have hexists := @exists_readVectors_iff a s inverted hs
  rw [← hc] at hexists
  unfold Capture.enqueued
  cases hvectors : c.iqVectors with
  | error e =>
    rw [hvectors] at hexists
    have hnot := mt hexists.mpr (by simp)
    simp only [ne_eq, not_true_eq_false, false_iff]
    tauto
  | ok iqVectors =>
    obtain ⟨hinside, hcutInside⟩ := hexists.mp ⟨iqVectors, hvectors⟩
    obtain ⟨buf, _, hcut⟩ := bind_eq_ok.mp (hc.symm.trans hvectors)
    have hlength := length_mapM hcut
    rw [List.length_range] at hlength
    rw [← List.length_pos_iff, List.length_map, hlength]
    tauto

/-- One iteration sends out only what its own read has delivered, exactly when it
cuts nothing unless that read succeeds. -/
theorem iterate_delivered_iff (hs : Sized s)
    (hdelivers : a.readSync = 0 → a.data.length = a.nRead)
    (hiter : iterate converterEnabled s a = .ok (s', o)) :
    (∀ c ∈ o, ∀ segment ∈ c.enqueued K, Delivered s a segment) ↔
      (Cuts converterEnabled s a → ReadSucceeds s a) := by
  rcases iterate_capture hiter with ⟨hnone, rfl⟩ | ⟨inverted, c, hsome, rfl, hc⟩
  · simp [Cuts, hnone]
  have hcuts : Cuts converterEnabled s a ↔ c.enqueued K ≠ [] := by
    rw [enqueued_ne_nil_iff K hs hc, Cuts, hsome]
    simp
  rw [hcuts]
  constructor
  · intro hall hne
    obtain ⟨segment, hsegment⟩ := List.exists_mem_of_ne_nil _ hne
    exact (hall c rfl segment hsegment).readSucceeds
  · intro hread c' hc' segment hsegment
    obtain rfl := Option.mem_some_iff.mp hc'
    exact delivered_of_readSucceeds K hs hdelivers (hread (List.ne_nil_of_mem hsegment)) hc
      hsegment

end Step

/-- Throughout a run, the segments come from the read of their own iteration, and
that read has succeeded, exactly when no iteration cuts segments after a failed
read. -/
theorem segments_delivered_iff (K : Type) [NatCast K] (converterEnabled : Bool)
    (hopping : SequentialHopping) (hardware : Hardware) (answers : List Answers)
    (hdelivers : ∀ a ∈ answers, a.readSync = 0 → a.data.length = a.nRead) :
    (∀ v ∈ SyncSampling converterEnabled (SyncState.start hopping hardware) answers,
      ∀ c ∈ v.output, ∀ segment ∈ c.enqueued K, Delivered v.state v.input segment) ↔
    (∀ v ∈ SyncSampling converterEnabled (SyncState.start hopping hardware) answers,
      Cuts converterEnabled v.state v.input → ReadSucceeds v.state v.input) := by
  apply forall₂_congr
  intro v hv
  obtain ⟨hs, s', hiter⟩ := sampling_sized v hv
  exact iterate_delivered_iff K hs (hdelivers v.input (input_mem_of_mem_visits hv)) hiter

/-- The loop on one hop, with a dongle and no converter. -/
def loopHead : SyncState := SyncState.start (.ofFreqs [98000000] (List.cons_ne_nil _ _)) opened

theorem slen_loopHead {a : Answers} (ha : a.context = singleWindow) :
    (resizeBuffer a loopHead).slen = 512 := by
  rw [resizeBuffer, ha, if_pos (by decide)]
  exact show readLength singleWindow = 512 by decide

theorem segments_delivered_iff_success :
    ReadSucceeds loopHead (Answers.success singleWindow 512) ∧
      ∀ v ∈ SyncSampling false loopHead [Answers.success singleWindow 512],
        ∀ c ∈ v.output, ∀ segment ∈ c.enqueued ℚ, Delivered v.state v.input segment := by
  have hsucceeds : ReadSucceeds loopHead (Answers.success singleWindow 512) :=
    ⟨rfl, (slen_loopHead rfl).symm⟩
  refine ⟨hsucceeds, (segments_delivered_iff ℚ false _ opened _ ?_).mpr ?_⟩
  · intro a ha _
    obtain rfl := List.mem_singleton.mp ha
    exact List.length_replicate
  · intro v hv _
    obtain ⟨s', o, _, _, rfl | hlater, _⟩ := mem_visits_cons hv
    · exact hsucceeds
    · simp [visits] at hlater

/-- The read fails at once, and nothing is delivered. -/
def failing : Answers :=
  { Answers.success singleWindow 512 with readSync := -1, nRead := 0, data := [] }

/-- The first read fails, and a segment of uninitialised memory goes out. -/
theorem failed_read_is_sent :
    ¬ ∀ v ∈ SyncSampling false loopHead [failing],
      ∀ c ∈ v.output, ∀ segment ∈ c.enqueued ℚ, Delivered v.state v.input segment := by
  intro hall
  obtain ⟨t, hretune⟩ : ∃ t, retune false failing loopHead.hopping.hop
      { loopHead with hopping := loopHead.hopping.advance } = .ok (t, some false) := ⟨_, rfl⟩
  obtain ⟨s', o, hiter⟩ : ∃ s' o, iterate false loopHead failing = .ok (s', o) :=
    ⟨_, _, iterate_of_read hretune⟩
  have hmem : ⟨loopHead, failing, o⟩ ∈ SyncSampling false loopHead [failing] := by
    rw [SyncSampling, visits_cons_of_ok rfl hiter]
    exact List.mem_cons_self
  have hcuts : Cuts false loopHead failing := by
    refine ⟨false, rfl, by simp, by decide, ?_⟩
    rw [slen_loopHead rfl]
    exact show ∀ i < 1, ∀ k < 4, wordIndex singleWindow i (2 * k) < 512 ∧
      wordIndex singleWindow i (2 * k + 1) < 512 by decide
  have hsized : Sized loopHead := rfl
  have hread := (iterate_delivered_iff ℚ hsized (by decide) hiter).mp (hall _ hmem) hcuts
  exact absurd hread.1 (by decide)

end EsSensor.FailedReads
