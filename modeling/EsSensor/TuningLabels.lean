import EsSensor.RtlsdrDriver

/-!
Whether a segment is labelled with the frequency the hardware is really set to.
The loop notes a frequency as tuned before the call that may fail, so the label
is right as long as no retuning is left out after a failure.
-/
namespace EsSensor.TuningLabels

open CheckedLoop LoopTrace MachineWord RtlsdrDriver

/-- The hardware is set for f: the dongle itself, or the converter for f and the
dongle for the intermediate frequency that it answered, which is in kHz. -/
def TunedTo (converterEnabled : Bool) (h : Hardware) (f : ℕ) : Prop :=
  if converterEnabled then
    ∃ t, h.tune = some t ∧ t.request = f / 1000 ∧ h.centerFreq = some (t.proxyFreq * 1000)
  else h.centerFreq = some f

/-- A call is left out only after one that succeeded, and the frequency that is
set fits the word of the library. -/
def Retunes (converterEnabled : Bool) (s : SyncState) (a : Answers) : Prop :=
  if s.previousFreq = s.hopping.hop then s.lastSet = some true
  else if converterEnabled then
    ∀ answer ∈ a.converterTune,
      if s.previousProxyFreq = answer.1 then s.lastSet = some true
      else a.setCenterFreq = 0 → answer.1 * 1000 < 2 ^ 32
  else a.setCenterFreq = 0 → s.hopping.hop < 2 ^ 32

instance (converterEnabled : Bool) (s : SyncState) (a : Answers) :
    Decidable (Retunes converterEnabled s a) := by
  unfold Retunes
  infer_instance

/-- A frequency noted as tuned is the one that the hardware has, provided that
the last call succeeded. -/
structure Noted (converterEnabled : Bool) (s : SyncState) : Prop where
  tuned : s.lastSet = some true → TunedTo converterEnabled s.hardware s.previousFreq
  proxy : converterEnabled = true → s.lastSet = some true →
    s.hardware.centerFreq = some (s.previousProxyFreq * 1000)

theorem noted_start (converterEnabled : Bool) (hopping : SequentialHopping)
    (hardware : Hardware) : Noted converterEnabled (SyncState.start hopping hardware) :=
  ⟨fun hset => (by cases hset), fun _ hset => (by cases hset)⟩

section Step

variable {converterEnabled : Bool} {a : Answers} {s t : SyncState}

theorem Noted.of_sameTuning (hs : Noted converterEnabled s) (hst : SameTuning s t) :
    Noted converterEnabled t := by
  obtain ⟨htuned, hproxy⟩ := hs
  refine ⟨?_, ?_⟩
  · rw [hst.lastSet, hst.hardware, hst.previousFreq]
    exact htuned
  · rw [hst.lastSet, hst.hardware, hst.previousProxyFreq]
    exact hproxy

/-- The loop goes on to a read only with the frequency noted and set. -/
def Ready (f : ℕ) (mustInvert : Option Bool) (t : SyncState) : Prop :=
  mustInvert ≠ none → t.previousFreq = f ∧ t.lastSet = some true

theorem retuneConverter_noted {f : ℕ} {mustInvert : Option Bool} (hs : Noted true s)
    (hmeets : ∀ answer ∈ a.converterTune,
      if s.previousProxyFreq = answer.1 then s.lastSet = some true
      else a.setCenterFreq = 0 → answer.1 * 1000 < 2 ^ 32)
    (hrun : retuneConverter a f { s with previousFreq := f } = .ok (t, mustInvert)) :
    Noted true t ∧ Ready f mustInvert t := by
  obtain ⟨answer, htune, ⟨hsame, rfl, rfl⟩ | ⟨hdiff, rfl, hinvert⟩⟩ := retuneConverter_cases hrun
  · -- the dongle stays where it is, which the last call has set
    have hset : s.lastSet = some true := by
      have hproxy := hmeets answer htune
      rwa [if_pos hsame] at hproxy
    have hfreq := hs.proxy rfl hset
    refine ⟨⟨fun _ => ?_, fun _ _ => hfreq⟩, fun _ => ⟨rfl, hset⟩⟩
    exact ⟨_, rfl, rfl, by rw [← hsame]; exact hfreq⟩
  · by_cases hzero : a.setCenterFreq = 0
    · have hword : answer.1 * 1000 < 2 ^ 32 := by
        have hproxy := hmeets answer htune
        rw [if_neg hdiff] at hproxy
        exact hproxy hzero
      rw [setCenterFreq_of_zero _ hzero]
      refine ⟨⟨fun _ => ?_, fun _ _ => ?_⟩, fun _ => ⟨rfl, rfl⟩⟩
      · exact ⟨_, rfl, rfl, by simp [u32_of_lt hword]⟩
      · simp [u32_of_lt hword]
    · rw [setCenterFreq_of_ne _ hzero]
      rw [if_neg hzero] at hinvert
      exact ⟨⟨fun hset => (by cases hset), fun _ hset => (by cases hset)⟩,
        fun hread => absurd hinvert hread⟩

theorem retuneNative_noted {f : ℕ} {mustInvert : Option Bool}
    (hmeets : a.setCenterFreq = 0 → f < 2 ^ 32)
    (hrun : retuneNative a f { s with previousFreq := f } = .ok (t, mustInvert)) :
    Noted false t ∧ Ready f mustInvert t := by
  obtain ⟨u, hswitch, rfl, hinvert⟩ := retuneNative_cases hrun
  obtain ⟨_, _, hprevious, _⟩ := switchDirectSampling_frame hswitch
  by_cases hzero : a.setCenterFreq = 0
  · have hword := hmeets hzero
    rw [setCenterFreq_of_zero _ hzero]
    refine ⟨⟨fun _ => ?_, fun hconverter => by cases hconverter⟩, fun _ => ⟨hprevious, rfl⟩⟩
    simp [TunedTo, u32_of_lt hword, hprevious]
  · rw [setCenterFreq_of_ne _ hzero]
    rw [if_neg hzero] at hinvert
    exact ⟨⟨fun hset => (by cases hset), fun hconverter => by cases hconverter⟩,
      fun hread => absurd hinvert hread⟩

theorem retune_noted {mustInvert : Option Bool} (hs : Noted converterEnabled s)
    (hmeets : Retunes converterEnabled s a)
    (hrun : retune converterEnabled a s.hopping.hop
      { s with hopping := s.hopping.advance } = .ok (t, mustInvert)) :
    Noted converterEnabled t ∧ Ready s.hopping.hop mustInvert t := by
  have hs' : Noted converterEnabled { s with hopping := s.hopping.advance } :=
    ⟨hs.tuned, hs.proxy⟩
  unfold Retunes at hmeets
  by_cases hsame : s.previousFreq = s.hopping.hop
  · rw [if_pos hsame] at hmeets
    rw [retune_of_eq (s := { s with hopping := s.hopping.advance }) hsame] at hrun
    obtain ⟨rfl, rfl⟩ := Prod.mk.inj (Except.ok.inj hrun)
    exact ⟨hs', fun _ => ⟨hsame, hmeets⟩⟩
  · rw [if_neg hsame] at hmeets
    cases converterEnabled with
    | true =>
      rw [retune_converter_of_ne (s := { s with hopping := s.hopping.advance }) hsame] at hrun
      exact retuneConverter_noted hs' hmeets hrun
    | false =>
      rw [retune_native_of_ne (s := { s with hopping := s.hopping.advance }) hsame] at hrun
      exact retuneNative_noted hmeets hrun

/-- The step lemma: the invariant goes on, and what is read is read there. -/
theorem iterate_noted {s' : SyncState} {o : Option Capture} (hs : Noted converterEnabled s)
    (hmeets : Retunes converterEnabled s a)
    (hiter : iterate converterEnabled s a = .ok (s', o)) :
    Noted converterEnabled s' ∧
      ∀ c ∈ o, TunedTo converterEnabled c.hardware c.centerFreq := by
  obtain ⟨t, mustInvert, hretune, hcase⟩ := iterate_eq_ok hiter
  obtain ⟨ht, hready⟩ := retune_noted hs hmeets hretune
  rcases hcase with ⟨rfl, rfl, rfl⟩ | ⟨invert, rfl, rfl, rfl⟩
  · exact ⟨ht, by simp⟩
  · refine ⟨ht.of_sameTuning (sameTuning_readAndCut a _ invert t), ?_⟩
    intro c hc
    obtain rfl := Option.mem_some_iff.mp hc
    obtain ⟨hprevious, hset⟩ := hready (by simp)
    change TunedTo converterEnabled (resizeBuffer a t).hardware s.hopping.hop
    rw [(sameTuning_resizeBuffer a t).hardware, ← hprevious]
    exact ht.tuned hset

end Step

/-- In a run in which no call is left out after a failure, every segment carries
the frequency that the hardware was set for during its read. -/
theorem segments_labelled (converterEnabled : Bool) (hopping : SequentialHopping)
    (hardware : Hardware) (answers : List Answers)
    (hmeets : ∀ v ∈ SyncSampling converterEnabled (SyncState.start hopping hardware) answers,
      Retunes converterEnabled v.state v.input) :
    ∀ v ∈ SyncSampling converterEnabled (SyncState.start hopping hardware) answers,
      ∀ c ∈ v.output, ∀ segment ∈ c.enqueued ℚ,
        TunedTo converterEnabled c.hardware segment.centerFrequency := by
  intro v hv c hc segment hsegment
  obtain ⟨hinv, hretunes, s', hiter⟩ := visits_inv (Noted converterEnabled)
    (fun v => Retunes converterEnabled v.state v.input)
    (fun s a s' o hs hiter hmeets => (iterate_noted hs hmeets hiter).1)
    (noted_start converterEnabled hopping hardware) answers hmeets v hv
  rw [(mem_enqueued hsegment).1]
  exact (iterate_noted hinv hretunes hiter).2 c hc

theorem segments_labelled_two_hops :
    ∃ v ∈ SyncSampling false
        (SyncState.start (.ofFreqs [100000000, 102000000] (List.cons_ne_nil _ _)) opened)
        [Answers.success singleWindow 512, Answers.success singleWindow 512],
      ∃ c ∈ v.output, ∃ segment ∈ c.enqueued ℚ,
        segment.centerFrequency = 102000000 ∧
          TunedTo false c.hardware segment.centerFrequency := by
  obtain ⟨v, hv, c, hc, segment, hsegment, hsecond⟩ : ∃ v ∈ SyncSampling false
      (SyncState.start (.ofFreqs [100000000, 102000000] (List.cons_ne_nil _ _)) opened)
      [Answers.success singleWindow 512, Answers.success singleWindow 512],
      ∃ c ∈ v.output, ∃ segment ∈ c.enqueued ℚ, segment.centerFrequency = 102000000 := by
    decide +kernel
  exact ⟨v, hv, c, hc, segment, hsegment, hsecond,
    segments_labelled false _ opened _ (by decide +kernel) v hv c hc segment hsegment⟩

/-- The only hop fails to be set. The next iteration takes it for tuned. -/
theorem failed_call_mislabels :
    ∃ v ∈ SyncSampling false
        (SyncState.start (.ofFreqs [100000000] (List.cons_ne_nil _ _)) opened)
        [{ Answers.success singleWindow 512 with setCenterFreq := -1 },
          Answers.success singleWindow 512],
      ∃ c ∈ v.output, ∃ segment ∈ c.enqueued ℚ,
        segment.centerFrequency = 100000000 ∧ c.hardware.centerFreq = some 24000000 := by
  decide +kernel

end EsSensor.TuningLabels
