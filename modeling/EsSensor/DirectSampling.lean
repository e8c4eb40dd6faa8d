import EsSensor.RtlsdrDriver

/-!
The direct-sampling mode of the dongle. Opening writes the configured mode to
the device before it decides to enable direct sampling, while the sampling loop
starts from the assumption that it is enabled.
-/
namespace EsSensor.DirectSampling

open CheckedLoop LoopTrace RtlsdrDriver

/-- The mode that a centre frequency asks for. -/
def modeFor (f : ℕ) : ℤ := if f < 24000000 then 2 else 0

/-- The calls of an iteration that concern the mode, and with them the tuning. -/
structure Succeeds (a : Answers) : Prop where
  setCenterFreq : a.setCenterFreq = 0
  setDirectSampling : a.setDirectSampling = 0
  setTunerGainMode : a.setTunerGainMode = 0
  setTunerGain : a.setTunerGain = 0

theorem openDevice_eq_ok {ctx : ElectrosenseContext} {found : Hardware} {a : OpenAnswers}
    {o : Opened} (hopen : openDevice ctx found a = .ok o) :
    o.converterEnabled = a.converterInit ∧
      o.hardware.directSampling =
        written a.setDirectSampling found.directSampling ctx.directSamplingMode ∧
      (a.converterInit = false → ctx.minFreq < 24000000 → o.context.directSamplingMode = 2) := by
  unfold openDevice at hopen
  split_ifs at hopen
  all_goals
    obtain rfl := Except.ok.inj hopen
    refine ⟨rfl, rfl, fun hinit hmin => ?_⟩
  · rfl
  · exact absurd (And.intro hinit hmin) (by assumption)

section Step

variable {a : Answers} {s t : SyncState} {f : ℕ}

theorem switchDirectSampling_of_agree (hagree : s.directSampling = decide (f < 24000000)) :
    switchDirectSampling a f s = .ok s := by
  by_cases hlow : f < 24000000
  · simp [switchDirectSampling, hagree, hlow]
  · simp [switchDirectSampling, hagree, hlow]

/-- With the mode enabled, the switch acts exactly when flag and hop disagree. -/
theorem switchDirectSampling_of_enabled (henabled : a.context.directSamplingMode = 2)
    (hok : Succeeds a) (hswitch : switchDirectSampling a f s = .ok t) :
    t.directSampling = decide (f < 24000000) ∧
      t.hardware.directSampling =
        if s.directSampling = decide (f < 24000000) then s.hardware.directSampling
        else some (modeFor f) := by
  by_cases hagree : s.directSampling = decide (f < 24000000)
  · rw [switchDirectSampling_of_agree hagree] at hswitch
    obtain rfl := Except.ok.inj hswitch
    exact ⟨hagree, by rw [if_pos hagree]⟩
  · rw [if_neg hagree]
    unfold switchDirectSampling at hswitch
    rw [henabled, if_pos (by decide)] at hswitch
    by_cases hlow : f < 24000000
    · have hflag : s.directSampling = false := by simpa [hlow] using hagree
      rw [if_neg (by omega), if_pos ⟨hlow, hflag⟩, if_neg (by simp [hok.setDirectSampling])]
        at hswitch
      obtain rfl := Except.ok.inj hswitch
      simp [hlow, modeFor, Hardware.setDirectSampling, Hardware.setAgcMode,
        Hardware.setTunerGainMode, hok.setDirectSampling]
    · have hflag : s.directSampling = true := by simpa [hlow] using hagree
      rw [if_pos ⟨by omega, hflag⟩, if_neg (by simp [hok.setDirectSampling]),
        if_neg (by simp [hok.setTunerGainMode]), if_neg (by simp [hok.setTunerGain])] at hswitch
      obtain rfl := Except.ok.inj hswitch
      simp [hlow, modeFor, Hardware.setDirectSampling, Hardware.setAgcMode,
        Hardware.setTunerGainMode, Hardware.setTunerGain, hok.setDirectSampling]

/-- Without a switch, a successful tuning leaves the mode as it is. -/
theorem retune_of_agree (hset : a.setCenterFreq = 0)
    (hagree : s.directSampling = decide (f < 24000000)) :
    ∃ t, retune false a f s = .ok (t, some false) ∧
      t.hardware.directSampling = s.hardware.directSampling := by
  by_cases hsame : s.previousFreq = f
  · exact ⟨s, retune_of_eq hsame, rfl⟩
  · refine ⟨(setCenterFreq a f { s with previousFreq := f }).1, ?_, ?_⟩
    · rw [retune_native_of_ne hsame, retuneNative,
        switchDirectSampling_of_agree (s := { s with previousFreq := f }) hagree]
      simp [setCenterFreq_of_zero _ hset]
    · simp [setCenterFreq_of_zero _ hset]

/-- The flag of the loop agrees with the frequency tuned last, and the device
with both, or it will at the next hop. -/
structure Shadow (s : SyncState) : Prop where
  flag : s.directSampling = decide (s.previousFreq < 24000000)
  device : s.hardware.directSampling = some (modeFor s.previousFreq) ∨
    (s.previousFreq < 24000000 ∧ 24000000 ≤ s.hopping.hop)

theorem Shadow.of_sameTuning (hst : SameTuning s t)
    (hflag : s.directSampling = decide (s.previousFreq < 24000000))
    (hdevice : s.hardware.directSampling = some (modeFor s.previousFreq)) : Shadow t := by
  refine ⟨?_, Or.inl ?_⟩
  · rw [hst.directSampling, hst.previousFreq, hflag]
  · rw [hst.hardware, hst.previousFreq, hdevice]

theorem retuneNative_shadow {mustInvert : Option Bool}
    (henabled : a.context.directSamplingMode = 2) (hok : Succeeds a)
    (hflag : s.directSampling = decide (s.previousFreq < 24000000))
    (hdevice : s.hardware.directSampling = some (modeFor s.previousFreq) ∨
      (s.previousFreq < 24000000 ∧ 24000000 ≤ f))
    (hrun : retuneNative a f { s with previousFreq := f } = .ok (t, mustInvert)) :
    t.directSampling = decide (t.previousFreq < 24000000) ∧
      t.hardware.directSampling = some (modeFor t.previousFreq) ∧ t.previousFreq = f := by
  obtain ⟨u, hswitch, rfl, _⟩ := retuneNative_cases hrun
  obtain ⟨_, _, hprevious, _⟩ := switchDirectSampling_frame hswitch
  obtain ⟨huflag, humode⟩ := switchDirectSampling_of_enabled henabled hok hswitch
  rw [setCenterFreq_of_zero _ hok.setCenterFreq]
  have hfreq : u.previousFreq = f := hprevious
  refine ⟨by rw [huflag, hfreq], ?_, hfreq⟩
  change u.hardware.directSampling = some (modeFor u.previousFreq)
  rw [humode, hfreq]
  split_ifs with hsame
  · -- no switch: the old frequency was on the same side of 24 MHz
    have hside : s.previousFreq < 24000000 ↔ f < 24000000 := by
      rw [← decide_eq_decide, ← hflag]
      exact hsame
    rcases hdevice with hmode | ⟨hlow, hhigh⟩
    · change s.hardware.directSampling = _
      rw [hmode]
      simp [modeFor, hside]
    · omega
  · rfl

/-- The step lemma: every read is done in the mode of its frequency. -/
theorem iterate_shadow {s' : SyncState} {o : Option Capture} (hs : Shadow s)
    (henabled : a.context.directSamplingMode = 2) (hok : Succeeds a)
    (hiter : iterate false s a = .ok (s', o)) :
    Shadow s' ∧ ∀ c ∈ o, c.hardware.directSampling = some (modeFor c.centerFreq) := by
  obtain ⟨t, mustInvert, hretune, hcase⟩ := iterate_eq_ok hiter
  have ht : t.directSampling = decide (t.previousFreq < 24000000) ∧
      t.hardware.directSampling = some (modeFor t.previousFreq) ∧
      t.previousFreq = s.hopping.hop := by
    by_cases hsame : s.previousFreq = s.hopping.hop
    · rw [retune_of_eq (s := { s with hopping := s.hopping.advance }) hsame] at hretune
      obtain ⟨rfl, rfl⟩ := Prod.mk.inj (Except.ok.inj hretune)
      refine ⟨hs.flag, ?_, hsame⟩
      rcases hs.device with hmode | ⟨hlow, hhigh⟩
      · exact hmode
      · omega
    · rw [retune_native_of_ne (s := { s with hopping := s.hopping.advance }) hsame] at hretune
      exact retuneNative_shadow (s := { s with hopping := s.hopping.advance })
        henabled hok hs.flag hs.device hretune
  obtain ⟨hflag, hmode, hfreq⟩ := ht
  rcases hcase with ⟨rfl, rfl, rfl⟩ | ⟨invert, rfl, rfl, rfl⟩
  · exact ⟨⟨hflag, Or.inl hmode⟩, by simp⟩
  · refine ⟨.of_sameTuning (sameTuning_readAndCut a _ invert t) hflag hmode, ?_⟩
    intro c hc
    obtain rfl := Option.mem_some_iff.mp hc
    change (resizeBuffer a t).hardware.directSampling = some (modeFor s.hopping.hop)
    rw [(sameTuning_resizeBuffer a t).hardware, hmode, hfreq]

end Step

/-- A first hop below 24 MHz is read in whatever mode opening has written. -/
theorem first_read_mode (hopping : SequentialHopping) (hardware : Hardware) (a : Answers)
    (hset : a.setCenterFreq = 0) (hlow : hopping.hop < 24000000) :
    ∃ v ∈ SyncSampling false (SyncState.start hopping hardware) [a], ∃ c ∈ v.output,
      c.hardware.directSampling = hardware.directSampling ∧ c.centerFreq = hopping.hop := by
  obtain ⟨t, hretune, hmode⟩ := retune_of_agree (a := a) (f := hopping.hop)
    (s := { SyncState.start hopping hardware with hopping := hopping.advance }) hset
    (by simp [SyncState.start, hlow])
  have hiter := iterate_of_read (s := SyncState.start hopping hardware) hretune
  refine ⟨_, by rw [SyncSampling, visits_cons_of_ok rfl hiter]; exact List.mem_cons_self,
    _, rfl, ?_, rfl⟩
  change (resizeBuffer a t).hardware.directSampling = hardware.directSampling
  rw [(sameTuning_resizeBuffer a t).hardware, hmode]
  rfl

theorem shadow_start {hopping : SequentialHopping} {hardware : Hardware} {mode : ℤ}
    (hmode : hardware.directSampling = some mode)
    (h : mode = 2 ∨ 24000000 ≤ hopping.hop) : Shadow (SyncState.start hopping hardware) := by
  refine ⟨by simp [SyncState.start], ?_⟩
  rcases h with rfl | hhigh
  · exact Or.inl hmode
  · exact Or.inr ⟨by simp [SyncState.start], hhigh⟩

/-- Without a converter and below 24 MHz, every read is done in the mode of its
frequency exactly when opening has already found direct sampling configured, or
the first hop does not need it. -/
theorem reads_in_mode_iff (ctx : ElectrosenseContext) (found : Hardware) (a : OpenAnswers)
    (o : Opened) (hopen : openDevice ctx found a = .ok o) (hset : a.setDirectSampling = 0)
    (hconverter : o.converterEnabled = false) (hmin : ctx.minFreq < 24000000)
    (hopping : SequentialHopping) :
    (∀ answers : List Answers,
      (∀ x ∈ answers, Succeeds x ∧
        x.context.directSamplingMode = o.context.directSamplingMode) →
      ∀ v ∈ SyncSampling o.converterEnabled (SyncState.start hopping o.hardware) answers,
        ∀ c ∈ v.output, c.hardware.directSampling = some (modeFor c.centerFreq)) ↔
    (ctx.directSamplingMode = 2 ∨ 24000000 ≤ hopping.hop) := by
  obtain ⟨hinit, hmode, henable⟩ := openDevice_eq_ok hopen
  rw [hset, written_zero] at hmode
  have henabled : o.context.directSamplingMode = 2 := henable (by rw [← hinit, hconverter]) hmin
  rw [hconverter]
  constructor
  · intro hall
    by_contra hneither
    obtain ⟨hctx, hlow⟩ := not_or.mp hneither
    obtain ⟨v, hv, c, hc, hread, hfreq⟩ := first_read_mode hopping o.hardware
      (Answers.success o.context 0) rfl (by omega)
    have hgood := hall [Answers.success o.context 0]
      (fun x hx => by
        obtain rfl := List.mem_singleton.mp hx
        exact ⟨⟨rfl, rfl, rfl, rfl⟩, rfl⟩) v hv c hc
    rw [hread, hmode, hfreq, modeFor, if_pos (by omega)] at hgood
    exact hctx (Option.some.inj hgood)
  · intro hgood answers hanswers v hv c hc
    have hinputs : ∀ v ∈ SyncSampling false (SyncState.start hopping o.hardware) answers,
        v.input ∈ answers := fun v hv => input_mem_of_mem_visits hv
    obtain ⟨hinv, ⟨hok, hctx⟩, s', hiter⟩ := visits_inv Shadow
      (fun v => Succeeds v.input ∧ v.input.context.directSamplingMode = 2)
      (fun s a s' o hs hiter hmeets => (iterate_shadow hs hmeets.2 hmeets.1 hiter).1)
      (shadow_start hmode hgood) answers
      (fun v hv => by
        obtain ⟨hok, hctx⟩ := hanswers v.input (hinputs v hv)
        exact ⟨hok, hctx.trans henabled⟩) v hv
    exact (iterate_shadow hinv hctx hok hiter).2 c hc

/-- A range that begins below 24 MHz, with the first hop above or below it. -/
def lowBand (minFreq : ℕ) : ElectrosenseContext :=
  { singleWindow with minFreq := minFreq, maxFreq := 30000000 }

theorem reads_in_mode_iff_low_band :
    ∃ o, openDevice (lowBand 23500000) {} OpenAnswers.success = .ok o ∧
      ∀ answers : List Answers,
        (∀ x ∈ answers, Succeeds x ∧
          x.context.directSamplingMode = o.context.directSamplingMode) →
        ∀ v ∈ SyncSampling o.converterEnabled
            (SyncState.start (.ofFreqs [24500000, 23500000] (List.cons_ne_nil _ _)) o.hardware)
            answers,
          ∀ c ∈ v.output, c.hardware.directSampling = some (modeFor c.centerFreq) := by
  refine ⟨_, rfl, ?_⟩
  exact (reads_in_mode_iff (lowBand 23500000) {} OpenAnswers.success _ rfl rfl rfl (by decide)
    _).mpr (Or.inr (by decide))

theorem first_low_hop_read_in_wrong_mode :
    ∃ o, openDevice (lowBand 1000000) {} OpenAnswers.success = .ok o ∧
      o.context.directSamplingMode = 2 ∧
      ∃ v ∈ SyncSampling o.converterEnabled
          (SyncState.start (.ofFreqs [2000000] (List.cons_ne_nil _ _)) o.hardware)
          [Answers.success o.context 512],
        ∃ c ∈ v.output, c.readOk = true ∧ c.centerFreq = 2000000 ∧
          c.hardware.directSampling = some 0 :=
  ⟨_, rfl, rfl, by decide +kernel⟩

end EsSensor.DirectSampling
