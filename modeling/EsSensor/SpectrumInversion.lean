import EsSensor.RtlsdrDriver

/-!
Whether the samples are inverted as the converter asks. The flag is cleared on
every iteration and learned again only by those that retune.
-/
namespace EsSensor.SpectrumInversion

open CheckedLoop LoopTrace RtlsdrDriver

/-- `255 - I` for every I byte, which are those at even positions. -/
def invert (buf : List UInt8) : List UInt8 :=
  buf.mapIdx (fun i b => if i % 2 = 0 then 255 - b else b)

theorem length_invert (buf : List UInt8) : (invert buf).length = buf.length := List.length_mapIdx

/-- The inversion as far as n rounds of the loop have come. -/
def invertUpTo (n : ℕ) (buf : List UInt8) : List UInt8 :=
  buf.mapIdx (fun i b => if i % 2 = 0 ∧ i < 2 * n then 255 - b else b)

theorem getElem?_invertUpTo (n : ℕ) (buf : List UInt8) (i : ℕ) :
    (invertUpTo n buf)[i]? =
      buf[i]?.map (fun b => if i % 2 = 0 ∧ i < 2 * n then 255 - b else b) := by
  simp [invertUpTo]

theorem invertUpTo_succ (n : ℕ) (buf : List UInt8) (b : UInt8) (hb : buf[2 * n]? = some b) :
    (invertUpTo n buf).set (2 * n) (255 - b) = invertUpTo (n + 1) buf := by
  apply List.ext_getElem?
  intro i
  have hlen : 2 * n < buf.length := (List.getElem?_eq_some_iff.mp hb).1
  rw [List.getElem?_set, getElem?_invertUpTo, getElem?_invertUpTo]
  by_cases hi : 2 * n = i
  · subst hi
    rw [if_pos rfl, if_pos (by simpa [invertUpTo] using hlen), hb]
    simp
  · rw [if_neg hi]
    have hiff : (i % 2 = 0 ∧ i < 2 * n) ↔ (i % 2 = 0 ∧ i < 2 * (n + 1)) := by omega
    simp only [hiff]

theorem invertRounds_eq {buf : List UInt8} {n : ℕ} (hn : ∀ k < n, 2 * k < buf.length) :
    (List.range n).foldlM (fun buf k => do
      let b ← readAt buf (2 * k)
      writeAt buf (2 * k) (255 - b)) buf = .ok (invertUpTo n buf) := by
  induction n with
  | zero =>
    have hnone : invertUpTo 0 buf = buf := by
      apply List.ext_getElem?
      intro i
      simp [getElem?_invertUpTo]
    rw [hnone]
    rfl
  | succ n ih =>
    have hlt : 2 * n < buf.length := hn n (Nat.lt_succ_self n)
    have hb : buf[2 * n]? = some buf[2 * n] := List.getElem?_eq_getElem hlt
    have hread : readAt (invertUpTo n buf) (2 * n) = .ok buf[2 * n] := by
      rw [readAt_eq_ok, getElem?_invertUpTo, hb]
      simp
    rw [List.range_succ, List.foldlM_append,
      ih (fun k hk => hn k (Nat.lt_succ_of_lt hk)), ok_bind]
    simp only [List.foldlM_cons, List.foldlM_nil, hread, ok_bind]
    rw [writeAt_of_lt (by simpa [invertUpTo] using hlt), ok_bind, invertUpTo_succ n buf _ hb]
    rfl

theorem invertLoop_eq {buf : List UInt8} {nRead : ℕ} (hread : nRead = buf.length) :
    invertLoop nRead buf = .ok (invert buf) := by
  rw [invertLoop, invertRounds_eq (fun k hk => by omega)]
  congr 1
  apply List.ext_getElem?
  intro i
  rw [getElem?_invertUpTo, invert, List.getElem?_mapIdx]
  cases hi : buf[i]? with
  | none => rfl
  | some b =>
    have hlt : i < buf.length := (List.getElem?_eq_some_iff.mp hi).1
    have hiff : (i % 2 = 0 ∧ i < 2 * ((nRead + 1) / 2)) ↔ i % 2 = 0 := by omega
    simp only [hiff]

/-- The most recent successful tuning of the converter asked for inversion. -/
def Asked (h : Hardware) : Prop := ∃ t ∈ h.tune, t.mustInvert = true

instance (h : Hardware) : Decidable (Asked h) := by
  unfold Asked
  infer_instance

/-- The buffer after the read is inverted if and only if that was asked for. -/
def FollowsConverter (c : Capture) : Prop :=
  (c.mustInvert = true ↔ Asked c.hardware) ∧
    c.iqBuf = .ok (if c.mustInvert then invert c.raw else c.raw)

/-- The read of this iteration delivers what was asked of it. -/
def ReadSucceeds (s : SyncState) (a : Answers) : Prop :=
  a.readSync = 0 ∧ a.nRead = (resizeBuffer a s).slen

section Step

variable {a : Answers} {s t s' : SyncState} {o : Option Capture}

theorem readOk_capture (f : ℕ) (mustInvert : Bool) (s : SyncState) :
    (capture a f mustInvert (resizeBuffer a s)).readOk = true ↔ ReadSucceeds s a :=
  decide_eq_true_iff

theorem iqBuf_of_readOk {f : ℕ} {b : Bool} (hs : Sized s) (hread : ReadSucceeds s a) :
    (capture a f b (resizeBuffer a s)).iqBuf =
      .ok (if b then invert (transfer a.data (resizeBuffer a s).iqBuf)
        else transfer a.data (resizeBuffer a s).iqBuf) := by
  cases b with
  | false => rfl
  | true =>
    have hlen : a.nRead = (transfer a.data (resizeBuffer a s).iqBuf).length := by
      rw [length_transfer, hread.2]
      exact (sized_resizeBuffer a hs).symm
    exact invertLoop_eq hlen

theorem running_readAndCut {f : ℕ} {b : Bool} (hs : Sized s) (hread : ReadSucceeds s a) :
    (readAndCut a f b s).1.running = ((resizeBuffer a s).running &&
      (cutSegments a.context (if b then invert (transfer a.data (resizeBuffer a s).iqBuf)
        else transfer a.data (resizeBuffer a s).iqBuf)).toBool) := by
  change ((resizeBuffer a s).running && (capture a f b (resizeBuffer a s)).readOk &&
    ((capture a f b (resizeBuffer a s)).iqBuf >>= cutSegments a.context).toBool) = _
  rw [iqBuf_of_readOk hs hread, (readOk_capture f b s).mpr hread, Bool.and_true, ok_bind]

/-- A hop that equals the previous one is read without inversion. -/
theorem iterate_of_repeat (hsame : s.previousFreq = s.hopping.hop) :
    ∃ s' c, iterate true s a = .ok (s', some c) ∧ c.hardware = s.hardware ∧
      c.mustInvert = false ∧ c.iqBuf = .ok c.raw ∧ (c.readOk = true ↔ ReadSucceeds s a) := by
  have hskip : retune true a s.hopping.hop { s with hopping := s.hopping.advance } =
      .ok ({ s with hopping := s.hopping.advance }, some false) := retune_of_eq hsame
  have hiter := iterate_of_read hskip
  refine ⟨_, _, hiter, ?_, rfl, rfl, ?_⟩
  · exact (sameTuning_resizeBuffer a { s with hopping := s.hopping.advance }).hardware
  · have hread : ReadSucceeds { s with hopping := s.hopping.advance } a ↔ ReadSucceeds s a := by
      unfold ReadSucceeds resizeBuffer
      split <;> rfl
    exact (readOk_capture _ _ _).trans hread

/-- A retuning iteration inverts as the converter has just answered. -/
theorem retuneConverter_tune {f : ℕ} {invert : Bool}
    (hrun : retuneConverter a f s = .ok (t, some invert)) :
    ∃ answer, t.hardware.tune = some ⟨f / 1000, answer, invert⟩ := by
  obtain ⟨answer, _, ⟨_, rfl, hinvert⟩ | ⟨_, rfl, hinvert⟩⟩ := retuneConverter_cases hrun
  · obtain rfl := Option.some.inj hinvert
    exact ⟨answer.1, rfl⟩
  · by_cases hzero : a.setCenterFreq = 0
    · rw [if_pos hzero] at hinvert
      obtain rfl := Option.some.inj hinvert
      exact ⟨answer.1, by rw [setCenterFreq_tune]; rfl⟩
    · rw [if_neg hzero] at hinvert
      cases hinvert

/-- One iteration follows the converter unless it reads without retuning while
the last answer asked for inversion. -/
theorem iterate_follows_iff (hs : Sized s) (hiter : iterate true s a = .ok (s', o)) :
    (∀ c ∈ o, c.readOk = true → FollowsConverter c) ↔
      (ReadSucceeds s a → s.previousFreq = s.hopping.hop → ¬ Asked s.hardware) := by
  by_cases hsame : s.previousFreq = s.hopping.hop
  · obtain ⟨_, c, hrepeat, hhardware, hinvert, hiqBuf, hread⟩ := iterate_of_repeat (a := a) hsame
    obtain ⟨rfl, rfl⟩ := Prod.mk.inj (Except.ok.inj (hrepeat.symm.trans hiter))
    simp [FollowsConverter, hhardware, hinvert, hiqBuf, hread, hsame]
  · refine ⟨fun _ _ heq => absurd heq hsame, fun _ => ?_⟩
    obtain ⟨t, mustInvert, hretune, hcase⟩ := iterate_eq_ok hiter
    have ht : Sized t := Sized.of_sameBuffer
      (s := { s with hopping := s.hopping.advance }) hs (sameBuffer_retune hretune)
    rw [retune_converter_of_ne (s := { s with hopping := s.hopping.advance }) hsame] at hretune
    rcases hcase with ⟨rfl, rfl, rfl⟩ | ⟨invert, rfl, rfl, rfl⟩
    · simp
    obtain ⟨answer, htune⟩ := retuneConverter_tune hretune
    intro c hc hok
    obtain rfl := Option.mem_some_iff.mp hc
    refine ⟨?_, iqBuf_of_readOk ht ((readOk_capture _ _ _).mp hok)⟩
    change invert = true ↔ Asked (resizeBuffer a t).hardware
    rw [(sameTuning_resizeBuffer a t).hardware]
    simp [Asked, htune]

end Step

/-- Every successful read follows the converter exactly when no such read is
done on a repeated frequency whose tuning asked for inversion. -/
theorem reads_follow_converter_iff (hopping : SequentialHopping) (hardware : Hardware)
    (answers : List Answers) :
    (∀ v ∈ SyncSampling true (SyncState.start hopping hardware) answers,
      ∀ c ∈ v.output, c.readOk = true → FollowsConverter c) ↔
    (∀ v ∈ SyncSampling true (SyncState.start hopping hardware) answers,
      ReadSucceeds v.state v.input → v.state.previousFreq = v.state.hopping.hop →
        ¬ Asked v.state.hardware) := by
  apply forall₂_congr
  intro v hv
  obtain ⟨hs, s', hiter⟩ := sampling_sized v hv
  exact iterate_follows_iff hs hiter

/-- The converter answers that its intermediate band of 1 GHz is mirrored. -/
def mirrored : Answers :=
  { Answers.success singleWindow 512 with converterTune := some (1000000, true) }

/-- With a single hop the converter is tuned once; the second read is mirrored. -/
theorem single_hop_not_inverted :
    ∃ v ∈ SyncSampling true
        (SyncState.start (.ofFreqs [2100000000] (List.cons_ne_nil _ _)) opened)
        [mirrored, Answers.success singleWindow 512],
      ∃ c ∈ v.output, c.readOk = true ∧ Asked c.hardware ∧ c.mustInvert = false ∧
        c.iqBuf = .ok c.raw := by
  let start := SyncState.start (.ofFreqs [2100000000] (List.cons_ne_nil _ _)) opened
  obtain ⟨t, hretune, ht, hrepeat, hasked⟩ :
      ∃ t, retune true mirrored start.hopping.hop
          { start with hopping := start.hopping.advance } = .ok (t, some true) ∧
        (t.fftSize = 0 ∧ t.iqBuf = [] ∧ t.slen = 0 ∧ t.running = true) ∧
        t.previousFreq = t.hopping.hop ∧ Asked t.hardware :=
    ⟨_, rfl, ⟨rfl, rfl, rfl, rfl⟩, rfl, by decide⟩
  obtain ⟨hfft, hbuf, hslen, hrunning⟩ := ht
  have hresize : resizeBuffer mirrored t =
      { t with fftSize := 4, slen := 512, iqBuf := resize (fun _ => 0) 512 [] } := by
    rw [resizeBuffer, if_pos (by rw [hfft]; decide), hbuf]
    rfl
  have hgo : (readAndCut mirrored start.hopping.hop true t).1.running = true := by
    rw [running_readAndCut (by rw [Sized, hbuf, hslen]; rfl) ⟨rfl, by rw [hresize]; rfl⟩,
      hresize]
    dsimp only
    rw [hrunning]
    decide +kernel
  have hframe := sameTuning_readAndCut mirrored start.hopping.hop true t
  obtain ⟨s', c, hsecond, hhardware, hinvert, hiqBuf, hread⟩ :=
    iterate_of_repeat (a := Answers.success singleWindow 512)
      (s := (readAndCut mirrored start.hopping.hop true t).1)
      (by rw [hframe.previousFreq, hframe.hopping, hrepeat])
  have hkept : resizeBuffer (Answers.success singleWindow 512)
      (readAndCut mirrored start.hopping.hop true t).1 =
        (readAndCut mirrored start.hopping.hop true t).1 := by
    rw [resizeBuffer, if_neg]
    change ¬ (resizeBuffer mirrored t).fftSize ≠ 4
    simp [hresize]
  have hlength : (readAndCut mirrored start.hopping.hop true t).1.slen = 512 := by
    change (resizeBuffer mirrored t).slen = 512
    rw [hresize]
  have hfirst : iterate true start mirrored =
      .ok ((readAndCut mirrored start.hopping.hop true t).1, some _) :=
    iterate_of_read (s := start) hretune
  have hmem : ⟨(readAndCut mirrored start.hopping.hop true t).1,
      Answers.success singleWindow 512, some c⟩ ∈
        SyncSampling true start [mirrored, Answers.success singleWindow 512] := by
    rw [SyncSampling, visits_cons_of_ok rfl hfirst, visits_cons_of_ok hgo hsecond]
    exact List.mem_cons_of_mem _ List.mem_cons_self
  exact ⟨_, hmem, c, rfl, hread.mpr ⟨rfl, by rw [hkept, hlength]; rfl⟩,
    by rw [hhardware, hframe.hardware]; exact hasked, hinvert, hiqBuf⟩

end EsSensor.SpectrumInversion
