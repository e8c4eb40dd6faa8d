import EsSensor.ElectrosenseContext
import EsSensor.SequentialHopping
import EsSensor.SpectrumSegment
import EsSensor.Library.LoopTrace
import EsSensor.Library.MachineWord

/-!
The driver of the dongle: opening it, and the sampling loop of the spectrum
pipeline with its tuning, its buffer and its reads. The results of device calls,
the answers of the frequency converter, the data read and the configuration as
other threads leave it come from outside, anew for every iteration.
-/
namespace EsSensor.RtlsdrDriver

open CheckedLoop LoopTrace MachineWord

/-- A successful `converterTune`: the request in kHz and what it answered. -/
structure Tune where
  request : ℕ
  proxyFreq : ℕ
  mustInvert : Bool
  deriving DecidableEq, Repr

/-- The settings that the last successful calls have left in the devices. -/
structure Hardware where
  centerFreq : Option ℕ := none
  directSampling : Option ℤ := none
  agcMode : Option ℤ := none
  tunerGainMode : Option ℤ := none
  tunerGain : Option ℤ := none
  tune : Option Tune := none
  deriving DecidableEq, Repr

/-- A setting after a call with result r; zero is success. -/
def written {β : Type} (r : ℤ) (old : Option β) (new : β) : Option β :=
  if r = 0 then some new else old

@[simp] theorem written_zero {β : Type} (old : Option β) (new : β) :
    written 0 old new = some new := rfl

namespace Hardware

/-- The library takes the frequency as a 32-bit word. -/
def setCenterFreq (h : Hardware) (r : ℤ) (freq : ℕ) : Hardware :=
  { h with centerFreq := written r h.centerFreq (u32 freq) }

def setDirectSampling (h : Hardware) (r mode : ℤ) : Hardware :=
  { h with directSampling := written r h.directSampling mode }

def setAgcMode (h : Hardware) (r mode : ℤ) : Hardware :=
  { h with agcMode := written r h.agcMode mode }

def setTunerGainMode (h : Hardware) (r mode : ℤ) : Hardware :=
  { h with tunerGainMode := written r h.tunerGainMode mode }

def setTunerGain (h : Hardware) (r gain : ℤ) : Hardware :=
  { h with tunerGain := written r h.tunerGain gain }

end Hardware

/-- What the calls of `open` return, in their order. -/
structure OpenAnswers where
  deviceCount : ℤ
  rtlsdrOpen : ℤ
  setDirectSampling : ℤ
  setSampleRate : ℤ
  setCenterFreq : ℤ
  setTunerGainMode : ℤ
  setTunerGain : ℤ
  converterInit : Bool

/-- One dongle without a converter, and no failure. -/
def OpenAnswers.success : OpenAnswers where
  deviceCount := 1
  rtlsdrOpen := 0
  setDirectSampling := 0
  setSampleRate := 0
  setCenterFreq := 0
  setTunerGainMode := 0
  setTunerGain := 0
  converterInit := false

structure Opened where
  context : ElectrosenseContext
  hardware : Hardware
  converterEnabled : Bool

/-- `rtlsdrDriver::open` on devices as they were found. A missing buffer reset
is only reported, so its result does not matter. -/
def openDevice (ctx : ElectrosenseContext) (found : Hardware) (a : OpenAnswers) :
    Except Fault Opened := do
  if a.deviceCount = 0 then .error (.thrown "Fatal Error")
  else if a.rtlsdrOpen < 0 then .error (.thrown "Fatal Error")
  else if a.setDirectSampling < 0 then
    .error (.thrown "Fatal Error, rtlsdr_set_direct_sampling")
  else if a.setSampleRate < 0 then .error (.thrown "Fatal Error")
  else if a.setCenterFreq < 0 then .error (.thrown "Fatal Error")
  else if a.setTunerGainMode < 0 then .error (.thrown "Fatal Error")
  else if a.setTunerGain < 0 then .error (.thrown "Fatal Error")
  else
    let hardware := (((found.setDirectSampling a.setDirectSampling ctx.directSamplingMode
      ).setCenterFreq a.setCenterFreq 24000000).setTunerGainMode a.setTunerGainMode 1
      ).setTunerGain a.setTunerGain (truncate ctx.gain * 10)
    let context :=
      if a.converterInit = false ∧ ctx.minFreq < 24000000 then ctx.setDirectSamplingMode 2
      else ctx
    .ok ⟨context, hardware, a.converterInit⟩

/-- What one iteration of the loop gets from outside. -/
structure Answers where
  context : ElectrosenseContext
  converterTune : Option (ℕ × Bool)
  setCenterFreq : ℤ
  resetBuffer : ℤ
  setDirectSampling : ℤ
  setAgcMode : ℤ
  setTunerGainMode : ℤ
  setTunerGain : ℤ
  heap : ℕ → UInt8
  currentTime : Timespec
  readSync : ℤ
  nRead : ℕ
  data : List UInt8

/-- Every call succeeds and the read delivers silence. -/
def Answers.success (ctx : ElectrosenseContext) (slen : ℕ) : Answers where
  context := ctx
  converterTune := none
  setCenterFreq := 0
  resetBuffer := 0
  setDirectSampling := 0
  setAgcMode := 0
  setTunerGainMode := 0
  setTunerGain := 0
  heap := fun _ => 0
  currentTime := ⟨0, 0⟩
  readSync := 0
  nRead := slen
  data := List.replicate slen 127

/-- One short window for each hop, from a buffer of the smallest length. -/
def singleWindow : ElectrosenseContext where
  log2FftSize := 2
  avgFactor := 1
  soverlap := 0

/-- The dongle as it is opened: at 24 MHz. -/
def opened : Hardware where
  centerFreq := some 24000000
  directSampling := some 0

/-- The variables of `SyncSampling` at the head of its loop. `lastSet` is not
one of them: it remembers whether the last `rtlsdr_set_center_freq` of the loop
succeeded. -/
structure SyncState where
  hopping : SequentialHopping
  hardware : Hardware
  previousFreq : ℕ := 0
  previousProxyFreq : ℕ := 0
  fftSize : ℕ := 0
  slen : ℕ := 0
  iqBuf : List UInt8 := []
  directSampling : Bool := true
  running : Bool := true
  lastSet : Option Bool := none

/-- One read, with the settings of the devices at that moment. -/
structure Capture where
  hardware : Hardware
  centerFreq : ℕ
  currentTime : Timespec
  samplingRate : ℕ
  readOk : Bool
  mustInvert : Bool
  raw : List UInt8
  iqBuf : Except Fault (List UInt8)
  iqVectors : Except Fault (List (List (UInt8 × UInt8)))

/-- Sets the frequency and resets the buffer. The result tells whether the loop
goes on to the read: `continue` follows a failure. -/
def setCenterFreq (a : Answers) (freq : ℕ) (s : SyncState) : SyncState × Bool :=
  let s := { s with
    hardware := s.hardware.setCenterFreq a.setCenterFreq freq
    lastSet := some (decide (a.setCenterFreq = 0)) }
  if a.setCenterFreq ≠ 0 then (s, false)
  else ({ s with running := s.running && decide (0 ≤ a.resetBuffer) }, true)

/-- The dongle receives at the intermediate frequency of the converter. The
result tells whether to read, and then whether to invert. -/
def retuneConverter (a : Answers) (centerFreq : ℕ) (s : SyncState) :
    Except Fault (SyncState × Option Bool) :=
  match a.converterTune with
  | none => .error (.thrown "Failed to converterTune")
  | some (proxyFreq, mustInvert) =>
    let s := { s with
      hardware := { s.hardware with
        tune := some ⟨centerFreq / 1000, proxyFreq, mustInvert⟩ } }
    if s.previousProxyFreq ≠ proxyFreq then
      let (s, read) := setCenterFreq a (proxyFreq * 1000)
        { s with previousProxyFreq := proxyFreq }
      .ok (s, if read then some mustInvert else none)
    else .ok (s, some mustInvert)

/-- Direct sampling is switched when the hops cross 24 MHz. -/
def switchDirectSampling (a : Answers) (centerFreq : ℕ) (s : SyncState) :
    Except Fault SyncState :=
  if 0 < a.context.directSamplingMode then
    if 24000000 ≤ centerFreq ∧ s.directSampling = true then
      if a.setDirectSampling < 0 then
        .error (.thrown "Fatal Error, unable to disable direct_sampling")
      else if a.setTunerGainMode < 0 then .error (.thrown "Fatal Error")
      else if a.setTunerGain < 0 then .error (.thrown "Fatal Error")
      else
        .ok { s with
          hardware := (((s.hardware.setDirectSampling a.setDirectSampling 0
            ).setAgcMode a.setAgcMode 0).setTunerGainMode a.setTunerGainMode 1
            ).setTunerGain a.setTunerGain (truncate a.context.gain * 10)
          directSampling := false }
    else if centerFreq < 24000000 ∧ s.directSampling = false then
      if a.setDirectSampling < 0 then
        .error (.thrown "Fatal Error, unable to set direct_sampling")
      else
        .ok { s with
          hardware := ((s.hardware.setDirectSampling a.setDirectSampling 2
            ).setTunerGainMode a.setTunerGainMode 0).setAgcMode a.setAgcMode 1
          directSampling := true }
    else .ok s
  else .ok s

def retuneNative (a : Answers) (centerFreq : ℕ) (s : SyncState) :
    Except Fault (SyncState × Option Bool) := do
  let s ← switchDirectSampling a centerFreq s
  let (s, read) := setCenterFreq a centerFreq s
  .ok (s, if read then some false else none)

/-- The tuning part of an iteration, left out when the hop is the previous one. -/
def retune (converterEnabled : Bool) (a : Answers) (centerFreq : ℕ) (s : SyncState) :
    Except Fault (SyncState × Option Bool) :=
  if s.previousFreq ≠ centerFreq then
    let s := { s with previousFreq := centerFreq }
    if converterEnabled then retuneConverter a centerFreq s else retuneNative a centerFreq s
  else .ok (s, some false)

def bulkTransferMultiple : ℕ := 512

/-- The bytes to read, rounded up for the bulk transfer. -/
def readLength (ctx : ElectrosenseContext) : ℕ :=
  let slen := u32 ((u32Sub ctx.fftSize ctx.soverlap * ctx.avgFactor +
    ctx.soverlap) * 2)
  if slen % bulkTransferMultiple ≠ 0 then
    slen + (bulkTransferMultiple - slen % bulkTransferMultiple)
  else slen

/-- `realloc`: what is kept is the common beginning. -/
def resize (heap : ℕ → UInt8) (slen : ℕ) (buf : List UInt8) : List UInt8 :=
  (List.range slen).map (fun i => buf.getD i (heap i))

/-- The buffer is adapted when the size of the transform has changed. -/
def resizeBuffer (a : Answers) (s : SyncState) : SyncState :=
  if s.fftSize ≠ a.context.fftSize then
    { s with
      fftSize := a.context.fftSize
      slen := readLength a.context
      iqBuf := resize a.heap (readLength a.context) s.iqBuf }
  else s

/-- A transfer overwrites the beginning of the buffer. -/
def transfer (data buf : List UInt8) : List UInt8 :=
  data.take buf.length ++ buf.drop data.length

/-- `for (i = 0; i < n_read; i += 2) iq_buf[i] = 255 - iq_buf[i];` -/
def invertLoop (nRead : ℕ) (buf : List UInt8) : Except Fault (List UInt8) :=
  (List.range ((nRead + 1) / 2)).foldlM (fun buf k => do
    let b ← readAt buf (2 * k)
    writeAt buf (2 * k) (255 - b)) buf

/-- The samples of segment number i; indices are unsigned words. -/
def cutSegment (ctx : ElectrosenseContext) (buf : List UInt8) (i : ℕ) :
    Except Fault (List (UInt8 × UInt8)) :=
  let start := u32 (i * u32Sub ctx.fftSize ctx.soverlap * 2)
  (List.range (u32 (ctx.fftSize * 2) / 2)).mapM (fun k => do
    let re ← readAt buf (u32 (2 * k + start))
    let im ← readAt buf (u32 (2 * k + 1 + start))
    .ok (re, im))

def cutSegments (ctx : ElectrosenseContext) (buf : List UInt8) :
    Except Fault (List (List (UInt8 × UInt8))) :=
  (List.range ctx.avgFactor).mapM (cutSegment ctx buf)

/-- The read and what is cut from it, also when the read has failed. -/
def capture (a : Answers) (centerFreq : ℕ) (mustInvert : Bool) (s : SyncState) : Capture :=
  let raw := transfer a.data s.iqBuf
  let iqBuf := if mustInvert then invertLoop a.nRead raw else .ok raw
  { hardware := s.hardware
    centerFreq := centerFreq
    currentTime := a.currentTime
    samplingRate := a.context.samplingRate
    readOk := decide (a.readSync = 0 ∧ a.nRead = s.slen)
    mustInvert := mustInvert
    raw := raw
    iqBuf := iqBuf
    iqVectors := iqBuf >>= cutSegments a.context }

/-- The rest of an iteration. A failed read stops the loop after it; an access
outside the buffer ends the run. -/
def readAndCut (a : Answers) (centerFreq : ℕ) (mustInvert : Bool) (s : SyncState) :
    SyncState × Option Capture :=
  let s := resizeBuffer a s
  let c := capture a centerFreq mustInvert s
  ({ s with
      iqBuf := c.iqBuf.toOption.getD c.raw
      running := s.running && c.readOk && c.iqVectors.toBool }, some c)

/-- One iteration of the loop of `SyncSampling`. -/
def iterate (converterEnabled : Bool) (s : SyncState) (a : Answers) :
    Except Fault (SyncState × Option Capture) := do
  let (centerFreq, hopping) := s.hopping.nextHop
  let (s, mustInvert) ← retune converterEnabled a centerFreq { s with hopping := hopping }
  match mustInvert with
  | none => .ok (s, none)
  | some mustInvert => .ok (readAndCut a centerFreq mustInvert s)

/-- The iterations of `SyncSampling`, each with its read if it got to one. -/
def SyncSampling (converterEnabled : Bool) (s : SyncState) (answers : List Answers) :
    List (Visit SyncState Answers (Option Capture)) :=
  visits SyncState.running (iterate converterEnabled) s answers

/-- The variables when the loop is entered. -/
def SyncState.start (hopping : SequentialHopping) (hardware : Hardware) : SyncState where
  hopping := hopping
  hardware := hardware

/-- The segments that an iteration puts into the queue. -/
def Capture.enqueued (K : Type) [NatCast K] (c : Capture) : List (SpectrumSegment K) :=
  match c.iqVectors with
  | .error _ => []
  | .ok iqVectors => iqVectors.map (fun iqVector =>
    { sensorId := -1000
      timeStamp := c.currentTime
      centerFrequency := c.centerFreq
      samplingRate := c.samplingRate
      iqSamples := iqVector.map (fun iq => ((iq.1.toNat : K), (iq.2.toNat : K))) })

/-- Every segment carries the data of its capture. -/
theorem mem_enqueued {K : Type} [NatCast K] {c : Capture} {segment : SpectrumSegment K}
    (hsegment : segment ∈ c.enqueued K) :
    segment.centerFrequency = c.centerFreq ∧ segment.timeStamp = c.currentTime ∧
      segment.samplingRate = c.samplingRate := by
  unfold Capture.enqueued at hsegment
  cases hvectors : c.iqVectors with
  | error e => simp [hvectors] at hsegment
  | ok iqVectors =>
    simp only [hvectors, List.mem_map] at hsegment
    obtain ⟨iqVector, _, rfl⟩ := hsegment
    exact ⟨rfl, rfl, rfl⟩

/-- One segment for each averaging step, unless the cut has left the buffer. -/
theorem length_enqueued (K : Type) [NatCast K] {a : Answers} {centerFreq : ℕ}
    {mustInvert : Bool} {s : SyncState}
    (hcut : (capture a centerFreq mustInvert s).iqVectors.toBool = true) :
    ((capture a centerFreq mustInvert s).enqueued K).length = a.context.avgFactor := by
  unfold Capture.enqueued
  cases hvectors : (capture a centerFreq mustInvert s).iqVectors with
  | error e => simp [hvectors, Except.toBool] at hcut
  | ok iqVectors =>
    obtain ⟨buf, _, hcutSegments⟩ := bind_eq_ok.mp hvectors
    have hlength := length_mapM hcutSegments
    rw [List.length_range] at hlength
    simp [hlength]

section Frames

variable {a : Answers} {s t s' : SyncState}

/-- What neither the buffer nor the read touches. -/
structure SameTuning (s s' : SyncState) : Prop where
  hopping : s'.hopping = s.hopping
  hardware : s'.hardware = s.hardware
  previousFreq : s'.previousFreq = s.previousFreq
  previousProxyFreq : s'.previousProxyFreq = s.previousProxyFreq
  directSampling : s'.directSampling = s.directSampling
  lastSet : s'.lastSet = s.lastSet

theorem sameTuning_resizeBuffer (a : Answers) (s : SyncState) :
    SameTuning s (resizeBuffer a s) := by
  unfold resizeBuffer
  split <;> exact ⟨rfl, rfl, rfl, rfl, rfl, rfl⟩

theorem sameTuning_readAndCut (a : Answers) (centerFreq : ℕ) (mustInvert : Bool)
    (s : SyncState) : SameTuning s (readAndCut a centerFreq mustInvert s).1 := by
  have hbuf := sameTuning_resizeBuffer a s
  exact ⟨hbuf.hopping, hbuf.hardware, hbuf.previousFreq, hbuf.previousProxyFreq,
    hbuf.directSampling, hbuf.lastSet⟩

/-- An iteration tunes and then reads, or tunes and goes back to its head. -/
theorem iterate_eq_ok {converterEnabled : Bool} {o : Option Capture}
    (hiter : iterate converterEnabled s a = .ok (s', o)) :
    ∃ t mustInvert,
      retune converterEnabled a s.hopping.hop { s with hopping := s.hopping.advance } =
        .ok (t, mustInvert) ∧
      ((mustInvert = none ∧ s' = t ∧ o = none) ∨
        ∃ invert, mustInvert = some invert ∧
          s' = (readAndCut a s.hopping.hop invert t).1 ∧
          o = some (capture a s.hopping.hop invert (resizeBuffer a t))) := by
  obtain ⟨⟨t, mustInvert⟩, hretune, hrest⟩ := bind_eq_ok.mp hiter
  refine ⟨t, mustInvert, hretune, ?_⟩
  cases mustInvert with
  | none =>
    obtain ⟨rfl, rfl⟩ := Prod.mk.inj (Except.ok.inj hrest)
    exact Or.inl ⟨rfl, rfl, rfl⟩
  | some invert =>
    obtain ⟨rfl, rfl⟩ := Prod.mk.inj (Except.ok.inj hrest)
    exact Or.inr ⟨invert, rfl, rfl, rfl⟩

theorem iterate_of_read {converterEnabled invert : Bool}
    (hretune : retune converterEnabled a s.hopping.hop
      { s with hopping := s.hopping.advance } = .ok (t, some invert)) :
    iterate converterEnabled s a = .ok (readAndCut a s.hopping.hop invert t) := by
  simp [iterate, SequentialHopping.nextHop, hretune]

theorem retune_of_eq {converterEnabled : Bool} {centerFreq : ℕ}
    (hsame : s.previousFreq = centerFreq) :
    retune converterEnabled a centerFreq s = .ok (s, some false) := by
  simp [retune, hsame]

theorem retune_converter_of_ne {centerFreq : ℕ} (hdiff : s.previousFreq ≠ centerFreq) :
    retune true a centerFreq s =
      retuneConverter a centerFreq { s with previousFreq := centerFreq } := by
  simp [retune, hdiff]

theorem retune_native_of_ne {centerFreq : ℕ} (hdiff : s.previousFreq ≠ centerFreq) :
    retune false a centerFreq s =
      retuneNative a centerFreq { s with previousFreq := centerFreq } := by
  simp [retune, hdiff]

/-- Switching direct sampling leaves frequencies and the converter alone. -/
theorem switchDirectSampling_frame {centerFreq : ℕ}
    (hswitch : switchDirectSampling a centerFreq s = .ok t) :
    t.hardware.centerFreq = s.hardware.centerFreq ∧ t.hardware.tune = s.hardware.tune ∧
      t.previousFreq = s.previousFreq ∧ t.hopping = s.hopping := by
  unfold switchDirectSampling at hswitch
  split_ifs at hswitch <;> (obtain rfl := Except.ok.inj hswitch; exact ⟨rfl, rfl, rfl, rfl⟩)

theorem setCenterFreq_of_zero (freq : ℕ) (hset : a.setCenterFreq = 0) :
    setCenterFreq a freq s = ({ s with
      hardware := { s.hardware with centerFreq := some (u32 freq) }
      lastSet := some true
      running := s.running && decide (0 ≤ a.resetBuffer) }, true) := by
  simp [setCenterFreq, Hardware.setCenterFreq, hset]

theorem setCenterFreq_of_ne (freq : ℕ) (hset : a.setCenterFreq ≠ 0) :
    setCenterFreq a freq s = ({ s with lastSet := some false }, false) := by
  simp [setCenterFreq, Hardware.setCenterFreq, written, hset]

@[simp] theorem setCenterFreq_read (a : Answers) (freq : ℕ) (s : SyncState) :
    (setCenterFreq a freq s).2 = decide (a.setCenterFreq = 0) := by
  by_cases hzero : a.setCenterFreq = 0
  · simp [setCenterFreq_of_zero freq hzero, hzero]
  · simp [setCenterFreq_of_ne freq hzero, hzero]

@[simp] theorem setCenterFreq_tune (a : Answers) (freq : ℕ) (s : SyncState) :
    (setCenterFreq a freq s).1.hardware.tune = s.hardware.tune := by
  by_cases hzero : a.setCenterFreq = 0
  · rw [setCenterFreq_of_zero freq hzero]
  · rw [setCenterFreq_of_ne freq hzero]

/-- The state once the converter has answered. -/
def converterTuned (centerFreq : ℕ) (answer : ℕ × Bool) (s : SyncState) : SyncState :=
  { s with hardware := { s.hardware with
      tune := some ⟨centerFreq / 1000, answer.1, answer.2⟩ } }

/-- All that tuning with the converter can do: the dongle is left where it is,
or set to a new intermediate frequency. -/
theorem retuneConverter_cases {centerFreq : ℕ} {mustInvert : Option Bool}
    (hrun : retuneConverter a centerFreq s = .ok (t, mustInvert)) :
    ∃ answer ∈ a.converterTune,
      (s.previousProxyFreq = answer.1 ∧ t = converterTuned centerFreq answer s ∧
        mustInvert = some answer.2) ∨
      (s.previousProxyFreq ≠ answer.1 ∧
        t = (setCenterFreq a (answer.1 * 1000)
          { converterTuned centerFreq answer s with previousProxyFreq := answer.1 }).1 ∧
        mustInvert = if a.setCenterFreq = 0 then some answer.2 else none) := by
  unfold retuneConverter at hrun
  cases htune : a.converterTune with
  | none => simp [htune] at hrun
  | some answer =>
    refine ⟨answer, rfl, ?_⟩
    simp only [htune] at hrun
    by_cases hsame : s.previousProxyFreq = answer.1
    · rw [if_neg (not_not.mpr hsame)] at hrun
      obtain ⟨rfl, rfl⟩ := Prod.mk.inj (Except.ok.inj hrun)
      exact Or.inl ⟨hsame, rfl, rfl⟩
    · rw [if_pos hsame] at hrun
      obtain ⟨rfl, rfl⟩ := Prod.mk.inj (Except.ok.inj hrun)
      exact Or.inr ⟨hsame, rfl, by simp⟩

/-- All that tuning without a converter can do. -/
theorem retuneNative_cases {centerFreq : ℕ} {mustInvert : Option Bool}
    (hrun : retuneNative a centerFreq s = .ok (t, mustInvert)) :
    ∃ u, switchDirectSampling a centerFreq s = .ok u ∧ t = (setCenterFreq a centerFreq u).1 ∧
      mustInvert = if a.setCenterFreq = 0 then some false else none := by
  obtain ⟨u, hswitch, hrest⟩ := bind_eq_ok.mp hrun
  have hset : Except.ok ((setCenterFreq a centerFreq u).1,
      if (setCenterFreq a centerFreq u).2 then some false else none) =
      (Except.ok (t, mustInvert) : Except Fault _) := hrest
  obtain ⟨rfl, rfl⟩ := Prod.mk.inj (Except.ok.inj hset)
  exact ⟨u, hswitch, rfl, by simp⟩

/-- What tuning does not touch. -/
structure SameBuffer (s s' : SyncState) : Prop where
  fftSize : s'.fftSize = s.fftSize
  slen : s'.slen = s.slen
  iqBuf : s'.iqBuf = s.iqBuf

theorem sameBuffer_setCenterFreq (a : Answers) (freq : ℕ) (s : SyncState) :
    SameBuffer s (setCenterFreq a freq s).1 := by
  by_cases hzero : a.setCenterFreq = 0
  · rw [setCenterFreq_of_zero freq hzero]
    exact ⟨rfl, rfl, rfl⟩
  · rw [setCenterFreq_of_ne freq hzero]
    exact ⟨rfl, rfl, rfl⟩

theorem sameBuffer_switchDirectSampling {centerFreq : ℕ}
    (hswitch : switchDirectSampling a centerFreq s = .ok t) : SameBuffer s t := by
  unfold switchDirectSampling at hswitch
  split_ifs at hswitch <;> (obtain rfl := Except.ok.inj hswitch; exact ⟨rfl, rfl, rfl⟩)

theorem sameBuffer_retune {converterEnabled : Bool} {centerFreq : ℕ}
    {mustInvert : Option Bool}
    (hretune : retune converterEnabled a centerFreq s = .ok (t, mustInvert)) :
    SameBuffer s t := by
  by_cases hsame : s.previousFreq = centerFreq
  · rw [retune_of_eq hsame] at hretune
    obtain ⟨rfl, rfl⟩ := Prod.mk.inj (Except.ok.inj hretune)
    exact ⟨rfl, rfl, rfl⟩
  cases converterEnabled with
  | true =>
    rw [retune_converter_of_ne hsame] at hretune
    obtain ⟨answer, _, ⟨_, rfl, _⟩ | ⟨_, rfl, _⟩⟩ := retuneConverter_cases hretune
    · exact ⟨rfl, rfl, rfl⟩
    · have hset := sameBuffer_setCenterFreq a (answer.1 * 1000)
        { converterTuned centerFreq answer { s with previousFreq := centerFreq } with
          previousProxyFreq := answer.1 }
      exact ⟨hset.fftSize, hset.slen, hset.iqBuf⟩
  | false =>
    rw [retune_native_of_ne hsame] at hretune
    obtain ⟨u, hswitch, rfl, _⟩ := retuneNative_cases hretune
    have hu := sameBuffer_switchDirectSampling hswitch
    have hset := sameBuffer_setCenterFreq a centerFreq u
    exact ⟨hset.fftSize.trans hu.fftSize, hset.slen.trans hu.slen, hset.iqBuf.trans hu.iqBuf⟩

end Frames

section Buffer

variable {a : Answers} {s s' : SyncState}

/-- The buffer has the length that is asked of the read. -/
def Sized (s : SyncState) : Prop := s.iqBuf.length = s.slen

theorem Sized.of_sameBuffer {t : SyncState} (hs : Sized s) (hst : SameBuffer s t) :
    Sized t := by
  rw [Sized, hst.iqBuf, hst.slen]
  exact hs

theorem sized_resizeBuffer (a : Answers) (hs : Sized s) : Sized (resizeBuffer a s) := by
  unfold resizeBuffer
  split
  · simp [Sized, resize]
  · exact hs

theorem length_transfer (data buf : List UInt8) : (transfer data buf).length = buf.length := by
  simp only [transfer, List.length_append, List.length_take, List.length_drop]
  omega

/-- A transfer of the whole length leaves what it has delivered. -/
theorem transfer_of_length {data buf : List UInt8} (hlength : data.length = buf.length) :
    transfer data buf = data := by
  rw [transfer, ← hlength, List.take_length, hlength, List.drop_length, List.append_nil]

theorem length_invertRound {k : ℕ} {buf buf' : List UInt8} (hround : (do
      let b ← readAt buf (2 * k)
      writeAt buf (2 * k) (255 - b)) = .ok buf') : buf'.length = buf.length := by
  obtain ⟨b, _, hwrite⟩ := bind_eq_ok.mp hround
  unfold writeAt at hwrite
  split_ifs at hwrite
  obtain rfl := Except.ok.inj hwrite
  exact List.length_set

theorem length_invertLoop {nRead : ℕ} {buf buf' : List UInt8}
    (hloop : invertLoop nRead buf = .ok buf') : buf'.length = buf.length :=
  foldlM_inv (fun b : List UInt8 => b.length = buf.length)
    (fun _ _ _ hb hround => (length_invertRound hround).trans hb) rfl hloop

theorem sized_readAndCut (a : Answers) (centerFreq : ℕ) (mustInvert : Bool) (hs : Sized s) :
    Sized (readAndCut a centerFreq mustInvert s).1 := by
  have hresized := sized_resizeBuffer a hs
  have hraw := length_transfer a.data (resizeBuffer a s).iqBuf
  change ((capture a centerFreq mustInvert (resizeBuffer a s)).iqBuf.toOption.getD
    (transfer a.data (resizeBuffer a s).iqBuf)).length = (resizeBuffer a s).slen
  rw [← hresized, ← hraw]
  cases hbuf : (capture a centerFreq mustInvert (resizeBuffer a s)).iqBuf with
  | error e => rfl
  | ok buf =>
    cases mustInvert with
    | true => exact length_invertLoop hbuf
    | false => rw [← Except.ok.inj hbuf]; rfl

theorem sized_iterate {converterEnabled : Bool} {o : Option Capture} (hs : Sized s)
    (hiter : iterate converterEnabled s a = .ok (s', o)) : Sized s' := by
  obtain ⟨t, mustInvert, hretune, hcase⟩ := iterate_eq_ok hiter
  have ht : Sized t := Sized.of_sameBuffer (s := { s with hopping := s.hopping.advance }) hs
    (sameBuffer_retune hretune)
  rcases hcase with ⟨rfl, rfl, rfl⟩ | ⟨invert, rfl, rfl, rfl⟩
  · exact ht
  · exact sized_readAndCut a _ invert ht

/-- At the head of every iteration of a run the buffer has its length. -/
theorem sampling_sized {converterEnabled : Bool} {hopping : SequentialHopping}
    {hardware : Hardware} {answers : List Answers} :
    ∀ v ∈ SyncSampling converterEnabled (SyncState.start hopping hardware) answers,
      Sized v.state ∧ ∃ s', iterate converterEnabled v.state v.input = .ok (s', v.output) := by
  have hkeep : ∀ s a s' o, Sized s → iterate converterEnabled s a = .ok (s', o) → True →
      Sized s' := fun s a s' o hs hiter _ => sized_iterate hs hiter
  have hstart : Sized (SyncState.start hopping hardware) := rfl
  intro v hv
  obtain ⟨hs, _, hiter⟩ :=
    visits_inv Sized (fun _ => True) hkeep hstart answers (fun _ _ => trivial) v hv
  exact ⟨hs, hiter⟩

end Buffer

end EsSensor.RtlsdrDriver
