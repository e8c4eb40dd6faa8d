import EsSensor.ElectrosenseContext
import EsSensor.Library.GuardedRun
import Mathlib.Data.List.Basic

/-!
All members of the configuration and all its setters. A setter may refuse its
argument and end the program.
-/
namespace EsSensor

open MachineWord GuardedRun

instance : Inhabited ElectrosenseContext := ⟨{}⟩

structure Settings extends ElectrosenseContext where
  pipeline : String
  clkCorrPerior : ℕ
  monitorTime : ℕ
  minTimeRes : ℕ
  comprLevel : ℕ
  devIndex : ℤ
  clkOff : ℤ
  hoppingStrategy : String
  hoppingStrategyId : ℕ
  windowing : String
  windowingId : ℕ
  tcpHost : String
  tlsHost : String
  outputFileName : String
  outputType : ℕ
  fifoPriority : Bool
  bufferTime : ℕ
  startTimeSampling : ℕ
  decoder : ℕ
  gainDecoder : ℕ
  deriving Inhabited

namespace Settings

def defaultAvgFactor : ℕ := 5
def defaultCmprLevel : ℕ := 6

def sequentialHoppingStrategy : ℕ := 0
def randomHoppingStrategy : ℕ := 1
def similarityHoppingStrategy : ℕ := 2

def hanningWindow : ℕ := 0
def blackmanHarrisWindow : ℕ := 1
def rectangularWindow : ℕ := 2

def outputTypeByte : ℕ := 0
def outputTypeFloat : ℕ := 1

variable (s : Settings)

def setAvgFactor (avgFactor : ℕ) : Settings :=
  { s with avgFactor := if avgFactor < 1 then defaultAvgFactor else avgFactor }

def setComprLevel (comprLevel : ℕ) : Settings :=
  { s with comprLevel := if 9 < comprLevel then defaultCmprLevel else comprLevel }

/-- A strategy that is not known keeps the identifier of the last one. -/
def setHoppingStrategy (hoppingStrategy : String) : Settings :=
  { s with
    hoppingStrategy := hoppingStrategy
    hoppingStrategyId :=
      if hoppingStrategy = "sequential" then sequentialHoppingStrategy
      else if hoppingStrategy = "random" then randomHoppingStrategy
      else if hoppingStrategy = "similarity" then similarityHoppingStrategy
      else s.hoppingStrategyId }

def setWindowing (windowing : String) : Settings :=
  { s with
    windowing := windowing
    windowingId :=
      if windowing = "hanning" then hanningWindow
      else if windowing = "blackman_harris_4" then blackmanHarrisWindow
      else rectangularWindow }

/-- The overlap that `setSoverlap` stores at an FFT size of 2^log2FftSize. -/
def clampSoverlap (shifter : Shifter) (log2FftSize soverlap : ℕ) : ℕ :=
  if u32Sub (word (shifter.one log2FftSize)) 1 < soverlap then
    word ((shifter.one log2FftSize).tdiv 2)
  else soverlap

def setSoverlap (shifter : Shifter) (soverlap : ℕ) : Settings :=
  { s with soverlap := clampSoverlap shifter s.log2FftSize soverlap }

def split (name : String) (delimiter : Char) : List String :=
  (name.toList.splitOn delimiter).map String.ofList

/-- `none` is the `exit` after the message about the format. -/
def setOutputFileName (fileName : String) : Option Settings :=
  if fileName = "" then some s
  else
    match split fileName ':' with
    | slice :: name :: _ =>
      if slice = "BYTE" then some { s with outputType := outputTypeByte, outputFileName := name }
      else if slice = "FLOAT" then
        some { s with outputType := outputTypeFloat, outputFileName := name }
      else none
    | _ => some { s with outputType := outputTypeByte, outputFileName := fileName }

end Settings

/-- A call of one setter. -/
inductive SetterCall
  | setPipeline (pipeline : String)
  | setAvgFactor (avgFactor : ℕ)
  | setClkCorrPerior (clkCorrPerior : ℕ)
  | setClkOff (clkOff : ℤ)
  | setComprLevel (comprLevel : ℕ)
  | setDevIndex (devIndex : ℤ)
  | setFFTbatchlen (fftBatchlen : ℕ)
  | setFifoPriority (fifoPriority : Bool)
  | setDirectSamplingMode (directSamplingMode : ℤ)
  | setFreqOverlap (freqOverlap : ℚ)
  | setGain (gain : ℚ)
  | setHoppingStrategy (hoppingStrategy : String)
  | setLog2FftSize (log2FftSize : ℕ)
  | setMaxFreq (maxFreq : ℕ)
  | setMinFreq (minFreq : ℕ)
  | setMinTimeRes (minTimeRes : ℕ)
  | setMonitorTime (monitorTime : ℕ)
  | setSamplingRate (samplingRate : ℕ)
  | setSoverlap (soverlap : ℕ)
  | setTcpHosts (tcpHosts : String)
  | setTlsHosts (tlsHosts : String)
  | setWindowing (windowing : String)
  | setBufferTime (bufferTime : ℕ)
  | setOutputFileName (fileName : String)
  | setStartTimeSampling (startTime : ℕ)
  | setDecoder (decoder : ℕ)
  | setGainDecoder (gain : ℕ)

namespace SetterCall

def apply (shifter : Shifter) : SetterCall → Settings → Option Settings
  | setPipeline pipeline, s => some { s with pipeline := pipeline }
  | setAvgFactor avgFactor, s => some (s.setAvgFactor avgFactor)
  | setClkCorrPerior clkCorrPerior, s => some { s with clkCorrPerior := clkCorrPerior }
  | setClkOff clkOff, s => some { s with clkOff := clkOff }
  | setComprLevel comprLevel, s => some (s.setComprLevel comprLevel)
  | setDevIndex devIndex, s => some { s with devIndex := devIndex }
  | setFFTbatchlen fftBatchlen, s => some { s with fftBatchlen := fftBatchlen }
  | setFifoPriority fifoPriority, s => some { s with fifoPriority := fifoPriority }
  | setDirectSamplingMode mode, s => some { s with directSamplingMode := mode }
  | setFreqOverlap freqOverlap, s => some { s with freqOverlap := freqOverlap }
  | setGain gain, s => some { s with gain := gain }
  | setHoppingStrategy hoppingStrategy, s => some (s.setHoppingStrategy hoppingStrategy)
  | setLog2FftSize log2FftSize, s => some { s with log2FftSize := log2FftSize }
  | setMaxFreq maxFreq, s => some { s with maxFreq := maxFreq }
  | setMinFreq minFreq, s => some { s with minFreq := minFreq }
  | setMinTimeRes minTimeRes, s => some { s with minTimeRes := minTimeRes }
  | setMonitorTime monitorTime, s => some { s with monitorTime := monitorTime }
  | setSamplingRate samplingRate, s => some { s with samplingRate := samplingRate }
  | setSoverlap soverlap, s => some (s.setSoverlap shifter soverlap)
  | setTcpHosts tcpHosts, s => some { s with tcpHost := tcpHosts }
  | setTlsHosts tlsHosts, s => some { s with tlsHost := tlsHosts }
  | setWindowing windowing, s => some (s.setWindowing windowing)
  | setBufferTime bufferTime, s => some { s with bufferTime := bufferTime }
  | setOutputFileName fileName, s => s.setOutputFileName fileName
  | setStartTimeSampling startTime, s => some { s with startTimeSampling := startTime }
  | setDecoder decoder, s => some { s with decoder := decoder }
  | setGainDecoder gain, s => some { s with gainDecoder := gain }

end SetterCall

namespace Settings

/-- The body of the constructor. The output type and the gain of the decoder
stay as they are in memory. -/
def constructorCalls : List SetterCall :=
  [.setPipeline "PSD", .setLog2FftSize 8, .setMonitorTime 0, .setMinTimeRes 0, .setDevIndex 0,
    .setClkOff 0, .setClkCorrPerior 3600, .setHoppingStrategy "sequential",
    .setGain (8598323 / 2 ^ 18), .setFreqOverlap (11184811 / 2 ^ 26),
    .setAvgFactor defaultAvgFactor, .setSoverlap 128,
    .setWindowing "hanning", .setFFTbatchlen 10, .setComprLevel defaultCmprLevel,
    .setSamplingRate 2400000, .setTcpHosts "127.0.0.1:5000", .setTlsHosts "0",
    .setFifoPriority true, .setDirectSamplingMode 0, .setMinFreq 0, .setMaxFreq 0,
    .setBufferTime 5, .setOutputFileName "", .setStartTimeSampling 0, .setDecoder 0]

/-- The new object: its strings are empty before the body runs. -/
def construct (shifter : Shifter) (memory : Settings) : Option Settings :=
  run (SetterCall.apply shifter) constructorCalls { memory with outputFileName := "" }

/-- What the constructor leaves behind. -/
def initial (memory : Settings) : Settings where
  minFreq := 0
  maxFreq := 0
  samplingRate := 2400000
  log2FftSize := 8
  avgFactor := 5
  soverlap := 128
  fftBatchlen := 10
  gain := 8598323 / 2 ^ 18
  freqOverlap := 11184811 / 2 ^ 26
  directSamplingMode := 0
  pipeline := "PSD"
  clkCorrPerior := 3600
  monitorTime := 0
  minTimeRes := 0
  comprLevel := 6
  devIndex := 0
  clkOff := 0
  hoppingStrategy := "sequential"
  hoppingStrategyId := sequentialHoppingStrategy
  windowing := "hanning"
  windowingId := hanningWindow
  tcpHost := "127.0.0.1:5000"
  tlsHost := "0"
  outputFileName := ""
  outputType := memory.outputType
  fifoPriority := true
  bufferTime := 5
  startTimeSampling := 0
  decoder := 0
  gainDecoder := memory.gainDecoder

/-- A file name that is accepted is empty and ignored, or it sets both members,
and in every state alike. -/
theorem setOutputFileName_cases {s s' : Settings} {fileName : String}
    (h : s.setOutputFileName fileName = some s') :
    (fileName = "" ∧ s' = s) ∨
    ∃ type name, s' = { s with outputType := type, outputFileName := name } ∧
      ∀ t : Settings, t.setOutputFileName fileName =
        some { t with outputType := type, outputFileName := name } := by
  unfold setOutputFileName at h ⊢
  by_cases hempty : fileName = ""
  · rw [if_pos hempty] at h
    exact Or.inl ⟨hempty, (Option.some.inj h).symm⟩
  · simp only [if_neg hempty] at h ⊢
    refine Or.inr ?_
    split at h
    · split at h
      · exact ⟨_, _, (Option.some.inj h).symm, fun t => by simp [*]⟩
      · split at h
        · exact ⟨_, _, (Option.some.inj h).symm, fun t => by simp [*]⟩
        · exact absurd h (by simp)
    · exact ⟨_, _, (Option.some.inj h).symm, fun _ => rfl⟩

variable (shifter : Shifter)

theorem clampSoverlap_of_count_lt {log2FftSize : ℕ} (hcount : shifter.count log2FftSize < 31)
    (soverlap : ℕ) :
    clampSoverlap shifter log2FftSize soverlap =
      if 2 ^ shifter.count log2FftSize - 1 < soverlap then 2 ^ shifter.count log2FftSize / 2
      else soverlap := by
  have hpos : 1 ≤ 2 ^ shifter.count log2FftSize := Nat.one_le_two_pow
  have hlt : 2 ^ shifter.count log2FftSize < 2 ^ 31 := Nat.pow_lt_pow_right (by decide) hcount
  have hhalf : ((2 ^ shifter.count log2FftSize : ℕ) : ℤ).tdiv 2 =
      (2 ^ shifter.count log2FftSize / 2 : ℕ) := by
    rw [Int.tdiv_eq_ediv_of_nonneg (by omega)]
    rfl
  rw [clampSoverlap, shifter.one_of_count_lt hcount, word_natCast (by omega),
    u32Sub_of_le hpos (by omega), hhalf, word_natCast (by omega)]

theorem clampSoverlap_of_lt {log2FftSize : ℕ} (hlog : log2FftSize < 31) (soverlap : ℕ) :
    clampSoverlap shifter log2FftSize soverlap =
      if 2 ^ log2FftSize - 1 < soverlap then 2 ^ log2FftSize / 2 else soverlap := by
  have hcount := shifter.count_of_lt log2FftSize (by omega)
  rw [clampSoverlap_of_count_lt shifter (by omega), hcount]

/-- Either way the overlap stays below the size that it is checked against. -/
theorem clampSoverlap_lt {log2FftSize : ℕ} (hlog : log2FftSize < 31) (soverlap : ℕ) :
    clampSoverlap shifter log2FftSize soverlap < 2 ^ log2FftSize := by
  have hpos : 1 ≤ 2 ^ log2FftSize := Nat.one_le_two_pow
  rw [clampSoverlap_of_lt shifter hlog]
  split <;> omega

theorem setHoppingStrategy_sequential (s : Settings) :
    s.setHoppingStrategy "sequential" = { s with
      hoppingStrategy := "sequential", hoppingStrategyId := sequentialHoppingStrategy } := by
  simp [setHoppingStrategy]

theorem setWindowing_hanning (s : Settings) :
    s.setWindowing "hanning" = { s with windowing := "hanning", windowingId := hanningWindow } := by
  simp [setWindowing]

theorem setComprLevel_default (s : Settings) :
    s.setComprLevel defaultCmprLevel = { s with comprLevel := 6 } := rfl

theorem setOutputFileName_empty (s : Settings) : s.setOutputFileName "" = some s := rfl

-- the body of the constructor is run in four parts: the work of the kernel on a
-- record of so many members grows fast with the number of updates

theorem run_upTo_clkCorrPerior (s : Settings) :
    run (SetterCall.apply shifter) (constructorCalls.take 7) s = some { s with
      pipeline := "PSD", log2FftSize := 8, monitorTime := 0, minTimeRes := 0, devIndex := 0,
      clkOff := 0, clkCorrPerior := 3600 } := rfl

theorem run_upTo_windowing (s : Settings) :
    run (SetterCall.apply shifter) ((constructorCalls.drop 7).take 6) s = some { s with
      hoppingStrategy := "sequential", hoppingStrategyId := sequentialHoppingStrategy,
      gain := 8598323 / 2 ^ 18, freqOverlap := 11184811 / 2 ^ 26, avgFactor := 5,
      soverlap := clampSoverlap shifter s.log2FftSize 128,
      windowing := "hanning", windowingId := hanningWindow } := by
  simp only [constructorCalls, List.drop_succ_cons, List.drop_zero, List.take_succ_cons,
    List.take_zero, run_cons, run_nil, SetterCall.apply, Option.bind_some,
    setHoppingStrategy_sequential, setWindowing_hanning]
  rfl

theorem run_upTo_fifoPriority (s : Settings) :
    run (SetterCall.apply shifter) (((constructorCalls.drop 7).drop 6).take 6) s = some { s with
      fftBatchlen := 10, comprLevel := 6, samplingRate := 2400000,
      tcpHost := "127.0.0.1:5000", tlsHost := "0", fifoPriority := true } := by
  simp only [constructorCalls, List.drop_succ_cons, List.drop_zero, List.take_succ_cons,
    List.take_zero, run_cons, run_nil, SetterCall.apply, Option.bind_some, setComprLevel_default]

theorem run_upTo_decoder (s : Settings) :
    run (SetterCall.apply shifter) (((constructorCalls.drop 7).drop 6).drop 6) s = some { s with
      directSamplingMode := 0, minFreq := 0, maxFreq := 0, bufferTime := 5,
      startTimeSampling := 0, decoder := 0 } := by
  simp only [constructorCalls, List.drop_succ_cons, List.drop_zero, run_cons, run_nil,
    SetterCall.apply, Option.bind_some, setOutputFileName_empty]

/-- The constructor leaves no member but two to what was in memory. -/
theorem construct_eq (memory : Settings) : construct shifter memory = some (initial memory) := by
  have hclamp : clampSoverlap shifter 8 128 = 128 := by
    rw [clampSoverlap_of_lt shifter (by decide)]
    rfl
  rw [construct, ← List.take_append_drop 7 constructorCalls,
    ← List.take_append_drop 6 (constructorCalls.drop 7),
    ← List.take_append_drop 6 ((constructorCalls.drop 7).drop 6), run_append,
    run_upTo_clkCorrPerior, Option.bind_some, run_append, run_upTo_windowing, Option.bind_some,
    run_append, run_upTo_fifoPriority, Option.bind_some, run_upTo_decoder]
  simp only [hclamp]
  rfl

/-- The members that the blocks read have the defaults of their own record. -/
theorem initial_context (memory : Settings) : (initial memory).toElectrosenseContext = {} := rfl

@[simp] theorem initial_log2FftSize (memory : Settings) : (initial memory).log2FftSize = 8 := rfl

@[simp] theorem initial_soverlap (memory : Settings) : (initial memory).soverlap = 128 := rfl

end Settings

end EsSensor
