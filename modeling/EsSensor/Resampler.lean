import EsSensor.CicFilter
import EsSensor.RationalFilter
import EsSensor.FractionalFilter
import EsSensor.Library.FloatRounding

/-!
The downsampler: a decimating comb filter by a power of two that the rates
choose, then one of the two polyphase filters. What becomes of the result of a
float operation is a parameter: it is rounded, or kept for exact rates. The tap
table that the filter design returns is an argument of the constructor.
-/
namespace EsSensor.Resampler

open CheckedLoop MachineWord CicFilter RationalFilter FractionalFilter

structure ResamplerConfig where
  rational : Bool := true
  inputRate : ℚ
  outputRate : ℚ
  maxInterpolation : ℕ := 32
  cicOrder : ℕ := 6
  cicOversampleFactor : ℕ := 4
  desiredRipple : ℚ := -60
  transitionWidthFraction : ℚ := 1 / 5
  cutoffFraction : ℚ := 3 / 10

/-- Float division; infinity and not-a-number are left out. -/
def floatDiv (fl : ℚ → ℚ) (a b : ℚ) : Option ℚ := if b = 0 then none else some (fl (a / b))

/-- The loop of `gcd`. Its `int` temporary keeps the word of an unsigned value. -/
def gcd (fuel v1 v2 : ℕ) : Except Fault ℕ := do
  let s ← whileLoop (fun s : ℕ × ℕ => decide (s.2 ≠ 0))
    (fun s => .ok (s.2, s.1 % s.2)) fuel (v1, v2)
  .ok s.1

/-- `cicOversampleFactor * outputRate` -/
def targetRate (fl : ℚ → ℚ) (cfg : ResamplerConfig) : ℚ :=
  fl (fl cfg.cicOversampleFactor * cfg.outputRate)

/-- `inputRate / cicD >= cicOversampleFactor * outputRate`; the divisor, a power of two,
wraps to zero after 32 doublings, and the quotient is then infinite. -/
def decimating (fl : ℚ → ℚ) (cfg : ResamplerConfig) (s : ℕ × ℕ) : Bool :=
  match floatDiv fl cfg.inputRate s.2 with
  | some rate => decide (targetRate fl cfg ≤ rate)
  | none => decide (0 < cfg.inputRate)

/-- The loop that finds `cicR_` and `cicD`. -/
def rateLoop (fl : ℚ → ℚ) (fuel : ℕ) (cfg : ResamplerConfig) : Except Fault (ℕ × ℕ) :=
  whileLoop (decimating fl cfg) (fun s => .ok (u32 (s.1 + 1), u32 (s.2 * 2))) fuel (1, 1)

inductive FirPlan
  | rational (interpolation decimation : ℕ)
  | fractional (interpolation : ℕ) (decimation : ℚ)
  deriving DecidableEq, Repr

/-- What the constructor decides from the rates. -/
structure Plan where
  cicR : ℕ
  cicD : ℕ
  cicOrder : ℕ
  firInputRate : ℚ
  fir : FirPlan
  actualOutputRate : Option ℚ
  deriving DecidableEq, Repr

def planRational (fl : ℚ → ℚ) (fuel : ℕ) (cfg : ResamplerConfig) (firInputRate : ℚ) :
    Except Fault (FirPlan × Option ℚ) := do
  let interpolation := toUnsigned cfg.outputRate
  let decimation := toUnsigned firInputRate
  let d ← gcd fuel decimation interpolation
  if d = 0 then .error .divByZero
  else if cfg.maxInterpolation < interpolation / d then
    .error (.thrown "Interpolation factor exceeds maximum!")
  else
    .ok (.rational (interpolation / d) (decimation / d),
      floatDiv fl (fl (firInputRate * fl (interpolation / d : ℕ))) (fl (decimation / d : ℕ)))

def planFractional (fl : ℚ → ℚ) (cfg : ResamplerConfig) (firInputRate : ℚ) :
    FirPlan × Option ℚ :=
  let raised := fl (firInputRate * fl cfg.maxInterpolation)
  let decimation := fl (raised / cfg.outputRate)
  (.fractional cfg.maxInterpolation decimation, floatDiv fl raised decimation)

def planFir (fl : ℚ → ℚ) (fuel : ℕ) (cfg : ResamplerConfig) (firInputRate : ℚ) :
    Except Fault (FirPlan × Option ℚ) :=
  if cfg.rational then planRational fl fuel cfg firInputRate
  else .ok (planFractional fl cfg firInputRate)

/-- The constructor up to the filter design, with the exception it may throw. -/
def plan (fl : ℚ → ℚ) (fuel : ℕ) (cfg : ResamplerConfig) : Except Fault Plan := do
  let (cicR, cicD) ← rateLoop fl fuel cfg
  let cicOrder := if cicR = 1 then 0 else cfg.cicOrder
  let firInputRate := fl (cfg.inputRate / cicD)
  let (fir, actualOutputRate) ← planFir fl fuel cfg firInputRate
  .ok ⟨cicR, cicD, cicOrder, firInputRate, fir, actualOutputRate⟩

inductive Fir
  | rational (filter : RationalFIR ℚ)
  | fractional (filter : FrationalFIR)

structure Downsampler where
  maxBlockLength : ℕ
  cicR : ℕ
  cic : CIC 32
  fir : Fir

/-- `tap *= interpolation`, then the filter core. -/
def buildFir (taps : List ℚ) : FirPlan → Except Fault Fir
  | .rational interpolation decimation => do
    let fir ← RationalFilter.new (taps.map (fun tap => tap * (interpolation : ℚ)))
      interpolation decimation
    .ok (.rational fir)
  | .fractional interpolation decimation => do
    let fir ← FractionalFilter.new (taps.map (fun tap => tap * (interpolation : ℚ)))
      interpolation decimation
    .ok (.fractional fir)

/-- The rest of the constructor; `taps` is what the filter design returned. -/
def build (p : Plan) (taps : List ℚ) (maxBlockLength : ℕ) : Except Fault Downsampler := do
  let fir ← buildFir taps p.fir
  .ok ⟨maxBlockLength, p.cicR, CIC.new 32 p.cicOrder p.cicD, fir⟩

/-- `samplesCIC_[i] /= growth`; a growth of zero leaves no number. -/
def divideGrowth (fl : ℚ → ℚ) (growth : BitVec 32) (sample : BitVec 32) : Except Fault ℚ :=
  match floatDiv fl (fl sample.toNat) (fl growth.toNat) with
  | some q => .ok q
  | none => .error .notFinite

/-- The samples as `filter` hands them to the comb filter. -/
def samples (bytes : List UInt8) : List ℤ := bytes.map (fun b => (b.toNat : ℤ))

/-- The first half of `filter`, which fills `samplesCIC_`. The samples are exact. -/
def cicStage (f : Downsampler) (samplesIn : List UInt8) :
    Except Fault (Downsampler × List ℚ) := do
  let (cic, samplesCIC) ←
    if f.cicR ≠ 1 then do
      let (cic, out) ← f.cic.filter (samples samplesIn)
      let samplesCIC ← out.mapM (divideGrowth id cic.getGrowth)
      .ok (cic, samplesCIC)
    else .ok (f.cic, (samples samplesIn).map (fun a => (a : ℚ)))
  if f.maxBlockLength < samplesCIC.length then .error .outOfRange
  else .ok ({ f with cic := cic }, samplesCIC)

/-- The output type of the polyphase stage is not rounded here. -/
def filter (fuel : ℕ) (f : Downsampler) (samplesIn : List UInt8) :
    Except Fault (Downsampler × List ℚ) := do
  let (f, samplesCIC) ← cicStage f samplesIn
  match f.fir with
  | .rational fir => do
    let (fir, samplesOut) ← RationalFilter.filter fuel fir samplesCIC
    .ok ({ f with fir := .rational fir }, samplesOut)
  | .fractional fir => do
    let (fir, samplesOut) ← FractionalFilter.filter fuel fir samplesCIC
    .ok ({ f with fir := .fractional fir }, samplesOut)

/-- Rates and factors as the source has them in use. -/
structure ResamplerConfig.Valid (cfg : ResamplerConfig) : Prop where
  inputRate_pos : 0 < cfg.inputRate
  outputRate_pos : 0 < cfg.outputRate
  cicOrder_le : cfg.cicOrder ≤ maxOrder
  cicOversampleFactor_pos : 1 ≤ cfg.cicOversampleFactor

section RateLoop

variable {fl : ℚ → ℚ} {cfg : ResamplerConfig}

/-- After m rounds: every round up to now found the rate still too high. -/
structure Rounds (fl : ℚ → ℚ) (cfg : ResamplerConfig) (m : ℕ) (s : ℕ × ℕ) : Prop where
  cicR_eq : s.1 = u32 (m + 1)
  cicD_eq : s.2 = u32 (2 ^ m)
  high : ∀ i < m, i < 32 → targetRate fl cfg ≤ fl (cfg.inputRate / 2 ^ i)

theorem u32_two_pow {m : ℕ} (hm : m < 32) : u32 (2 ^ m) = 2 ^ m :=
  u32_of_lt (Nat.pow_lt_pow_right (by decide) hm)

theorem u32_two_pow_of_ge {m : ℕ} (hm : 32 ≤ m) : u32 (2 ^ m) = 0 :=
  Nat.mod_eq_zero_of_dvd (Nat.pow_dvd_pow 2 hm)

theorem decimating_pow (m : ℕ) (s : ℕ × ℕ) (hs : s.2 = 2 ^ m) :
    decimating fl cfg s = decide (targetRate fl cfg ≤ fl (cfg.inputRate / 2 ^ m)) := by
  have hdiv : floatDiv fl cfg.inputRate s.2 = some (fl (cfg.inputRate / 2 ^ m)) := by
    rw [hs, floatDiv]
    simp
  simp only [decimating, hdiv]

theorem rounds_succ {m : ℕ} {s : ℕ × ℕ} (hs : Rounds fl cfg m s)
    (hcond : decimating fl cfg s = true) :
    Rounds fl cfg (m + 1) (u32 (s.1 + 1), u32 (s.2 * 2)) where
  cicR_eq := by
    rw [hs.cicR_eq]
    exact Nat.mod_add_mod (m + 1) (2 ^ 32) 1
  cicD_eq := by
    rw [hs.cicD_eq, pow_succ]
    exact Nat.mod_mul_mod (2 ^ m) 2 (2 ^ 32)
  high := by
    intro i hi h32
    rcases Nat.lt_succ_iff_lt_or_eq.mp hi with hlt | rfl
    · exact hs.high i hlt h32
    · rw [decimating_pow i s (by rw [hs.cicD_eq, u32_two_pow h32])] at hcond
      exact of_decide_eq_true hcond

/-- The loop ends before the divisor wraps, at the first power of two that is
large enough. -/
theorem rateLoop_eq_ok (hin : 0 < cfg.inputRate) {fuel : ℕ} {s : ℕ × ℕ}
    (hrun : rateLoop fl fuel cfg = .ok s) :
    ∃ m < 32, s = (m + 1, 2 ^ m) ∧ fl (cfg.inputRate / 2 ^ m) < targetRate fl cfg ∧
      ∀ i < m, targetRate fl cfg ≤ fl (cfg.inputRate / 2 ^ i) := by
  have hstart : Rounds fl cfg 0 (1, 1) := ⟨rfl, rfl, by simp⟩
  obtain ⟨⟨m, hm⟩, hexit⟩ := whileLoop_inv (fun s => ∃ m, Rounds fl cfg m s)
    (fun s s' ⟨m, hm⟩ hcond hbody => by
      obtain rfl := Except.ok.inj hbody
      exact ⟨m + 1, rounds_succ hm hcond⟩)
    ⟨0, hstart⟩ hrun
  have h32 : m < 32 := by
    by_contra hlarge
    have hzero : s.2 = 0 := by rw [hm.cicD_eq, u32_two_pow_of_ge (by omega)]
    simp [decimating, floatDiv, hzero, hin] at hexit
  have hcicD : s.2 = 2 ^ m := by rw [hm.cicD_eq, u32_two_pow h32]
  have hcicR : s.1 = m + 1 := by rw [hm.cicR_eq, u32_of_lt (by omega)]
  refine ⟨m, h32, Prod.ext hcicR hcicD, ?_, fun i hi => hm.high i hi (by omega)⟩
  rw [decimating_pow m s hcicD, decide_eq_false_iff_not, not_le] at hexit
  exact hexit

end RateLoop

/-- What an accepted configuration fixes of the decimating stage. -/
theorem plan_eq_ok {fl : ℚ → ℚ} {cfg : ResamplerConfig} (hcfg : cfg.Valid) {fuel : ℕ}
    {p : Plan} (hplan : plan fl fuel cfg = .ok p) :
    ∃ m < 32, p.cicR = m + 1 ∧ p.cicD = 2 ^ m ∧
      p.cicOrder = (if m = 0 then 0 else cfg.cicOrder) ∧
      fl (cfg.inputRate / 2 ^ m) < targetRate fl cfg ∧
      ∀ i < m, targetRate fl cfg ≤ fl (cfg.inputRate / 2 ^ i) := by
  unfold plan at hplan
  obtain ⟨⟨cicR, cicD⟩, hloop, hrest⟩ := bind_eq_ok.mp hplan
  obtain ⟨m, h32, hs, hlow, hhigh⟩ := rateLoop_eq_ok hcfg.inputRate_pos hloop
  obtain ⟨rfl, rfl⟩ := Prod.mk.inj hs
  obtain ⟨⟨fir, rate⟩, _, hp⟩ := bind_eq_ok.mp hrest
  obtain rfl := Except.ok.inj hp
  exact ⟨m, h32, rfl, rfl, by simp, hlow, hhigh⟩

end EsSensor.Resampler
