import EsSensor.Resampler
import Mathlib.Algebra.Order.Ring.Int
import Mathlib.Data.Nat.Cast.Field

/-!
The rates that the resampler plans. A doubling loop brings the input rate near
the output rate, two rates are cut to whole numbers, and their reduced quotient
becomes the pair of rates of the filter. The rates are exact rationals here.
-/
namespace EsSensor.RatePlanning

open CheckedLoop MachineWord Resampler

/-- Rates that the unsigned factors of the plan can hold. -/
structure RatesInRange (cfg : ResamplerConfig) : Prop where
  outputRate_ge : 1 ≤ cfg.outputRate
  outputRate_lt : cfg.outputRate < 2 ^ 32
  inputRate_ge : 1 ≤ cfg.inputRate
  inputRate_lt : cfg.inputRate < 2 ^ 32
  oversample : 2 ≤ cfg.cicOversampleFactor

section Loops

/-- Euclid's loop returns within as many rounds as its second argument counts. -/
theorem gcd_eq {fuel v1 v2 : ℕ} (hfuel : v2 ≤ fuel) :
    Resampler.gcd fuel v1 v2 = .ok (Nat.gcd v1 v2) := by
  obtain ⟨⟨g, r⟩, hloop, hinv, hexit⟩ := @whileLoop_of_variant (ℕ × ℕ)
    (fun s => decide (s.2 ≠ 0)) (fun s => .ok (s.2, s.1 % s.2))
    (fun s => Nat.gcd s.1 s.2 = Nat.gcd v1 v2) (fun s => s.2)
    (fun s hs hcond => by
      have hpos : 0 < s.2 := Nat.pos_of_ne_zero (of_decide_eq_true hcond)
      refine ⟨_, rfl, ?_, Nat.mod_lt s.1 hpos⟩
      rw [← hs, Nat.gcd_comm s.1 s.2, Nat.gcd_rec s.2 s.1, Nat.gcd_comm])
    fuel (v1, v2) rfl hfuel
  obtain rfl : r = 0 := by simpa using hexit
  rw [Resampler.gcd, hloop, ← hinv]
  simp

variable {cfg : ResamplerConfig}

theorem target_ge (hcfg : RatesInRange cfg) :
    (2 : ℚ) ≤ cfg.cicOversampleFactor * cfg.outputRate := by
  have hfactor : (2 : ℚ) ≤ cfg.cicOversampleFactor := by exact_mod_cast hcfg.oversample
  have hout := hcfg.outputRate_ge
  nlinarith

/-- The rate loop returns before its divisor can wrap. -/
theorem rateLoop_returns (hcfg : RatesInRange cfg) {fuel : ℕ} (hfuel : 32 ≤ fuel) :
    ∃ s, rateLoop id fuel cfg = .ok s := by
  obtain ⟨s, hloop, _⟩ := @whileLoop_of_variant (ℕ × ℕ)
    (decimating id cfg) (fun s => .ok (u32 (s.1 + 1), u32 (s.2 * 2)))
    (fun s => ∃ m < 32, Rounds id cfg m s) (fun s => 33 - s.1)
    (fun s ⟨m, h32, hm⟩ hcond => by
      have hhigh := (rounds_succ hm hcond).high m (Nat.lt_succ_self m) h32
      have hnext : m + 1 < 32 := by
        by_contra hlarge
        obtain rfl : m = 31 := by omega
        have htarget := target_ge hcfg
        have hlt := hcfg.inputRate_lt
        have hhigh : cfg.cicOversampleFactor * cfg.outputRate ≤ cfg.inputRate / 2 ^ 31 := hhigh
        rw [le_div_iff₀ (by norm_num)] at hhigh
        linarith
      refine ⟨_, rfl, ⟨m + 1, hnext, rounds_succ hm hcond⟩, ?_⟩
      rw [hm.cicR_eq, u32_of_lt (show m + 1 < 2 ^ 32 by omega),
        u32_of_lt (show m + 1 + 1 < 2 ^ 32 by omega)]
      omega)
    fuel (1, 1) ⟨0, by decide, rfl, rfl, by simp⟩ (by change 33 - 1 ≤ fuel; omega)
  exact ⟨s, hloop⟩

/-- What the rate loop leaves. -/
structure Decimation (cfg : ResamplerConfig) (cicR cicD : ℕ) : Prop where
  cicR_pos : 1 ≤ cicR
  cicD_eq : cicD = 2 ^ (cicR - 1)
  below : cfg.inputRate / cicD < cfg.cicOversampleFactor * cfg.outputRate
  near : 1 < cicD → cfg.cicOversampleFactor * cfg.outputRate / 2 ≤ cfg.inputRate / cicD

theorem decimation_of_rateLoop (hcfg : RatesInRange cfg) {fuel : ℕ} {s : ℕ × ℕ}
    (hloop : rateLoop id fuel cfg = .ok s) : Decimation cfg s.1 s.2 := by
  obtain ⟨m, _, rfl, hlow, hhigh⟩ := rateLoop_eq_ok (lt_of_lt_of_le one_pos hcfg.inputRate_ge) hloop
  have hpow : (0 : ℚ) < 2 ^ m := by positivity
  refine ⟨Nat.succ_pos m, rfl, ?_, fun hdecimated => ?_⟩
  · push_cast
    exact hlow
  · cases m with
    | zero => exact absurd hdecimated (by simp)
    | succ m =>
      have hbefore : cfg.cicOversampleFactor * cfg.outputRate ≤ cfg.inputRate / 2 ^ m :=
        hhigh m (Nat.lt_succ_self m)
      rw [le_div_iff₀ (by positivity)] at hbefore
      push_cast
      rw [le_div_iff₀ hpow, pow_succ]
      linarith

theorem Decimation.rate_pos {cicR cicD : ℕ} (h : Decimation cfg cicR cicD) : (0 : ℚ) < cicD := by
  rw [h.cicD_eq]
  positivity

/-- The decimated rate is neither below the output rate nor below one. -/
theorem Decimation.rate_ge (hcfg : RatesInRange cfg) {cicR cicD : ℕ}
    (h : Decimation cfg cicR cicD) :
    1 ≤ cfg.inputRate / cicD ∧
      (cfg.outputRate ≤ cfg.inputRate → cfg.outputRate ≤ cfg.inputRate / cicD) := by
  have hout := hcfg.outputRate_ge
  have hin := hcfg.inputRate_ge
  by_cases hdecimated : 1 < cicD
  · have hnear := h.near hdecimated
    have hfactor : (2 : ℚ) ≤ cfg.cicOversampleFactor := by exact_mod_cast hcfg.oversample
    have htarget : 2 * cfg.outputRate ≤ cfg.cicOversampleFactor * cfg.outputRate := by gcongr
    exact ⟨by linarith, fun _ => by linarith⟩
  · have hone : cicD = 1 := by
      have hpos := h.rate_pos
      have hpos' : 0 < cicD := by exact_mod_cast hpos
      omega
    rw [hone, Nat.cast_one, div_one]
    exact ⟨hin, fun hle => hle⟩

theorem Decimation.rate_lt (hcfg : RatesInRange cfg) {cicR cicD : ℕ}
    (h : Decimation cfg cicR cicD) : cfg.inputRate / cicD < 2 ^ 32 := by
  have hone : (1 : ℚ) ≤ cicD := by
    rw [h.cicD_eq]
    exact_mod_cast Nat.one_le_two_pow
  have hle := div_le_self (le_trans zero_le_one hcfg.inputRate_ge) hone
  linarith [hcfg.inputRate_lt]

end Loops

section Reduction

theorem toUnsigned_of_lt {x : ℚ} (hpos : 0 ≤ x) (hlt : x < 2 ^ 32) : toUnsigned x = ⌊x⌋₊ := by
  have hfloor : ⌊x⌋₊ < 2 ^ 32 := (Nat.floor_lt hpos).mpr (by exact_mod_cast hlt)
  exact u32_of_lt hfloor

/-- The reduced pair of rates. -/
structure Reduced (cfg : ResamplerConfig) (firInputRate : ℚ) (I D : ℕ) : Prop where
  interpolation_pos : 1 ≤ I
  decimation_pos : 1 ≤ D
  coprime : Nat.gcd I D = 1
  ordered : cfg.outputRate ≤ firInputRate → I ≤ D
  ratio : ∀ a b : ℕ, cfg.outputRate = a → firInputRate = b → (I : ℚ) / D = a / b

theorem reduced_of_floor {cfg : ResamplerConfig} {firInputRate : ℚ}
    (hout : 1 ≤ cfg.outputRate) (hfir : 1 ≤ firInputRate) :
    Reduced cfg firInputRate
      (⌊cfg.outputRate⌋₊ / Nat.gcd ⌊firInputRate⌋₊ ⌊cfg.outputRate⌋₊)
      (⌊firInputRate⌋₊ / Nat.gcd ⌊firInputRate⌋₊ ⌊cfg.outputRate⌋₊) := by
  have hI : 1 ≤ ⌊cfg.outputRate⌋₊ := Nat.one_le_floor_iff _ |>.mpr hout
  have hD : 1 ≤ ⌊firInputRate⌋₊ := Nat.one_le_floor_iff _ |>.mpr hfir
  set a := ⌊cfg.outputRate⌋₊
  set b := ⌊firInputRate⌋₊
  have hg : 0 < Nat.gcd b a := Nat.gcd_pos_of_pos_left a hD
  refine ⟨?_, ?_, ?_, ?_, ?_⟩
  · exact Nat.div_pos (Nat.le_of_dvd hI (Nat.gcd_dvd_right b a)) hg
  · exact Nat.div_pos (Nat.le_of_dvd hD (Nat.gcd_dvd_left b a)) hg
  · rw [Nat.gcd_comm]
    exact Nat.coprime_div_gcd_div_gcd hg
  · intro hle
    exact Nat.div_le_div_right (Nat.floor_le_floor hle)
  · intro a' b' ha hb
    have ha' : a = a' := by rw [show a = ⌊cfg.outputRate⌋₊ from rfl, ha, Nat.floor_natCast]
    have hb' : b = b' := by rw [show b = ⌊firInputRate⌋₊ from rfl, hb, Nat.floor_natCast]
    have hne : ((Nat.gcd b a : ℕ) : ℚ) ≠ 0 := by exact_mod_cast hg.ne'
    rw [Nat.cast_div (Nat.gcd_dvd_right b a) hne, Nat.cast_div (Nat.gcd_dvd_left b a) hne,
      div_div_div_cancel_right₀ hne, ha', hb']

/-- Past the rate loop a rational plan throws, or has a reduced pair of rates. -/
theorem planRational_cases {cfg : ResamplerConfig} {firInputRate : ℚ} {fuel : ℕ}
    (hout : 1 ≤ cfg.outputRate) (hout' : cfg.outputRate < 2 ^ 32) (hfir : 1 ≤ firInputRate)
    (hfir' : firInputRate < 2 ^ 32) (hfuel : 2 ^ 32 ≤ fuel) :
    planRational id fuel cfg firInputRate =
        .error (.thrown "Interpolation factor exceeds maximum!") ∨
      ∃ I D, planRational id fuel cfg firInputRate =
          .ok (.rational I D, some (firInputRate * I / D)) ∧
        I ≤ cfg.maxInterpolation ∧ Reduced cfg firInputRate I D := by
  have hreduced := reduced_of_floor hout hfir
  have ha := toUnsigned_of_lt (show 0 ≤ cfg.outputRate by linarith) hout'
  have hb := toUnsigned_of_lt (show 0 ≤ firInputRate by linarith) hfir'
  have hbound : ⌊cfg.outputRate⌋₊ < 2 ^ 32 :=
    (Nat.floor_lt (by linarith)).mpr (by exact_mod_cast hout')
  have hgcd := @gcd_eq fuel ⌊firInputRate⌋₊ ⌊cfg.outputRate⌋₊ (by omega)
  set g := Nat.gcd ⌊firInputRate⌋₊ ⌊cfg.outputRate⌋₊ with hg
  have hpos : g ≠ 0 := by
    intro hzero
    have hI := hreduced.interpolation_pos
    rw [hzero, Nat.div_zero] at hI
    omega
  have hD : ((⌊firInputRate⌋₊ / g : ℕ) : ℚ) ≠ 0 := by
    exact_mod_cast Nat.one_le_iff_ne_zero.mp hreduced.decimation_pos
  unfold planRational
  rw [ha, hb]
  dsimp only
  simp only [id_eq]
  rw [hgcd, ok_bind, if_neg hpos, floatDiv, if_neg hD]
  by_cases hmax : cfg.maxInterpolation < ⌊cfg.outputRate⌋₊ / g
  · exact Or.inl (if_pos hmax)
  · exact Or.inr ⟨_, _, if_neg hmax, Nat.le_of_not_lt hmax, hreduced⟩

end Reduction

/-- The plan of a rational configuration: what the rate loop leaves, and then an
exception or a reduced pair of rates that gives the output rate. -/
theorem rate_planning (cfg : ResamplerConfig) (hrational : cfg.rational = true)
    (hcfg : RatesInRange cfg) (fuel : ℕ) (hfuel : 2 ^ 32 ≤ fuel) :
    ∃ cicR cicD, rateLoop id fuel cfg = .ok (cicR, cicD) ∧ cicD = 2 ^ (cicR - 1) ∧
      cfg.inputRate / cicD < cfg.cicOversampleFactor * cfg.outputRate ∧
      (1 < cicD → cfg.cicOversampleFactor * cfg.outputRate / 2 ≤ cfg.inputRate / cicD) ∧
      (plan id fuel cfg = .error (.thrown "Interpolation factor exceeds maximum!") ∨
        ∃ p I D, plan id fuel cfg = .ok p ∧ p.cicR = cicR ∧ p.cicD = cicD ∧
          p.firInputRate = cfg.inputRate / cicD ∧ p.fir = .rational I D ∧
          1 ≤ I ∧ I ≤ cfg.maxInterpolation ∧ 1 ≤ D ∧ Nat.gcd I D = 1 ∧
          (cfg.outputRate ≤ cfg.inputRate → I ≤ D) ∧
          ∀ a b : ℕ, cfg.outputRate = a → cfg.inputRate / cicD = b →
            (I : ℚ) / D = cfg.outputRate / (cfg.inputRate / cicD) ∧
            p.actualOutputRate = some cfg.outputRate) := by
  obtain ⟨⟨cicR, cicD⟩, hloop⟩ := rateLoop_returns hcfg (show 32 ≤ fuel by omega)
  have hdec : Decimation cfg cicR cicD := decimation_of_rateLoop hcfg hloop
  obtain ⟨hone, hordered⟩ := hdec.rate_ge hcfg
  have hplan : plan id fuel cfg = planRational id fuel cfg (cfg.inputRate / cicD) >>= fun r =>
      .ok ⟨cicR, cicD, if cicR = 1 then 0 else cfg.cicOrder, cfg.inputRate / cicD, r.1, r.2⟩ := by
    simp [plan, hloop, planFir, hrational]
  refine ⟨cicR, cicD, hloop, hdec.cicD_eq, hdec.below, hdec.near, ?_⟩
  rcases planRational_cases hcfg.outputRate_ge hcfg.outputRate_lt hone (hdec.rate_lt hcfg)
    hfuel with hthrown | ⟨I, D, hrates, hmax, hreduced⟩
  · exact Or.inl (by rw [hplan, hthrown, error_bind])
  · refine Or.inr ⟨_, I, D, by rw [hplan, hrates, ok_bind], rfl, rfl, rfl, rfl,
      hreduced.interpolation_pos, hmax, hreduced.decimation_pos, hreduced.coprime,
      fun hle => hreduced.ordered (hordered hle), ?_⟩
    intro a b ha hb
    have hratio := hreduced.ratio a b ha hb
    rw [← ha, ← hb] at hratio
    refine ⟨hratio, ?_⟩
    have hne : cfg.inputRate / cicD ≠ 0 := by linarith
    dsimp only
    rw [mul_div_assoc, hratio, mul_div_cancel₀ _ hne]

/-- The rates at which the FM decoder is fed. -/
def fmRadio : ResamplerConfig where
  inputRate := 2400000
  outputRate := 240000

theorem rate_planning_fm_radio :
    ∃ p, plan id (2 ^ 32) fmRadio = .ok p ∧ p.cicD = 4 ∧
      fmRadio.inputRate / 4 < fmRadio.cicOversampleFactor * fmRadio.outputRate ∧
      p.fir = .rational 2 5 ∧ Nat.gcd 2 5 = 1 ∧ p.actualOutputRate = some fmRadio.outputRate := by
  have hcfg : RatesInRange fmRadio := by
    constructor <;> norm_num [fmRadio]
  have haccept : plan id (2 ^ 32) fmRadio =
      .ok ⟨3, 4, 6, 600000, .rational 2 5, some 240000⟩ := by decide +kernel
  obtain ⟨cicR, cicD, _, _, hbelow, _, hthrown | ⟨p, I, D, hplan, _, hcicD, _, hfir, _, _, _,
    hgcd, _, hrates⟩⟩ := rate_planning fmRadio rfl hcfg (2 ^ 32) le_rfl
  · rw [haccept] at hthrown
    cases hthrown
  · obtain rfl := Except.ok.inj (haccept.symm.trans hplan)
    obtain rfl : 4 = cicD := hcicD
    obtain ⟨rfl, rfl⟩ := FirPlan.rational.inj hfir
    obtain ⟨_, hreported⟩ := hrates 240000 600000 rfl (by norm_num [fmRadio])
    exact ⟨_, hplan, rfl, hbelow, rfl, hgcd, hreported⟩

end EsSensor.RatePlanning
