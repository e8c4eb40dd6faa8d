import EsSensor.DecoderConfig
import EsSensor.FIRDesign

/-!
The gain that a filter is designed with, where a decimating stage is in front of
it. The design asks for the gain at frequencies normalised to its own rate, which
is the rate of the stage times the interpolation; the stage answers for its own.
Rates and frequencies are exact here.
-/
namespace EsSensor.DroopCompensation

open CheckedLoop MachineWord MirroredFill CicFilter Resampler FIRDesign

/-- `CIC::getGain`. -/
def getGain (libm : Libm) (cic : CIC 32) (outputFrequency : ℚ) : ℚ :=
  if outputFrequency = 0 then 1
  else
    let tmp := libm.sinf (libm.pi * outputFrequency)
    let tmp := tmp / libm.sinf (libm.pi / cic.rate * outputFrequency)
    let tmp := tmp / cic.rate
    libm.powf |tmp| cic.order

/-- What the constructor's function passes on to `getGain`. -/
def gainArgument (f : ℚ) : ℚ := f

def cicGainFunc (libm : Libm) (cic : CIC 32) (f : ℚ) : ℚ :=
  1 / getGain libm cic (gainArgument f)

/-- The default of `step`. -/
def defaultStep : ℚ := 1 / 2000

def interpolation : FirPlan → ℕ
  | .rational interpolation _ => interpolation
  | .fractional interpolation _ => interpolation

/-- The filter design of the constructor. -/
def designTaps (libm : Libm) (fuel : ℕ) (cfg : ResamplerConfig) (p : Plan) : Except Fault Base :=
  match p.actualOutputRate with
  | none => .error .notFinite
  | some actualOutputRate =>
    buildFIRFilter libm id 0 fuel (actualOutputRate * cfg.cutoffFraction)
      (actualOutputRate * cfg.transitionWidthFraction)
      (p.firInputRate * interpolation p.fir) cfg.desiredRipple
      (if p.cicR = 1 then none else some (cicGainFunc libm (CIC.new 32 p.cicOrder p.cicD)))
      defaultStep

section Frequencies

variable {libm : Libm} {fuel taps i : ℕ} {gain : ℚ → ℚ} {ft step : ℚ}

/-- The frequencies up to now; the first of them is the lower end. -/
structure Asked (ft : ℚ) (s : Integral) : Prop where
  above : -ft ≤ s.f
  within : ∀ f ∈ s.gainArgs, |f| ≤ ft
  first : s.f = -ft ∨ -ft ∈ s.gainArgs

theorem integrate_gainArgs (hstep : 0 ≤ step) {s : Integral}
    (hrun : integrate libm id fuel gain ft step taps i = .ok s) :
    (∀ f ∈ s.gainArgs, |f| ≤ ft) ∧ (0 ≤ ft → -ft ∈ s.gainArgs) := by
  obtain ⟨hasked, hexit⟩ := whileLoop_inv (Asked ft)
    (fun s s' hs hcond hbody => by
      obtain rfl := Except.ok.inj hbody
      have hle : s.f ≤ ft := of_decide_eq_true hcond
      refine ⟨hs.above.trans (le_add_of_nonneg_right hstep), ?_, Or.inr ?_⟩
      · intro f hf
        rcases List.mem_append.mp hf with hbefore | hnow
        · exact hs.within f hbefore
        · obtain rfl := List.mem_singleton.mp hnow
          exact abs_le.mpr ⟨hs.above, hle⟩
      · rcases hs.first with hfirst | hbefore
        · exact List.mem_append_right _ (by simp [hfirst])
        · exact List.mem_append_left _ hbefore)
    ⟨le_refl (-ft), by simp, Or.inl rfl⟩ hrun
  refine ⟨hasked.within, fun hft => ?_⟩
  rcases hasked.first with hfirst | hmem
  · have hpast : ft < s.f := not_le.mp (of_decide_eq_false hexit)
    rw [hfirst] at hpast
    linarith
  · exact hmem

theorem buildFIRBase_gainArgs {fill fc fs : ℚ} {base : Base} (hstep : 0 ≤ step)
    (htaps : 2 ≤ taps)
    (hrun : buildFIRBase libm id fill fuel fc fs taps (some gain) step = .ok base) :
    (∀ f ∈ base.gainArgs, |f| ≤ fc / fs) ∧ (0 ≤ fc / fs → -(fc / fs) ∈ base.gainArgs) := by
  unfold buildFIRBase at hrun
  simp only [if_neg (show taps ≠ 0 by omega), if_neg (show taps ≠ 1 by omega)] at hrun
  have hwithin := foldlM_inv (fun base : Base => ∀ f ∈ base.gainArgs, |f| ≤ fc / fs)
    (fun base i base' hbase hround => by
      obtain ⟨s, hs, hrest⟩ := bind_eq_ok.mp hround
      obtain ⟨_, _, hrest⟩ := bind_eq_ok.mp hrest
      obtain ⟨_, _, hrest⟩ := bind_eq_ok.mp hrest
      obtain rfl := Except.ok.inj hrest
      intro f hf
      rcases List.mem_append.mp hf with hbefore | hnow
      · exact hbase f hbefore
      · exact (integrate_gainArgs hstep hs).1 f hnow)
    (by simp) hrun
  refine ⟨hwithin, fun hft => ?_⟩
  -- the last round asks for the lower end, as every round does
  rw [List.range_succ, List.foldlM_append] at hrun
  obtain ⟨before, _, hlast⟩ := bind_eq_ok.mp hrun
  rw [List.foldlM_cons] at hlast
  obtain ⟨base', hround, hend⟩ := bind_eq_ok.mp hlast
  obtain rfl := Except.ok.inj hend
  obtain ⟨s, hs, hrest⟩ := bind_eq_ok.mp hround
  obtain ⟨_, _, hrest⟩ := bind_eq_ok.mp hrest
  obtain ⟨_, _, hrest⟩ := bind_eq_ok.mp hrest
  obtain rfl := Except.ok.inj hrest
  exact List.mem_append_right _ ((integrate_gainArgs hstep hs).2 hft)

/-- The gain is asked for at the lower end, and nowhere outside; a single tap asks
for it at zero. -/
theorem buildFIRFilter_gainArgs {fill fc tw fs rip : ℚ} {base : Base} (hstep : 0 ≤ step)
    (hrun : buildFIRFilter libm id fill fuel fc tw fs rip (some gain) step = .ok base) :
    (windowOrder libm rip tw fs = 0 → base.gainArgs = [0]) ∧
      (windowOrder libm rip tw fs ≠ 0 →
        (∀ f ∈ base.gainArgs, |f| ≤ fc / fs) ∧ (0 ≤ fc / fs → -(fc / fs) ∈ base.gainArgs)) := by
  obtain ⟨window, hwindow, hrest⟩ := bind_eq_ok.mp hrun
  obtain ⟨filter, hfilter, hrest⟩ := bind_eq_ok.mp hrest
  obtain ⟨_, _, hrest⟩ := bind_eq_ok.mp hrest
  obtain rfl := Except.ok.inj hrest
  rw [length_of_buildKaiser hwindow] at hfilter
  refine ⟨fun hm => ?_, fun hm => ?_⟩
  · rw [hm] at hfilter
    obtain rfl := Except.ok.inj hfilter
    rfl
  · have htaps : 2 ≤ windowOrder libm rip tw fs + 1 := by omega
    obtain ⟨hwithin, hfirst⟩ := buildFIRBase_gainArgs hstep htaps hfilter
    exact ⟨hwithin, hfirst⟩

/-- A design whose window can be made returns. -/
theorem buildFIRFilter_returns (libm : Libm) (gain : ℚ → ℚ) {fill fc tw fs rip : ℚ}
    (hstep : 0 < step) (hm : windowOrder libm rip tw fs + 1 < 2 ^ 31)
    (hfuel : frequencies (fc / fs) step ≤ fuel) :
    ∃ base, buildFIRFilter libm id fill fuel fc tw fs rip (some gain) step = .ok base := by
  have htaps : 1 ≤ windowOrder libm rip tw fs + 1 := by omega
  have hreturns : ∀ i, ∃ s, integrate libm id fuel gain (fc / fs) step
      (windowOrder libm rip tw fs + 1) i = .ok s :=
    integrate_returns libm (advances_exact (fc / fs) hstep) hfuel
  choose integral hintegral using hreturns
  obtain ⟨gainArgs, hbase⟩ := buildFIRBase_gain libm htaps hintegral
  rw [buildFIRFilter, buildKaiser_eq libm hm, ok_bind, length_filled, hbase, ok_bind,
    multiply_eq (by simp), ok_bind]
  exact ⟨_, rfl⟩

end Frequencies

section Rates

variable {libm : Libm} {cfg : ResamplerConfig} {fuel I D : ℕ} {p : Plan}

/-- The rates of a rational plan. -/
theorem plan_rational (hin : 0 < cfg.inputRate) (hplan : plan id fuel cfg = .ok p)
    (hfir : p.fir = .rational I D) :
    0 < p.firInputRate ∧ p.actualOutputRate = floatDiv id (p.firInputRate * I) D := by
  unfold plan at hplan
  obtain ⟨⟨cicR, cicD⟩, hloop, hrest⟩ := bind_eq_ok.mp hplan
  obtain ⟨m, _, hs, _⟩ := rateLoop_eq_ok hin hloop
  obtain ⟨rfl, rfl⟩ := Prod.mk.inj hs
  obtain ⟨⟨fir, rate⟩, hrates, hp⟩ := bind_eq_ok.mp hrest
  obtain rfl := Except.ok.inj hp
  have hcicD : (0 : ℚ) < (2 ^ m : ℕ) := by positivity
  refine ⟨div_pos hin hcicD, ?_⟩
  unfold planFir at hrates
  split at hrates
  · obtain ⟨d, _, hreduced⟩ := bind_eq_ok.mp hrates
    split at hreduced
    · exact absurd hreduced (by simp)
    · split at hreduced
      · exact absurd hreduced (by simp)
      · obtain ⟨rfl, rfl⟩ := Prod.mk.inj (Except.ok.inj hreduced)
        obtain ⟨rfl, rfl⟩ := FirPlan.rational.inj hfir
        rfl
  · obtain ⟨rfl, rfl⟩ := Prod.mk.inj (Except.ok.inj hrates)
    exact absurd hfir (by simp)

/-- The order of the window depends on the quotient of the two rates. -/
theorem windowOrder_normalised (libm : Libm) (rip tw fs : ℚ) :
    windowOrder libm rip tw fs = windowOrder libm rip (tw / fs) 1 := by
  unfold windowOrder
  rw [div_one, mul_div_assoc]

/-- A design with a gain, in the terms of the configuration. -/
theorem designTaps_gainArgs {base : Base} (hin : 0 < cfg.inputRate)
    (hplan : plan id fuel cfg = .ok p) (hfir : p.fir = .rational I D) (hI : 1 ≤ I)
    (hcic : p.cicR ≠ 1) {fuel' : ℕ} (hdesign : designTaps libm fuel' cfg p = .ok base) :
    0 < D ∧
      (windowOrder libm cfg.desiredRipple (cfg.transitionWidthFraction / D) 1 = 0 →
        base.gainArgs = [0]) ∧
      (windowOrder libm cfg.desiredRipple (cfg.transitionWidthFraction / D) 1 ≠ 0 →
        (∀ f ∈ base.gainArgs, |f| ≤ cfg.cutoffFraction / D) ∧
          (0 ≤ cfg.cutoffFraction / D → -(cfg.cutoffFraction / D) ∈ base.gainArgs)) := by
  obtain ⟨hrate, hout⟩ := plan_rational hin hplan hfir
  have hI : (0 : ℚ) < I := by exact_mod_cast hI
  have hD : 0 < D := by
    rcases Nat.eq_zero_or_pos D with rfl | hpos
    · rw [designTaps, hout] at hdesign
      exact absurd hdesign (by simp [floatDiv])
    · exact hpos
  have hD' : (D : ℚ) ≠ 0 := by exact_mod_cast hD.ne'
  rw [designTaps, hout, hfir, floatDiv, if_neg hD', if_neg hcic] at hdesign
  have hargs := buildFIRFilter_gainArgs (by norm_num [defaultStep]) hdesign
  have hfraction : ∀ x, p.firInputRate * I / D * x / (p.firInputRate * I) = x / D := by
    intro x
    field_simp
  simp only [interpolation, windowOrder_normalised libm _ (_ * _) _, id_eq, hfraction] at hargs
  exact ⟨hD, hargs⟩

theorem designTaps_returns (libm : Libm) {rate : ℚ} (hrate : p.actualOutputRate = some rate)
    (hcic : p.cicR ≠ 1)
    (hm : windowOrder libm cfg.desiredRipple (rate * cfg.transitionWidthFraction)
      (p.firInputRate * interpolation p.fir) + 1 < 2 ^ 31)
    (hfuel : frequencies (rate * cfg.cutoffFraction / (p.firInputRate * interpolation p.fir))
      defaultStep ≤ fuel) :
    ∃ base, designTaps libm fuel cfg p = .ok base := by
  rw [designTaps, hrate, if_neg hcic]
  exact buildFIRFilter_returns libm _ (by norm_num [defaultStep]) hm hfuel

end Rates

/-- The stream without a decoder: 2.4 MHz are brought to 18.75 kHz, and from there to
6 kHz by a filter that interpolates eight times. -/
theorem plan_defaults : plan id 64 DecoderConfig.defaults =
    .ok ⟨8, 128, 6, 18750, .rational 8 25, some 6000⟩ := by
  decide +kernel

theorem designTaps_defaults : ∃ base, designTaps nearZero 49 DecoderConfig.defaults
    ⟨8, 128, 6, 18750, .rational 8 25, some 6000⟩ = .ok base :=
  designTaps_returns nearZero rfl (by decide) (by decide +kernel) (by decide +kernel)

end EsSensor.DroopCompensation
