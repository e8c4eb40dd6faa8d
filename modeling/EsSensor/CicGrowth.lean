import EsSensor.Resampler

/-!
Whether the 32-bit accumulators hold the decimating stage that the resampler
plans. The rate loop chooses the decimation from the rates alone, in single
precision; the growth of the stage is compared here with the word, and the
configurations for which they agree are described by the rates.
-/
namespace EsSensor.CicGrowth

open CheckedLoop FloatRounding MachineWord CicFilter Resampler

/-- What an active stage has to satisfy: the growth is the true one and divides,
the largest sum fits, and normalized outputs are again in the range of a byte. -/
structure Held (p : Plan) : Prop where
  growth_eq : (CIC.new 32 p.cicOrder p.cicD).getGrowth.toNat = p.cicD ^ p.cicOrder
  growth_ne : (CIC.new 32 p.cicOrder p.cicD).getGrowth.toNat ≠ 0
  fits : 255 * p.cicD ^ p.cicOrder < 2 ^ 32
  range : ∀ calls : List (List UInt8), ∃ cic outs,
    (CIC.new 32 p.cicOrder p.cicD).filterCalls (calls.map samples) = .ok (cic, outs) ∧
    ∀ out ∈ outs.flatten, ∃ q : ℚ,
      divideGrowth binary32.round (CIC.new 32 p.cicOrder p.cicD).getGrowth out = .ok q ∧
        0 ≤ q ∧ q ≤ 255

theorem growth_toNat (order rate : ℕ) :
    (CIC.new 32 order rate).getGrowth.toNat = rate ^ order % 2 ^ 32 := by
  rw [CIC.getGrowth_new]
  exact BitVec.toNat_ofNat _ _

/-- The bytes of all calls as one stream. -/
theorem mem_samples_flatten {calls : List (List UInt8)} {a : ℤ}
    (ha : a ∈ (calls.map samples).flatten) : 0 ≤ a ∧ a ≤ 255 := by
  obtain ⟨call, hcall, hac⟩ := List.mem_flatten.mp ha
  obtain ⟨bytes, _, rfl⟩ := List.mem_map.mp hcall
  obtain ⟨b, _, rfl⟩ := List.mem_map.mp hac
  have hb := b.toNat_lt
  omega

/-- A growth that is a power of two is exact, and so is 255 times the growth: rounding
leaves the quotient in the range. -/
theorem divideGrowth_range {growth sample : BitVec 32} {k : ℕ} (hgrowth : growth.toNat = 2 ^ k)
    (hsample : sample.toNat ≤ 255 * growth.toNat) :
    ∃ q : ℚ, divideGrowth binary32.round growth sample = .ok q ∧ 0 ≤ q ∧ q ≤ 255 := by
  have hpos : (0 : ℚ) < (2 ^ k : ℕ) := by positivity
  have hexact : binary32.round (2 ^ k : ℕ) = (2 ^ k : ℕ) := by
    simpa using Format.round_natCast_mul_pow (f := binary32) (m := 1) (by decide) (by decide) k
  have hlargest : binary32.round (255 * 2 ^ k : ℕ) = (255 * 2 ^ k : ℕ) :=
    Format.round_natCast_mul_pow (by decide) (by decide) k
  have hsample0 : 0 ≤ binary32.round sample.toNat := Format.round_nonneg (Nat.cast_nonneg _)
  have hsample' : binary32.round sample.toNat ≤ (255 * 2 ^ k : ℕ) := by
    rw [← hlargest]
    exact Format.round_mono (by exact_mod_cast hgrowth ▸ hsample)
  have hquotient : binary32.round sample.toNat / (2 ^ k : ℕ) ≤ (255 : ℕ) := by
    rw [div_le_iff₀ hpos]
    exact_mod_cast hsample'
  have hbound : binary32.round (255 : ℕ) = (255 : ℕ) :=
    Format.round_natCast (by decide) (by decide)
  refine ⟨binary32.round (binary32.round sample.toNat / (2 ^ k : ℕ)), ?_, ?_, ?_⟩
  · rw [divideGrowth, floatDiv, hgrowth, hexact, if_neg hpos.ne']
  · exact Format.round_nonneg (div_nonneg hsample0 hpos.le)
  · have hle := Format.round_mono (f := binary32) hquotient
    rw [hbound] at hle
    exact_mod_cast hle

/-- Every stage whose largest sum fits the word is held. -/
theorem held_of_fits {p : Plan} {m : ℕ} (horder : p.cicOrder ≤ maxOrder)
    (hcicD2 : p.cicD = 2 ^ m) (hfits : 255 * p.cicD ^ p.cicOrder < 2 ^ 32) : Held p := by
  have hcicD : 1 ≤ p.cicD := by
    rw [hcicD2]
    exact Nat.one_le_two_pow
  have hpow : 1 ≤ p.cicD ^ p.cicOrder := Nat.one_le_pow _ _ hcicD
  have hgrowth : (CIC.new 32 p.cicOrder p.cicD).getGrowth.toNat = p.cicD ^ p.cicOrder := by
    rw [growth_toNat, Nat.mod_eq_of_lt (by omega)]
  refine ⟨hgrowth, by omega, hfits, fun calls => ?_⟩
  obtain ⟨cic, outs, hrun, houts⟩ := filterCalls_new (w := 32) p.cicOrder p.cicD horder hcicD
    (calls.map samples)
  refine ⟨cic, outs, hrun, fun out hout => divideGrowth_range (k := m * p.cicOrder)
    (by rw [hgrowth, hcicD2, ← pow_mul]) ?_⟩
  rw [houts] at hout
  obtain ⟨k, _, rfl⟩ := List.mem_map.mp hout
  obtain ⟨hlow, hhigh⟩ := reference_bounds p.cicOrder p.cicD (calls.map samples).flatten 255
    (fun a ha => mem_samples_flatten ha) (by omega) k
  have hfits' : (255 : ℤ) * p.cicD ^ p.cicOrder < 2 ^ 32 := by exact_mod_cast hfits
  have hvalue := toNat_intCast (w := 32)
    (reference p.cicOrder p.cicD (calls.map samples).flatten k)
  rw [Int.emod_eq_of_lt hlow (lt_of_le_of_lt hhigh hfits')] at hvalue
  rw [hgrowth]
  have hbound : (255 : ℤ) * p.cicD ^ p.cicOrder = (255 * p.cicD ^ p.cicOrder : ℕ) := by
    push_cast
    rfl
  omega

/-- With 8-bit samples, 24 of the 32 bits are left for the growth. -/
theorem fits_pow_iff (m order : ℕ) : 255 * (2 ^ m) ^ order < 2 ^ 32 ↔ m * order ≤ 24 := by
  rw [← pow_mul]
  constructor
  · intro hfits
    by_contra hlarge
    have hpow : 2 ^ 25 ≤ 2 ^ (m * order) := Nat.pow_le_pow_right (by decide) (by omega)
    omega
  · intro hsmall
    have hpow : 2 ^ (m * order) ≤ 2 ^ 24 := Nat.pow_le_pow_right (by decide) hsmall
    omega

/-- The rate loop stops within e rounds exactly when e doublings are enough. -/
theorem rounds_le_iff {fl : ℚ → ℚ} (hfl : Monotone fl) {inputRate target : ℚ}
    (hin : 0 < inputRate) {m : ℕ} (hlow : fl (inputRate / 2 ^ m) < target)
    (hhigh : ∀ i < m, target ≤ fl (inputRate / 2 ^ i)) (e : ℕ) :
    m ≤ e ↔ fl (inputRate / 2 ^ e) < target := by
  constructor
  · intro hle
    have hpow : (2 : ℚ) ^ m ≤ 2 ^ e := pow_le_pow_right₀ (by norm_num) hle
    have hquotient : inputRate / 2 ^ e ≤ inputRate / 2 ^ m :=
      div_le_div_of_nonneg_left hin.le (by positivity) hpow
    exact (hfl hquotient).trans_lt hlow
  · intro hlt
    by_contra hgt
    exact absurd (hhigh e (by omega)) (not_le.mpr hlt)

/-- The rates for which the planned stage fits 32-bit accumulators. -/
def RatesFit (cfg : ResamplerConfig) : Prop :=
  cfg.cicOrder = 0 ∨
    binary32.round (cfg.inputRate / 2 ^ (24 / cfg.cicOrder)) <
      binary32.round (binary32.round cfg.cicOversampleFactor * cfg.outputRate)

/-- An accepted configuration plans a stage that its accumulators hold exactly
when the rates fit. Nothing in the constructor checks this. -/
theorem planned_stage_held_iff (cfg : ResamplerConfig) (hin : 0 < cfg.inputRate)
    (hout : 0 < cfg.outputRate) (horder : cfg.cicOrder ≤ maxOrder)
    (hfactor : 1 ≤ cfg.cicOversampleFactor) (fuel : ℕ) (p : Plan)
    (haccept : plan binary32.round fuel cfg = .ok p) :
    (p.cicR ≠ 1 → Held p) ↔ RatesFit cfg := by
  obtain ⟨m, _, hcicR, hcicD, hcicOrder, hlow, hhigh⟩ :=
    plan_eq_ok ⟨hin, hout, horder, hfactor⟩ haccept
  have hrates : RatesFit cfg ↔ m * cfg.cicOrder ≤ 24 := by
    rcases Nat.eq_zero_or_pos cfg.cicOrder with hzero | hpos
    · simp [RatesFit, hzero]
    · rw [← Nat.le_div_iff_mul_le hpos, rounds_le_iff Format.round_mono hin hlow hhigh]
      simp [RatesFit, targetRate, hpos.ne']
  rw [hrates]
  rcases Nat.eq_zero_or_pos m with rfl | hm
  · simp [hcicR]
  · have horder' : p.cicOrder = cfg.cicOrder := by rw [hcicOrder, if_neg hm.ne']
    rw [← fits_pow_iff, ← hcicD, ← horder']
    constructor
    · intro hheld
      exact (hheld (by omega)).fits
    · intro hfits _
      exact held_of_fits (by omega) hcicD hfits

/-- The default rates of the stream decoder: 2.4 MHz down to 6 kHz. -/
def defaultRates : ResamplerConfig where
  inputRate := 2400000
  outputRate := 6000
  transitionWidthFraction := 1 / 5
  desiredRipple := -40

/-- The 60 kHz decoder sits exactly at the limit. -/
def decoderRates : ResamplerConfig where
  inputRate := 2400000
  outputRate := 60000

/-- Three times 50000.01171875 is rounded up to the rate that four doublings leave, so the
loop goes on to 32. -/
example :
    (plan binary32.round 64
      { inputRate := 2400000 + 1 / 2
        outputRate := 50000 + 3 / 256
        cicOversampleFactor := 3 }).map (fun p => p.cicD) = .ok 32 := by
  decide +kernel

theorem plan_defaultRates : plan binary32.round 64 defaultRates =
    .ok ⟨8, 128, 6, 18750, .rational 8 25, some 6000⟩ := by
  decide +kernel

theorem planned_stage_held_iff_decoder :
    ∃ p, plan binary32.round 64 decoderRates = .ok p ∧ p.cicR ≠ 1 ∧ Held p := by
  refine ⟨⟨5, 16, 6, 150000, .rational 2 5, some 60000⟩, by decide +kernel, by decide, ?_⟩
  refine (planned_stage_held_iff decoderRates (by norm_num [decoderRates])
    (by norm_num [decoderRates]) (by decide) (by decide) 64 _ (by decide +kernel)).mpr ?_
    (by decide)
  right
  decide +kernel

theorem default_rates_overflow :
    defaultRates.Valid ∧ ∃ p, plan binary32.round 64 defaultRates = .ok p ∧ p.cicR ≠ 1 ∧
      (CIC.new 32 p.cicOrder p.cicD).getGrowth.toNat = 0 ∧ ¬ Held p := by
  have hvalid : defaultRates.Valid :=
    ⟨by norm_num [defaultRates], by norm_num [defaultRates], by decide, by decide⟩
  have hzero : (CIC.new 32 6 128).getGrowth.toNat = 0 := by
    rw [growth_toNat]
    norm_num
  exact ⟨hvalid, _, plan_defaultRates, by decide, hzero, fun hheld => hheld.growth_ne hzero⟩

end EsSensor.CicGrowth
