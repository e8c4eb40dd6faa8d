import EsSensor.CommandLine
import EsSensor.HopCoverage

/-!
The hop list of a configuration that the program accepts. The command line takes
any rate and any overlap, and the checks at the start compare the bounds for two
of the pipelines only, while the list is computed for every one of them.
-/
namespace EsSensor.HopList

open CheckedLoop FloatRounding MachineWord SequentialHopping HopCoverage Settings CommandLine

/-- The checks that `main` makes before it starts anything. -/
def checks (s : Settings) : Bool :=
  !(s.pipeline == "IQ" && s.minFreq != s.maxFreq) &&
    !(s.pipeline == "PSD" && decide (s.maxFreq ≤ s.minFreq))

section Statement

variable (ctx : ElectrosenseContext)

/-- The floating point numbers that the constructor converts are ones that the
integer type holds. The language gives no meaning to other conversions. -/
structure Converts : Prop where
  step : ⌊ctx.keptPart ctx.samplingRate⌋ < 2 ^ 64
  hops : hopQuotient (u64Sub ctx.maxFreq ctx.minFreq) (mFreqStep ctx) < 2 ^ 64
  first : lowestHop ctx.minFreq (mFreqStep ctx) < 2 ^ 64

structure WellDefined : Prop extends Converts ctx where
  step_ne_zero : mFreqStep ctx ≠ 0
  difference : (u64Sub ctx.maxFreq ctx.minFreq : ℤ) = ctx.maxFreq - ctx.minFreq
  count_fits : int32 (mTotalHops ctx) = mTotalHops ctx
  listed : ∃ h, new ctx = .ok h ∧ h.mFreqs.length = max 1 (mTotalHops ctx) ∧
    h.mFreqs.Pairwise (· < ·)

/-- What the overlap, the rate and the bounds have to be: a step of one hertz at
least, no more hops than an `int` counts, and no hop above the largest word. -/
structure InRange (step : ℕ) : Prop where
  step_eq : ⌊binary32.round (binary32.round (1 - ctx.freqOverlap) *
    binary32.round ctx.samplingRate)⌋ = step
  step_pos : 1 ≤ step
  step_word : step < 2 ^ 64
  few : hopQuotient (ctx.maxFreq - ctx.minFreq) step < 2 ^ 31
  last_word : lowestHop ctx.minFreq step +
    (⌊hopQuotient (ctx.maxFreq - ctx.minFreq) step⌋.toNat - 1) * step < 2 ^ 64

end Statement

variable {ctx : ElectrosenseContext}

/-- A list that goes up has not wrapped anywhere. -/
theorem pairwise_lt_iff (hstep : mFreqStep ctx ≠ 0) (hfirst : wideFreq ctx 0 < 2 ^ 64) (n : ℕ) :
    ((List.range (n + 1)).map (fun i => u64 (wideFreq ctx i))).Pairwise (· < ·) ↔
      wideFreq ctx n < 2 ^ 64 := by
  constructor
  · intro hincreasing
    induction n with
    | zero => exact hfirst
    | succ n ih =>
      rw [List.range_succ, List.map_append, List.pairwise_append] at hincreasing
      obtain ⟨hfront, _, hlast⟩ := hincreasing
      have hn := ih hfront
      have hlt : u64 (wideFreq ctx n) < u64 (wideFreq ctx (n + 1)) :=
        hlast _ (List.mem_map.mpr ⟨n, List.self_mem_range_succ, rfl⟩) _ (by simp)
      have hword : mFreqStep ctx < 2 ^ 64 := Nat.mod_lt _ (by decide)
      have hnext : wideFreq ctx (n + 1) = wideFreq ctx n + mFreqStep ctx := by
        rw [wideFreq_eq ctx (n + 1), wideFreq_eq ctx n, Nat.succ_mul, Nat.add_assoc]
      rw [u64_of_lt hn, hnext] at hlt
      rw [hnext]
      unfold u64 at hlt
      omega
  · intro hlast
    have hword : ∀ i ∈ List.range (n + 1), u64 (wideFreq ctx i) = wideFreq ctx i := by
      intro i hi
      have hmono : wideFreq ctx i ≤ wideFreq ctx n :=
        wideFreq_mono (Nat.le_of_lt_succ (List.mem_range.mp hi))
      exact u64_of_lt (by omega)
    rw [List.pairwise_map]
    refine List.pairwise_lt_range.imp_of_mem ?_
    intro i j hi hj hij
    rw [hword i hi, hword j hj, wideFreq_eq ctx i, wideFreq_eq ctx j]
    exact Nat.add_lt_add_left (Nat.mul_lt_mul_of_pos_right hij (Nat.pos_of_ne_zero hstep)) _

theorem u64Sub_eq_iff {a b : ℕ} (ha : a < 2 ^ 64) (hb : b < 2 ^ 64) :
    (u64Sub a b : ℤ) = a - b ↔ b ≤ a := by
  unfold u64Sub u64
  omega

theorem mFreqStep_eq_iff {step : ℕ} (hpos : 1 ≤ step) (hword : step < 2 ^ 64) :
    ⌊ctx.keptPart ctx.samplingRate⌋ < 2 ^ 64 ∧ mFreqStep ctx = step ↔
      ⌊ctx.keptPart ctx.samplingRate⌋ = step := by
  unfold mFreqStep u64
  omega

theorem int32_natCast_iff {n : ℕ} (hn : n < 2 ^ 64) : int32 n = n ↔ n < 2 ^ 31 := by
  constructor
  · intro heq
    have hlt := (int32_bounds n).2
    omega
  · exact int32_of_lt

/-- The list has its length whenever it is built; whether it goes up is told by its last
frequency. -/
theorem listed_iff (hstep : mFreqStep ctx ≠ 0) (hfirst : wideFreq ctx 0 < 2 ^ 64)
    (hfits : int32 (mTotalHops ctx) = mTotalHops ctx) :
    (∃ h, new ctx = .ok h ∧ h.mFreqs.length = max 1 (mTotalHops ctx) ∧
      h.mFreqs.Pairwise (· < ·)) ↔ wideFreq ctx (mTotalHops ctx - 1) < 2 ^ 64 := by
  obtain ⟨h, hnew, _, hfreqs⟩ := new_eq ctx
  have hcount : hopCount ctx = mTotalHops ctx - 1 + 1 := by
    rw [hopCount, hfits]
    omega
  rw [hcount] at hfreqs
  rw [← pairwise_lt_iff hstep hfirst, ← hfreqs]
  constructor
  · rintro ⟨h', hnew', _, hincreasing⟩
    obtain rfl : h = h' := Except.ok.inj (hnew.symm.trans hnew')
    exact hincreasing
  · intro hincreasing
    refine ⟨h, hnew, ?_, hincreasing⟩
    rw [hfreqs, List.length_map, List.length_range]
    omega

theorem floor_toNat_lt_iff {x : ℚ} {n : ℕ} (hn : 0 < n) : ⌊x⌋.toNat < n ↔ x < n := by
  have hfloor := Int.floor_lt (a := x) (z := (n : ℤ))
  rw [Int.cast_natCast] at hfloor
  rw [← hfloor]
  omega

theorem wellDefined_of_inRange {step : ℕ} (hrange : InRange ctx step)
    (hordered : ctx.minFreq ≤ ctx.maxFreq) (hmax : ctx.maxFreq < 2 ^ 64) : WellDefined ctx := by
  obtain ⟨hconverts, hstep⟩ :=
    (mFreqStep_eq_iff hrange.step_pos hrange.step_word).mpr hrange.step_eq
  have hdiff : u64Sub ctx.maxFreq ctx.minFreq = ctx.maxFreq - ctx.minFreq := by
    have hsub := (u64Sub_eq_iff hmax (by omega)).mpr hordered
    omega
  have hne : mFreqStep ctx ≠ 0 := by
    have hpos := hrange.step_pos
    omega
  have hfew := (floor_toNat_lt_iff (n := 2 ^ 31) (by decide)).mpr (by exact_mod_cast hrange.few)
  have hhops : mTotalHops ctx = ⌊hopQuotient (ctx.maxFreq - ctx.minFreq) step⌋.toNat := by
    rw [mTotalHops, if_neg hne, hdiff, hstep, u64_of_lt (by omega)]
  have hlast := hrange.last_word
  have hfirst : lowestHop ctx.minFreq (mFreqStep ctx) < 2 ^ 64 := by
    rw [hstep]
    omega
  have hfits : int32 (mTotalHops ctx) = mTotalHops ctx := int32_of_lt (by omega)
  refine ⟨⟨hconverts, ?_, hfirst⟩, hne, (u64Sub_eq_iff hmax (by omega)).mpr hordered, hfits, ?_⟩
  · rw [hdiff, hstep]
    exact hrange.few.trans (by norm_num)
  · rw [listed_iff hne (by simpa [wideFreq] using hfirst) hfits, wideFreq, hhops, hstep]
    exact hlast

theorem inRange_of_wellDefined (hwell : WellDefined ctx) (hmin : ctx.minFreq < 2 ^ 64)
    (hmax : ctx.maxFreq < 2 ^ 64) :
    ctx.minFreq ≤ ctx.maxFreq ∧ InRange ctx (mFreqStep ctx) := by
  have hpos : 1 ≤ mFreqStep ctx := Nat.one_le_iff_ne_zero.mpr hwell.step_ne_zero
  have hword : mFreqStep ctx < 2 ^ 64 := Nat.mod_lt _ (by decide)
  have hordered := (u64Sub_eq_iff hmax hmin).mp hwell.difference
  have hdiff : u64Sub ctx.maxFreq ctx.minFreq = ctx.maxFreq - ctx.minFreq := by
    have hsub := hwell.difference
    omega
  have hquotient :
      ⌊hopQuotient (u64Sub ctx.maxFreq ctx.minFreq) (mFreqStep ctx)⌋.toNat < 2 ^ 64 := by
    rw [floor_toNat_lt_iff (by decide)]
    exact_mod_cast hwell.hops
  have hhops : mTotalHops ctx =
      ⌊hopQuotient (ctx.maxFreq - ctx.minFreq) (mFreqStep ctx)⌋.toNat := by
    rw [mTotalHops, if_neg hwell.step_ne_zero, u64_of_lt hquotient, hdiff]
  have hlast := (listed_iff hwell.step_ne_zero (by simpa [wideFreq] using hwell.first)
    hwell.count_fits).mp hwell.listed
  have htotal : mTotalHops ctx < 2 ^ 64 := by
    rw [hhops, ← hdiff]
    exact hquotient
  have hcount : mTotalHops ctx < 2 ^ 31 := (int32_natCast_iff htotal).mp hwell.count_fits
  refine ⟨hordered, (mFreqStep_eq_iff hpos hword).mp ⟨hwell.step, rfl⟩, hpos, hword, ?_, ?_⟩
  · rw [hhops, floor_toNat_lt_iff (by decide)] at hcount
    exact_mod_cast hcount
  · rw [wideFreq, hhops] at hlast
    exact hlast

theorem ordered_of_checks {s : Settings} (hchecks : checks s = true)
    (hpipeline : s.pipeline = "PSD" ∨ s.pipeline = "IQ") : s.minFreq ≤ s.maxFreq := by
  unfold checks at hchecks
  rcases hpipeline with hpsd | hiq
  · simp [hpsd] at hchecks
    omega
  · simp [hiq] at hchecks
    omega

/-- An accepted configuration has a well-defined hop list exactly when its bounds are
ordered, which is checked for two of the pipelines, and its step and hops are in range. -/
theorem wellDefined_iff {libc : Libc} {shifter : Shifter} {s s' : Settings}
    {opts : List Opt} {operands : List String}
    (hparse : parseArgs libc shifter opts operands s = some s') (hchecks : checks s' = true) :
    WellDefined s'.toElectrosenseContext ↔
      (s'.pipeline = "PSD" ∨ s'.pipeline = "IQ" ∨ s'.minFreq ≤ s'.maxFreq) ∧
        ∃ step, InRange s'.toElectrosenseContext step := by
  obtain ⟨t, minFreq, maxFreq, _, _, hs'⟩ := parseArgs_eq_some.mp hparse
  have hmin : s'.minFreq < 2 ^ 64 := by
    rw [hs']
    exact word64_lt _
  have hmax : s'.maxFreq < 2 ^ 64 := by
    rw [hs']
    exact word64_lt _
  constructor
  · intro hwell
    obtain ⟨hordered, hrange⟩ := inRange_of_wellDefined hwell hmin hmax
    exact ⟨Or.inr (Or.inr hordered), _, hrange⟩
  · rintro ⟨hpipeline, step, hrange⟩
    refine wellDefined_of_inRange hrange ?_ hmax
    rcases hpipeline with hpsd | hiq | hordered
    · exact ordered_of_checks hchecks (Or.inl hpsd)
    · exact ordered_of_checks hchecks (Or.inr hiq)
    · exact hordered

theorem decimal_low : word64 (Libc.ofDigits.atoll "24000000") = 24000000 := by decide +kernel

theorem decimal_high : word64 (Libc.ofDigits.atoll "1700000000") = 1700000000 := by decide +kernel

/-- The sweep of the example in the manual, with the defaults. -/
theorem wellDefined_iff_sweep :
    ∃ s', parseArgs .ofDigits default [] ["24000000", "1700000000"] (initial default) = some s' ∧
      WellDefined s'.toElectrosenseContext := by
  have hparse : parseArgs .ofDigits default [] ["24000000", "1700000000"] (initial default) =
      some { initial default with minFreq := 24000000, maxFreq := 1700000000 } :=
    parseArgs_eq_some.mpr ⟨initial default, _, _, rfl, rfl, by rw [decimal_low, decimal_high]⟩
  refine ⟨_, hparse, (wellDefined_iff hparse (by decide +kernel)).mpr ⟨Or.inl rfl, 2000000, ?_⟩⟩
  exact ⟨by decide +kernel, by decide, by decide, by decide +kernel, by decide +kernel⟩

/-- Bounds the wrong way round are accepted for the DEC pipeline, and an overlap of
one for any pipeline. -/
theorem accepted_not_wellDefined :
    (∃ s', parseArgs .ofDigits default [⟨'z', "DEC"⟩] ["1700000000", "24000000"]
        (initial default) = some s' ∧ checks s' = true ∧
      (u64Sub s'.maxFreq s'.minFreq : ℤ) ≠ s'.maxFreq - s'.minFreq ∧
      ¬ WellDefined s'.toElectrosenseContext) ∧
    ∃ s', parseArgs .ofDigits default [⟨'q', "1"⟩] ["24000000", "1700000000"]
        (initial default) = some s' ∧ checks s' = true ∧
      mFreqStep s'.toElectrosenseContext = 0 ∧ ¬ WellDefined s'.toElectrosenseContext := by
  constructor
  · have hparse : parseArgs .ofDigits default [⟨'z', "DEC"⟩] ["1700000000", "24000000"]
        (initial default) = some { initial default with
          pipeline := "DEC", minFreq := 1700000000, maxFreq := 24000000 } :=
      parseArgs_eq_some.mpr ⟨{ initial default with pipeline := "DEC" }, _, _, rfl, rfl,
        by rw [decimal_low, decimal_high]⟩
    refine ⟨_, hparse, by decide +kernel, by decide +kernel, ?_⟩
    intro hwell
    exact absurd hwell.difference (by decide +kernel)
  · have hone : Libc.ofDigits.toFloat (Libc.ofDigits.atof "1") = 1 := by decide +kernel
    have hparse : parseArgs .ofDigits default [⟨'q', "1"⟩] ["24000000", "1700000000"]
        (initial default) = some { initial default with
          freqOverlap := 1, minFreq := 24000000, maxFreq := 1700000000 } :=
      parseArgs_eq_some.mpr ⟨_, _, _, rfl, rfl, by rw [hone, decimal_low, decimal_high]⟩
    refine ⟨_, hparse, by decide +kernel, by decide +kernel, ?_⟩
    intro hwell
    exact hwell.step_ne_zero (by decide +kernel)

end EsSensor.HopList
