import EsSensor.SequentialHopping
import Mathlib.Data.Real.Basic
import Mathlib.Tactic.Linarith

/-!
The frequencies of a round of hops are an arithmetic progression, as far as the
words hold it. A round covers the requested range exactly when its first and its last
frequency come near enough to the ends and the step leaves no gap, or when one
frequency is near to both ends.
-/
namespace EsSensor.HopCoverage

open CheckedLoop FloatRounding MachineWord SequentialHopping

variable {ctx : ElectrosenseContext}

/-- How many frequencies the constructor lists. -/
def hopCount (ctx : ElectrosenseContext) : ℕ := (int32 (mTotalHops ctx) - 1).toNat + 1

/-- The frequency of hop i before it is cut to a word. -/
def wideFreq (ctx : ElectrosenseContext) (i : ℕ) : ℕ :=
  lowestHop ctx.minFreq (mFreqStep ctx) + i * mFreqStep ctx

theorem insertNext_range (n : ℕ) :
    (List.range' 1 n).foldlM (insertNext ctx) [firstFreq ctx] =
      .ok ((List.range (n + 1)).map (fun i => u64 (wideFreq ctx i))) := by
  induction n with
  | zero => simp [wideFreq, firstFreq, pure, Except.pure]
  | succ n ih =>
    have hread : readAt ((List.range (n + 1)).map (fun i => u64 (wideFreq ctx i))) (1 + n - 1) =
        .ok (u64 (wideFreq ctx n)) := by
      rw [readAt_eq_ok]
      simp
    have hnext : u64 (u64 (wideFreq ctx n) + mFreqStep ctx) = u64 (wideFreq ctx (n + 1)) := by
      rw [u64_add_left]
      congr 1
      unfold wideFreq
      rw [Nat.add_mul, Nat.one_mul, Nat.add_assoc]
    rw [List.range'_1_concat, List.foldlM_append, ih, ok_bind]
    simp only [List.foldlM_cons, List.foldlM_nil, insertNext, hread, ok_bind, hnext]
    rw [List.range_succ (n := n + 1), List.map_append]
    rfl

theorem new_eq (ctx : ElectrosenseContext) :
    ∃ h, new ctx = .ok h ∧ h.mIndex = 0 ∧
      h.mFreqs = (List.range (hopCount ctx)).map (fun i => u64 (wideFreq ctx i)) := by
  unfold hopCount
  have hfreqs : (List.range ((int32 (mTotalHops ctx) - 1).toNat + 1)).map
      (fun i => u64 (wideFreq ctx i)) ≠ [] := by simp
  refine ⟨ofFreqs _ hfreqs, ?_, rfl, ofFreqs_mFreqs hfreqs⟩
  rw [new, insertNext_range, ok_bind, dif_pos hfreqs]

/-- Intervals whose centres are no farther apart than their width leave no gap. -/
theorem exists_near {first step width f : ℝ} (hstep : step ≤ width) (n : ℕ)
    (hlow : first - width / 2 ≤ f) (hhigh : f ≤ first + n * step + width / 2) :
    ∃ i ≤ n, |f - (first + i * step)| ≤ width / 2 := by
  induction n with
  | zero =>
    refine ⟨0, le_refl 0, ?_⟩
    push_cast at hhigh ⊢
    rw [abs_le]
    constructor <;> linarith
  | succ n ih =>
    by_cases hbefore : f ≤ first + n * step + width / 2
    · obtain ⟨i, hi, hnear⟩ := ih hbefore
      exact ⟨i, by omega, hnear⟩
    · refine ⟨n + 1, le_refl _, ?_⟩
      push_cast at hhigh ⊢
      rw [abs_le]
      constructor <;> linarith

/-- An interval that is covered with gaps between the centres is covered by one of them. -/
theorem exists_single {first step width low high : ℝ} {n : ℕ} (hgap : width < step)
    (hrange : low ≤ high)
    (hcovers : ∀ f, low ≤ f → f ≤ high → ∃ i < n, |f - (first + i * step)| ≤ width / 2) :
    ∃ i < n, first + i * step ≤ low + width / 2 ∧ high ≤ first + i * step + width / 2 := by
  obtain ⟨i, hi, hnear⟩ := hcovers low le_rfl hrange
  rw [abs_le] at hnear
  refine ⟨i, hi, by linarith, ?_⟩
  by_contra hbeyond
  -- a point behind the interval that covers the lower end, before the next one begins
  obtain ⟨f, hbehind, hbefore, hhigh⟩ : ∃ f, first + i * step + width / 2 < f ∧
      f < first + i * step + step - width / 2 ∧ f ≤ high := by
    by_cases hnext : high < first + i * step + step - width / 2
    · exact ⟨high, not_le.mp hbeyond, hnext, le_rfl⟩
    · exact ⟨first + i * step + step / 2, by linarith, by linarith, by linarith⟩
  obtain ⟨j, _, hj⟩ := hcovers f (by linarith) hhigh
  rw [abs_le] at hj
  have hstep : 0 ≤ step := by linarith
  rcases Nat.lt_or_ge i j with hlt | hge
  · have hcast : (i : ℝ) + 1 ≤ j := by exact_mod_cast hlt
    have hmul := mul_le_mul_of_nonneg_right hcast hstep
    linarith
  · have hcast : (j : ℝ) ≤ i := by exact_mod_cast hge
    have hmul := mul_le_mul_of_nonneg_right hcast hstep
    linarith

/-- What the words of the code hold, and the step and the range that are asked for. -/
structure Requested (ctx : ElectrosenseContext) : Prop where
  min_lt_max : ctx.minFreq < ctx.maxFreq
  max_word : ctx.maxFreq < 2 ^ 64
  rate_word : ctx.samplingRate < 2 ^ 32
  overlap_nonneg : 0 ≤ ctx.freqOverlap
  overlap_lt : ctx.freqOverlap < 1
  step_pos : 1 ≤ ⌊ctx.keptPart ctx.samplingRate⌋

/-- A rate of 32 bits is not rounded above the next power of two. -/
theorem step_bounds (hctx : Requested ctx) : 1 ≤ mFreqStep ctx ∧ mFreqStep ctx ≤ 2 ^ 32 := by
  have hpos := hctx.step_pos
  have hword : binary32.round (2 ^ 32 : ℕ) = (2 ^ 32 : ℕ) := by decide +kernel
  have hone : binary32.round 1 = 1 := by decide +kernel
  have hfactor : binary32.round (1 - ctx.freqOverlap) ≤ 1 := by
    rw [← hone]
    exact Format.round_mono (by have := hctx.overlap_nonneg; linarith)
  have hrate : binary32.round ctx.samplingRate ≤ (2 ^ 32 : ℕ) := by
    rw [← hword]
    exact Format.round_mono (by exact_mod_cast hctx.rate_word.le)
  have hproduct : binary32.round (1 - ctx.freqOverlap) * binary32.round ctx.samplingRate ≤
      (2 ^ 32 : ℕ) :=
    (mul_le_of_le_one_left (Format.round_nonneg (Nat.cast_nonneg _)) hfactor).trans hrate
  have hkept : ctx.keptPart ctx.samplingRate ≤ (2 ^ 32 : ℕ) := by
    rw [← hword]
    exact Format.round_mono hproduct
  have hfloor := Int.floor_le_floor hkept
  rw [Int.floor_natCast] at hfloor
  rw [mFreqStep, u64_of_lt (by omega)]
  omega

/-- Rounding moves the first frequency by less than 8192 Hz. -/
theorem lowestHop_le {minFreq step : ℕ} (hmin : minFreq < 2 ^ 64) (hstep : step ≤ 2 ^ 32) :
    lowestHop minFreq step ≤ minFreq + step / 2 + 2 ^ 13 := by
  have hexact : binary64.round step = step :=
    Format.round_natCast (lt_of_le_of_lt hstep (by decide)) (by decide)
  have hmin' : (minFreq : ℚ) < 2 ^ 64 := by exact_mod_cast hmin
  have hstep' : (step : ℚ) ≤ 2 ^ 32 := by exact_mod_cast hstep
  have hmin0 : (0 : ℚ) ≤ minFreq := Nat.cast_nonneg _
  have hstep0 : (0 : ℚ) ≤ step := Nat.cast_nonneg _
  have herror : ∀ x : ℚ, 0 ≤ x → x < 2 ^ 65 →
      0 ≤ binary64.round x ∧ binary64.round x ≤ x + 2 ^ 11 := by
    intro x hx hx'
    have hround := Format.abs_round_sub_le (f := binary64) (x := x) (k := 65)
      (by rw [abs_of_nonneg hx]; exact_mod_cast hx') (by decide)
    have hpow : (2 : ℚ) ^ ((65 : ℤ) - binary64.precision - 1) = 2 ^ 11 := by norm_num [binary64]
    rw [hpow] at hround
    exact ⟨Format.round_nonneg hx, by linarith [(abs_le.mp hround).2]⟩
  obtain ⟨hfirst0, hfirst⟩ := herror minFreq hmin0 (by linarith)
  obtain ⟨hhalf0, hhalf⟩ := herror (1 / 2 * step) (by linarith) (by linarith)
  obtain ⟨hsum0, hsum⟩ := herror (binary64.round minFreq + binary64.round (1 / 2 * step))
    (by linarith) (by linarith)
  have htotal : binary64.round (binary64.round minFreq + binary64.round (1 / 2 * step)) <
      (minFreq + step / 2 + 2 ^ 13 + 1 : ℕ) := by
    have hdiv : (step : ℚ) < 2 * (step / 2 : ℕ) + 2 := by exact_mod_cast (by omega)
    push_cast
    linarith
  have hfloor :
      ⌊binary64.round (binary64.round minFreq + binary64.round (1 / 2 * step))⌋ <
        (minFreq + step / 2 + 2 ^ 13 + 1 : ℕ) :=
    Int.floor_lt.mpr (by rw [Int.cast_natCast]; exact htotal)
  rw [lowestHop, hexact]
  omega

theorem hopCount_le (ctx : ElectrosenseContext) : hopCount ctx ≤ 2 ^ 31 := by
  have hlt := Int.bmod_lt (x := mTotalHops ctx) (m := 2 ^ 32) (by decide)
  unfold hopCount int32
  omega

/-- A frequency that does not fit a word wraps far below the range. -/
theorem wrapped_far (hctx : Requested ctx) {i : ℕ} (hi : i < hopCount ctx)
    (hwide : 2 ^ 64 ≤ wideFreq ctx i) : u64 (wideFreq ctx i) + ctx.samplingRate < ctx.minFreq := by
  obtain ⟨hpos, hle⟩ := step_bounds hctx
  have hcount := hopCount_le ctx
  have hrate := hctx.rate_word
  have hrange := hctx.min_lt_max
  have hmax := hctx.max_word
  have hfirst := lowestHop_le (show ctx.minFreq < 2 ^ 64 by omega) hle
  have hproduct : i * mFreqStep ctx ≤ (2 ^ 31 - 1) * 2 ^ 32 :=
    Nat.mul_le_mul (by omega) hle
  unfold u64 wideFreq at *
  omega

/-- How many of the frequencies fit a word. -/
def fitting (ctx : ElectrosenseContext) : ℕ :=
  min (hopCount ctx) ((2 ^ 64 - 1 - wideFreq ctx 0) / mFreqStep ctx + 1)

/-- The frequency is not farther above the lower end than half a sampling rate. -/
def NearLow (ctx : ElectrosenseContext) (i : ℕ) : Prop :=
  2 * wideFreq ctx i ≤ 2 * ctx.minFreq + ctx.samplingRate

/-- The frequency is not farther below the upper end than half a sampling rate. -/
def NearHigh (ctx : ElectrosenseContext) (i : ℕ) : Prop :=
  2 * ctx.maxFreq ≤ 2 * wideFreq ctx i + ctx.samplingRate

instance (ctx : ElectrosenseContext) (i : ℕ) : Decidable (NearLow ctx i) :=
  inferInstanceAs (Decidable (_ ≤ _))

instance (ctx : ElectrosenseContext) (i : ℕ) : Decidable (NearHigh ctx i) :=
  inferInstanceAs (Decidable (_ ≤ _))

/-- Of the frequencies that fit a word, the first is near the lower end and the last near
the upper end, without gaps between them, or one is near both. -/
def Reaches (ctx : ElectrosenseContext) : Prop :=
  wideFreq ctx 0 < 2 ^ 64 ∧
    (mFreqStep ctx ≤ ctx.samplingRate ∧ NearLow ctx 0 ∧ NearHigh ctx (fitting ctx - 1) ∨
      ∃ i < fitting ctx, NearLow ctx i ∧ NearHigh ctx i)

instance (ctx : ElectrosenseContext) : Decidable (Reaches ctx) :=
  inferInstanceAs (Decidable (_ ∧ (_ ∨ _)))

theorem wideFreq_eq (ctx : ElectrosenseContext) (i : ℕ) :
    wideFreq ctx i = wideFreq ctx 0 + i * mFreqStep ctx := by
  unfold wideFreq
  omega

theorem wideFreq_mono {i j : ℕ} (hij : i ≤ j) : wideFreq ctx i ≤ wideFreq ctx j := by
  rw [wideFreq_eq ctx i, wideFreq_eq ctx j]
  exact Nat.add_le_add_left (Nat.mul_le_mul_right _ hij) _

theorem cast_wideFreq (ctx : ElectrosenseContext) (i : ℕ) :
    (wideFreq ctx i : ℝ) = wideFreq ctx 0 + i * mFreqStep ctx := by
  rw [wideFreq_eq]
  push_cast
  rfl

theorem nearLow_iff (i : ℕ) :
    NearLow ctx i ↔
      (wideFreq ctx 0 : ℝ) + i * mFreqStep ctx ≤ ctx.minFreq + ctx.samplingRate / 2 := by
  rw [← cast_wideFreq, NearLow]
  constructor
  · intro h
    have hreal : (2 * wideFreq ctx i : ℝ) ≤ 2 * ctx.minFreq + ctx.samplingRate := by
      exact_mod_cast h
    linarith
  · intro h
    have hreal : (2 * wideFreq ctx i : ℝ) ≤ 2 * ctx.minFreq + ctx.samplingRate := by linarith
    exact_mod_cast hreal

theorem nearHigh_iff (i : ℕ) :
    NearHigh ctx i ↔
      (ctx.maxFreq : ℝ) ≤ wideFreq ctx 0 + i * mFreqStep ctx + ctx.samplingRate / 2 := by
  rw [← cast_wideFreq, NearHigh]
  constructor
  · intro h
    have hreal : (2 * ctx.maxFreq : ℝ) ≤ 2 * wideFreq ctx i + ctx.samplingRate := by
      exact_mod_cast h
    linarith
  · intro h
    have hreal : (2 * ctx.maxFreq : ℝ) ≤ 2 * wideFreq ctx i + ctx.samplingRate := by linarith
    exact_mod_cast hreal

theorem one_le_fitting (ctx : ElectrosenseContext) : 1 ≤ fitting ctx :=
  le_min (Nat.le_add_left 1 _) (Nat.le_add_left 1 _)

theorem lt_fitting_iff (hstep : 1 ≤ mFreqStep ctx) (hfirst : wideFreq ctx 0 < 2 ^ 64) (i : ℕ) :
    i < fitting ctx ↔ i < hopCount ctx ∧ wideFreq ctx i < 2 ^ 64 := by
  have hdiv := Nat.le_div_iff_mul_le (x := i) (y := 2 ^ 64 - 1 - wideFreq ctx 0) hstep
  rw [fitting, lt_min_iff, wideFreq_eq ctx i, Nat.lt_add_one_iff, hdiv]
  omega

theorem mem_round_iff_wide {h : SequentialHopping}
    (hfreqs : h.mFreqs = (List.range (hopCount ctx)).map (fun i => u64 (wideFreq ctx i)))
    (k f : ℕ) :
    f ∈ nextHops h.mFreqs.length (advance^[k] h) ↔
      ∃ i < hopCount ctx, u64 (wideFreq ctx i) = f := by
  rw [mem_round_iff, hfreqs]
  simp only [List.mem_map, List.mem_range]

/-- Only a frequency that fits can be near the range. -/
theorem fits_of_near (hctx : Requested ctx) {i : ℕ} (hi : i < hopCount ctx) {f : ℝ}
    (hlow : (ctx.minFreq : ℝ) ≤ f)
    (hnear : |f - u64 (wideFreq ctx i)| ≤ ctx.samplingRate / 2) : wideFreq ctx i < 2 ^ 64 := by
  by_contra hwide
  have hfar := wrapped_far hctx hi (not_lt.mp hwide)
  have hreal : (u64 (wideFreq ctx i) : ℝ) + ctx.samplingRate < ctx.minFreq := by
    exact_mod_cast hfar
  have hrate : (0 : ℝ) ≤ ctx.samplingRate := Nat.cast_nonneg _
  linarith [(abs_le.mp hnear).2]

/-- A round covers what the frequencies that fit cover. -/
theorem round_covers_iff_fitting (hctx : Requested ctx) {h : SequentialHopping}
    (hfreqs : h.mFreqs = (List.range (hopCount ctx)).map (fun i => u64 (wideFreq ctx i))) :
    (∀ k, ∀ f : ℝ, ctx.minFreq ≤ f → f ≤ ctx.maxFreq →
      ∃ hop ∈ nextHops h.mFreqs.length (advance^[k] h), |f - hop| ≤ ctx.samplingRate / 2) ↔
      wideFreq ctx 0 < 2 ^ 64 ∧ ∀ f : ℝ, ctx.minFreq ≤ f → f ≤ ctx.maxFreq →
        ∃ i < fitting ctx, |f - (wideFreq ctx 0 + i * mFreqStep ctx)| ≤ ctx.samplingRate / 2 := by
  obtain ⟨hpos, _⟩ := step_bounds hctx
  simp only [mem_round_iff_wide hfreqs]
  constructor
  · intro hcovers
    have hrange : (ctx.minFreq : ℝ) ≤ ctx.maxFreq := by exact_mod_cast hctx.min_lt_max.le
    have hfirst : wideFreq ctx 0 < 2 ^ 64 := by
      obtain ⟨_, ⟨i, hi, rfl⟩, hnear⟩ := hcovers 0 ctx.minFreq le_rfl hrange
      exact lt_of_le_of_lt (wideFreq_mono (Nat.zero_le i)) (fits_of_near hctx hi le_rfl hnear)
    refine ⟨hfirst, fun f hlow hhigh => ?_⟩
    obtain ⟨_, ⟨i, hi, rfl⟩, hnear⟩ := hcovers 0 f hlow hhigh
    have hfits := fits_of_near hctx hi hlow hnear
    rw [u64_of_lt hfits, cast_wideFreq] at hnear
    exact ⟨i, (lt_fitting_iff hpos hfirst i).mpr ⟨hi, hfits⟩, hnear⟩
  · intro ⟨hfirst, hcovers⟩ k f hlow hhigh
    obtain ⟨i, hi, hnear⟩ := hcovers f hlow hhigh
    obtain ⟨hcount, hfits⟩ := (lt_fitting_iff hpos hfirst i).mp hi
    refine ⟨_, ⟨i, hcount, rfl⟩, ?_⟩
    rw [u64_of_lt hfits, cast_wideFreq]
    exact hnear

/-- Either the step leaves no gap and the ends are reached, or one frequency does for all. -/
theorem fitting_covers_iff (hctx : Requested ctx) :
    (∀ f : ℝ, ctx.minFreq ≤ f → f ≤ ctx.maxFreq →
      ∃ i < fitting ctx, |f - (wideFreq ctx 0 + i * mFreqStep ctx)| ≤ ctx.samplingRate / 2) ↔
      (mFreqStep ctx ≤ ctx.samplingRate ∧ NearLow ctx 0 ∧ NearHigh ctx (fitting ctx - 1) ∨
        ∃ i < fitting ctx, NearLow ctx i ∧ NearHigh ctx i) := by
  have hone := one_le_fitting ctx
  have hrange : (ctx.minFreq : ℝ) ≤ ctx.maxFreq := by exact_mod_cast hctx.min_lt_max.le
  have hstep0 : (0 : ℝ) ≤ mFreqStep ctx := Nat.cast_nonneg _
  simp only [nearLow_iff, nearHigh_iff]
  constructor
  · intro hcovers
    rcases Nat.lt_or_ge ctx.samplingRate (mFreqStep ctx) with hgap | hstep
    · exact Or.inr (exists_single (by exact_mod_cast hgap) hrange hcovers)
    · refine Or.inl ⟨hstep, ?_, ?_⟩
      · obtain ⟨i, _, hnear⟩ := hcovers ctx.minFreq le_rfl hrange
        have hafter : (0 : ℝ) ≤ i * mFreqStep ctx := mul_nonneg (Nat.cast_nonneg _) hstep0
        push_cast
        linarith [(abs_le.mp hnear).1]
      · obtain ⟨i, hi, hnear⟩ := hcovers ctx.maxFreq hrange le_rfl
        have hlast : (i : ℝ) ≤ (fitting ctx - 1 : ℕ) := by exact_mod_cast (by omega)
        have hbefore := mul_le_mul_of_nonneg_right hlast hstep0
        linarith [(abs_le.mp hnear).2]
  · rintro (⟨hstep, hlow, hhigh⟩ | ⟨i, hi, hlow, hhigh⟩) f hmin hmax
    · obtain ⟨i, hi, hnear⟩ := exists_near (f := f) (by exact_mod_cast hstep) (fitting ctx - 1)
        (by push_cast at hlow; linarith) (hmax.trans hhigh)
      exact ⟨i, by omega, hnear⟩
    · refine ⟨i, hi, abs_le.mpr ⟨by linarith, by linarith⟩⟩

/-- A round of hops covers the requested range, from any point of any run,
exactly when its frequencies reach both ends. -/
theorem round_covers_iff (hctx : Requested ctx) {h : SequentialHopping}
    (hnew : new ctx = .ok h) :
    (∀ k, ∀ f : ℝ, ctx.minFreq ≤ f → f ≤ ctx.maxFreq →
      ∃ hop ∈ nextHops h.mFreqs.length (advance^[k] h), |f - hop| ≤ ctx.samplingRate / 2) ↔
      Reaches ctx := by
  obtain ⟨h', hnew', _, hfreqs⟩ := new_eq ctx
  obtain rfl : h' = h := Except.ok.inj (hnew'.symm.trans hnew)
  rw [round_covers_iff_fitting hctx hfreqs, fitting_covers_iff hctx, Reaches]

theorem round_covers_iff_one_hop :
    ∃ h, new { minFreq := 100000000, maxFreq := 102000000 } = .ok h ∧
      ∀ k, ∀ f : ℝ, (100000000 : ℕ) ≤ f → f ≤ (102000000 : ℕ) →
        ∃ hop ∈ nextHops h.mFreqs.length (advance^[k] h), |f - hop| ≤ (2400000 : ℕ) / 2 := by
  have hctx : Requested { minFreq := 100000000, maxFreq := 102000000 } :=
    ⟨by decide, by decide, by decide, by norm_num, by norm_num, by decide +kernel⟩
  obtain ⟨h, hnew, _⟩ := new_eq { minFreq := 100000000, maxFreq := 102000000 }
  exact ⟨h, hnew, (round_covers_iff hctx hnew).mpr (by decide +kernel)⟩

/-- With the default rate and overlap a range of 2.9 MHz gets one hop, 0.7 MHz
short of its upper end. -/
theorem upper_end_not_covered :
    Requested { minFreq := 100000000, maxFreq := 102900000 } ∧
    ∃ h, new { minFreq := 100000000, maxFreq := 102900000 } = .ok h ∧
      ¬ ∀ k, ∀ f : ℝ, (100000000 : ℕ) ≤ f → f ≤ (102900000 : ℕ) →
        ∃ hop ∈ nextHops h.mFreqs.length (advance^[k] h), |f - hop| ≤ (2400000 : ℕ) / 2 := by
  have hctx : Requested { minFreq := 100000000, maxFreq := 102900000 } :=
    ⟨by decide, by decide, by decide, by norm_num, by norm_num, by decide +kernel⟩
  obtain ⟨h, hnew, _, hfreqs⟩ := new_eq { minFreq := 100000000, maxFreq := 102900000 }
  refine ⟨hctx, h, hnew, ?_⟩
  intro hcovers
  have hreaches := ((round_covers_iff_fitting hctx hfreqs).mp hcovers)
  have hnot : ¬ Reaches { minFreq := 100000000, maxFreq := 102900000 } := by decide +kernel
  exact hnot ⟨hreaches.1, (fitting_covers_iff hctx).mp hreaches.2⟩

end EsSensor.HopCoverage
