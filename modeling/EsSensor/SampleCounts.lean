import EsSensor.Resampler

/-!
How many samples the rational downsampler returns. The counts depend on two
phases only, so the numbers of the filter stage are left open here: any
conversion of a byte and any result of the division by the growth will do.
-/
namespace EsSensor.SampleCounts

open CheckedLoop FloatRounding StreamMachine CicFilter Resampler
open RationalFilter (RationalFIR)

variable {α : Type}

/-- The conversions of the source to the sample type of the filter stage. -/
structure Arithmetic (α : Type) where
  convert : ℤ → α
  divide : BitVec 32 → BitVec 32 → α

/-- The decimating stage, or the copy that takes its place. -/
def decimate (num : Arithmetic α) (cicR : ℕ) (cic : CIC 32) (samplesIn : List UInt8) :
    Except Fault (CIC 32 × List α) :=
  if cicR ≠ 1 then do
    let (cic, out) ← cic.filter (samples samplesIn)
    .ok (cic, out.map (fun sample => num.divide sample cic.getGrowth))
  else .ok (cic, (samples samplesIn).map num.convert)

/-- The decimating stage alone, call by call. -/
def decimateCalls (num : Arithmetic α) (cicR : ℕ) :
    CIC 32 → List (List UInt8) → Except Fault (CIC 32 × List (List α))
  | cic, [] => .ok (cic, [])
  | cic, call :: calls => do
    let (cic, out) ← decimate num cicR cic call
    let (cic, rest) ← decimateCalls num cicR cic calls
    .ok (cic, out :: rest)

section Decimating

variable {num : Arithmetic α} {cicR : ℕ}

theorem filterSample_growth {f f' : CIC 32} {input : ℤ} {out : List (BitVec 32)}
    (hrun : f.filterSample input = .ok (f', out)) : f'.getGrowth = f.getGrowth := by
  obtain ⟨⟨int, sample⟩, _, hrest⟩ := bind_eq_ok.mp hrun
  dsimp only at hrest
  split at hrest
  · obtain ⟨⟨comb, o⟩, _, hend⟩ := bind_eq_ok.mp hrest
    obtain ⟨rfl, _⟩ := Prod.mk.inj (Except.ok.inj hend)
    rfl
  · obtain ⟨rfl, _⟩ := Prod.mk.inj (Except.ok.inj hrest)
    rfl

theorem filter_growth {f f' : CIC 32} {xs : List ℤ} {out : List (BitVec 32)}
    (hrun : f.filter xs = .ok (f', out)) : f'.getGrowth = f.getGrowth := by
  have hstep : ∀ (g : CIC 32) (x : ℤ) (g' : CIC 32) (o : List (BitVec 32)),
      g.getGrowth = f.getGrowth → g.filterSample x = .ok (g', o) → g'.getGrowth = f.getGrowth :=
    fun _ _ _ _ hg hsample => (filterSample_growth hsample).trans hg
  exact run_inv hstep rfl hrun

theorem decimateCalls_cons {cic cic₁ cic' : CIC 32} {call : List UInt8}
    {calls : List (List UInt8)} {out : List α} {rest : List (List α)}
    (hfirst : decimate num cicR cic call = .ok (cic₁, out))
    (hrest : decimateCalls num cicR cic₁ calls = .ok (cic', rest)) :
    decimateCalls num cicR cic (call :: calls) = .ok (cic', out :: rest) := by
  simp [decimateCalls, hfirst, hrest]

theorem decimateCalls_copy (cic : CIC 32) (calls : List (List UInt8)) :
    decimateCalls num 1 cic calls =
      .ok (cic, calls.map (fun call => (samples call).map num.convert)) := by
  induction calls with
  | nil => rfl
  | cons call calls ih =>
    exact decimateCalls_cons (if_neg (not_not.mpr rfl)) ih

theorem decimateCalls_cic (hactive : cicR ≠ 1) {cic cic' : CIC 32} {calls : List (List UInt8)}
    {outs : List (List (BitVec 32))} (hrun : cic.filterCalls (calls.map samples) = .ok (cic', outs)) :
    decimateCalls num cicR cic calls = .ok (cic', outs.map (fun out =>
      out.map (fun sample => num.divide sample cic.getGrowth))) := by
  induction calls generalizing cic outs with
  | nil =>
    obtain ⟨rfl, rfl⟩ := Prod.mk.inj (Except.ok.inj hrun)
    rfl
  | cons call calls ih =>
    obtain ⟨⟨cic₁, out⟩, hfirst, hrest⟩ := bind_eq_ok.mp hrun
    obtain ⟨⟨cic₂, rest⟩, hlater, hend⟩ := bind_eq_ok.mp hrest
    obtain ⟨rfl, rfl⟩ := Prod.mk.inj (Except.ok.inj hend)
    have hfilter : cic.filter (samples call) = .ok (cic₁, out) := hfirst
    have hdecimate : decimate num cicR cic call =
        .ok (cic₁, out.map (fun sample => num.divide sample cic.getGrowth)) := by
      simp [decimate, hactive, hfilter, filter_growth hfilter]
    have hcalls := ih hlater
    rw [filter_growth hfilter] at hcalls
    exact decimateCalls_cons hdecimate hcalls

/-- The decimating stage keeps one sample in R, wherever the calls are cut. -/
theorem exists_decimateCalls (num : Arithmetic α) {order R : ℕ} (horder : order ≤ maxOrder)
    (hR : 1 ≤ R) (hcopy : cicR = 1 → R = 1) (calls : List (List UInt8)) :
    ∃ cic mids, decimateCalls num cicR (CIC.new 32 order R) calls = .ok (cic, mids) ∧
      mids.length = calls.length ∧ ∀ c, total mids c = total calls c / R := by
  have hsamples : ∀ c, total (calls.map samples) c = total calls c := by
    apply total_eq_of_map_length
    simp [samples, Function.comp_def]
  by_cases hactive : cicR = 1
  · rw [hactive, hcopy hactive]
    refine ⟨_, _, decimateCalls_copy _ calls, by simp, fun c => ?_⟩
    rw [Nat.div_one]
    apply total_eq_of_map_length
    simp [samples, Function.comp_def]
  · let signal : ℕ → ℤ := fun i => (calls.map samples).flatten.getD i 0
    obtain ⟨cic, hrun, _⟩ := runCalls_advances (CicFilter.tracks_advances hR signal rfl)
      (calls.map samples) 0 (CIC.new 32 order R) (follows_getD _ 0)
      (CicFilter.tracks_new order R _ hR horder)
    refine ⟨cic, _, decimateCalls_cic hactive hrun, by simp, fun c => ?_⟩
    have hdivided : ∀ outs : List (List (BitVec 32)), total (outs.map (fun out =>
        out.map (fun sample => num.divide sample (CIC.new 32 order R).getGrowth))) c =
          total outs c := by
      intro outs
      apply total_eq_of_map_length
      simp [Function.comp_def]
    rw [hdivided, total, callOutputs_take, callOutputs_flatten, emitted_due hR, List.length_map,
      List.length_range, ← hsamples c, total]

end Decimating

variable [CommSemiring α]

/-- The rational downsampler over any sample type. -/
structure Channel (α : Type) where
  maxBlockLength : ℕ
  cicR : ℕ
  cic : CIC 32
  fir : RationalFIR α

/-- The constructor behind its plan, for a rational filter. -/
def Channel.build (p : Plan) (interpolation decimation : ℕ) (taps : List α)
    (maxBlockLength : ℕ) : Except Fault (Channel α) := do
  let fir ← RationalFilter.new (taps.map (fun tap => tap * (interpolation : α)))
    interpolation decimation
  .ok ⟨maxBlockLength, p.cicR, CIC.new 32 p.cicOrder p.cicD, fir⟩

/-- `filter`; what does not fit into the working buffer is written behind it. -/
def filter (num : Arithmetic α) (fuel : ℕ) (f : Channel α) (samplesIn : List UInt8) :
    Except Fault (Channel α × List α) := do
  let (cic, samplesCIC) ← decimate num f.cicR f.cic samplesIn
  if f.maxBlockLength < samplesCIC.length then .error .outOfRange
  else do
    let (fir, samplesOut) ← RationalFilter.filter fuel f.fir samplesCIC
    .ok ({ f with cic := cic, fir := fir }, samplesOut)

def filterCalls (num : Arithmetic α) (fuel : ℕ) :
    Channel α → List (List UInt8) → Except Fault (Channel α × List (List α))
  | f, [] => .ok (f, [])
  | f, call :: calls => do
    let (f, out) ← filter num fuel f call
    let (f, rest) ← filterCalls num fuel f calls
    .ok (f, out :: rest)

section Exact

/-- Exact rationals; the division is used for a growth that is not zero. -/
def exact : Arithmetic ℚ where
  convert a := a
  divide sample growth := sample.toNat / growth.toNat

def Channel.toDownsampler (f : Channel ℚ) : Downsampler where
  maxBlockLength := f.maxBlockLength
  cicR := f.cicR
  cic := f.cic
  fir := .rational f.fir

theorem mapM_divideGrowth {growth : BitVec 32} (hgrowth : growth.toNat ≠ 0)
    (out : List (BitVec 32)) :
    out.mapM (divideGrowth id growth) = .ok (out.map (fun sample => exact.divide sample growth)) := by
  have hne : (growth.toNat : ℚ) ≠ 0 := by exact_mod_cast hgrowth
  induction out with
  | nil => rfl
  | cons sample out ih =>
    rw [List.mapM_cons, ih]
    simp [divideGrowth, floatDiv, hne, exact]

theorem cicStage_toDownsampler (f : Channel ℚ) (hgrowth : f.cic.getGrowth.toNat ≠ 0)
    (samplesIn : List UInt8) :
    cicStage f.toDownsampler samplesIn = (do
      let (cic, samplesCIC) ← decimate exact f.cicR f.cic samplesIn
      if f.maxBlockLength < samplesCIC.length then .error .outOfRange
      else .ok ({ f.toDownsampler with cic := cic }, samplesCIC)) := by
  by_cases hcopy : f.cicR ≠ 1
  · cases hcic : f.cic.filter (samples samplesIn) with
    | error e => simp [cicStage, decimate, Channel.toDownsampler, hcopy, hcic]
    | ok r =>
      obtain ⟨cic, out⟩ := r
      have hgrowth' : cic.getGrowth.toNat ≠ 0 := by
        rw [filter_growth hcic]
        exact hgrowth
      have hdivide := mapM_divideGrowth hgrowth' out
      simp [cicStage, decimate, Channel.toDownsampler, hcopy, hcic, hdivide]
  · simp [cicStage, decimate, Channel.toDownsampler, hcopy, exact, List.map_eq_flatMap]

/-- Over the rationals this is the downsampler, wherever its division has a value. -/
theorem filter_toDownsampler (fuel : ℕ) (f : Channel ℚ) (hgrowth : f.cic.getGrowth.toNat ≠ 0)
    (samplesIn : List UInt8) :
    Resampler.filter fuel f.toDownsampler samplesIn =
      (filter exact fuel f samplesIn).map (fun r => (r.1.toDownsampler, r.2)) := by
  rw [Resampler.filter, cicStage_toDownsampler f hgrowth, filter]
  cases decimate exact f.cicR f.cic samplesIn with
  | error e => rfl
  | ok r =>
    obtain ⟨cic, samplesCIC⟩ := r
    by_cases hfits : f.maxBlockLength < samplesCIC.length
    · simp [hfits, Except.map]
    · cases hfir : RationalFilter.filter fuel f.fir samplesCIC with
      | error e => simp [hfits, Channel.toDownsampler, hfir, Except.map]
      | ok r => simp [hfits, Channel.toDownsampler, hfir, Except.map]

end Exact

/-- Two stages in series, call by call. -/
theorem filterCalls_of_stages {num : Arithmetic α} {fuel : ℕ} {f : Channel α} {cic : CIC 32}
    {fir : RationalFIR α} {calls : List (List UInt8)} {mids outs : List (List α)}
    (hcic : decimateCalls num f.cicR f.cic calls = .ok (cic, mids))
    (hfits : ∀ mid ∈ mids, mid.length ≤ f.maxBlockLength)
    (hfir : RationalFilter.filterCalls fuel f.fir mids = .ok (fir, outs)) :
    filterCalls num fuel f calls = .ok ({ f with cic := cic, fir := fir }, outs) := by
  induction calls generalizing f mids outs with
  | nil =>
    obtain ⟨rfl, rfl⟩ := Prod.mk.inj (Except.ok.inj hcic)
    obtain ⟨rfl, rfl⟩ := Prod.mk.inj (Except.ok.inj hfir)
    rfl
  | cons call calls ih =>
    obtain ⟨⟨cic₁, mid⟩, hdecimate, hrest⟩ := bind_eq_ok.mp hcic
    obtain ⟨⟨cic₂, mids'⟩, hlater, hend⟩ := bind_eq_ok.mp hrest
    obtain ⟨rfl, rfl⟩ := Prod.mk.inj (Except.ok.inj hend)
    obtain ⟨⟨fir₁, out⟩, hfilter, hrest⟩ := bind_eq_ok.mp hfir
    obtain ⟨⟨fir₂, outs'⟩, hlaterFir, hend⟩ := bind_eq_ok.mp hrest
    obtain ⟨rfl, rfl⟩ := Prod.mk.inj (Except.ok.inj hend)
    have hmid := hfits mid List.mem_cons_self
    have hfirst : filter num fuel f call = .ok ({ f with cic := cic₁, fir := fir₁ }, out) := by
      have hrun : RationalFilter.filter fuel f.fir mid = .ok (fir₁, out) := hfilter
      simp [filter, hdecimate, hmid, hrun]
    have hcalls := ih (f := { f with cic := cic₁, fir := fir₁ }) hlater
      (fun m hm => hfits m (List.mem_cons_of_mem mid hm)) hlaterFir
    simp [filterCalls, hfirst, hcalls]

/-- The outputs after n inputs: those that fall before the end of the decimated
stream. -/
def outputCount (R I D n : ℕ) : ℕ := ⌈((n / R : ℕ) * I : ℚ) / D⌉₊

theorem outputCount_eq {D : ℕ} (hD : 1 ≤ D) (R I n : ℕ) :
    outputCount R I D n = RationalFilter.outputsBefore I D (n / R) := by
  have hD' : (0 : ℚ) < D := by exact_mod_cast hD
  apply eq_of_forall_lt_iff
  intro m
  rw [RationalFilter.lt_outputsBefore hD, outputCount, Nat.lt_ceil, lt_div_iff₀ hD']
  norm_cast

theorem add_div_le {R : ℕ} (hR : 1 ≤ R) (n k : ℕ) : (n + k) / R ≤ n / R + k := by
  rw [← Nat.add_mul_div_right n k hR]
  exact Nat.div_le_div_right (Nat.add_le_add_left (Nat.le_mul_of_pos_right k hR) n)

/-- While I ≤ D, further inputs give no more outputs than there are of them. -/
theorem outputCount_add_le {R I D : ℕ} (hR : 1 ≤ R) (hD : 1 ≤ D) (hID : I ≤ D) (n k : ℕ) :
    outputCount R I D (n + k) ≤ outputCount R I D n + k := by
  have hdecimated := add_div_le hR n k
  rw [outputCount_eq hD, outputCount_eq hD]
  calc RationalFilter.outputsBefore I D ((n + k) / R)
      ≤ RationalFilter.outputsBefore I D (n / R + k) := RationalFilter.outputsBefore_mono hdecimated
    _ ≤ RationalFilter.outputsBefore I D (n / R) + k := by
      unfold RationalFilter.outputsBefore
      rw [← Nat.add_mul_div_right _ k hD]
      apply Nat.div_le_div_right
      have hmul := Nat.mul_le_mul_left k hID
      rw [Nat.add_mul]
      omega

/-- A rational downsampler whose constructor succeeded. Without a decimating
stage its rate is one. -/
structure Constructed (p : Plan) (I D maxBlockLength : ℕ) (taps : List α) (f : Channel α) :
    Prop where
  built : Channel.build p I D taps maxBlockLength = .ok f
  copy : p.cicR = 1 → p.cicD = 1
  rate : 1 ≤ p.cicD
  order : p.cicOrder ≤ maxOrder
  interpolation : 1 ≤ I
  decimation : 1 ≤ D
  word : I + D < 2 ^ 32
  line : f.fir.delayLine ≠ []

/-- No call leaves more samples behind the decimating stage than the working
buffer has room for. -/
def FitsBuffer (R maxBlockLength : ℕ) (calls : List (List UInt8)) : Prop :=
  ∀ c, total calls (c + 1) / R - total calls c / R ≤ maxBlockLength

/-- It is enough that no call is longer than the buffer. -/
theorem fitsBuffer_of_length {R maxBlockLength : ℕ} (hR : 1 ≤ R) {calls : List (List UInt8)}
    (hcalls : ∀ c, (calls.getD c []).length ≤ maxBlockLength) :
    FitsBuffer R maxBlockLength calls := by
  intro c
  have hlength := hcalls c
  have hle := add_div_le hR (total calls c) (calls.getD c []).length
  rw [total_succ]
  omega

section Counts

variable {p : Plan} {I D maxBlockLength fuel : ℕ} {taps : List α}
  {f : Channel α}

/-- The plan of an accepted configuration is of this kind. -/
theorem plan_rate {fl : ℚ → ℚ} {cfg : ResamplerConfig} (hcfg : cfg.Valid)
    (hplan : plan fl fuel cfg = .ok p) :
    (p.cicR = 1 → p.cicD = 1) ∧ 1 ≤ p.cicD ∧ p.cicOrder ≤ maxOrder := by
  obtain ⟨m, _, hcicR, hcicD, horder, _⟩ := plan_eq_ok hcfg hplan
  refine ⟨?_, ?_, ?_⟩
  · intro hcopy
    obtain rfl : m = 0 := by omega
    exact hcicD
  · rw [hcicD]
    exact Nat.one_le_two_pow
  · rw [horder]
    split
    · exact Nat.zero_le _
    · exact hcfg.cicOrder_le

theorem Constructed.eq (hf : Constructed p I D maxBlockLength taps f) :
    ∃ table : List α, 1 ≤ table.length / I ∧ f = ⟨maxBlockLength, p.cicR,
      CIC.new 32 p.cicOrder p.cicD, RationalFilter.ofTable table I D⟩ := by
  have hI : I ≠ 0 := Nat.one_le_iff_ne_zero.mp hf.interpolation
  obtain ⟨fir, hfir, hend⟩ := bind_eq_ok.mp hf.built
  obtain rfl := Except.ok.inj hend
  rw [RationalFilter.new, if_neg hI] at hfir
  obtain rfl := Except.ok.inj hfir
  refine ⟨_, ?_, rfl⟩
  have hline := List.length_pos_iff.mpr hf.line
  rwa [RationalFilter.ofTable, List.length_replicate] at hline

/-- The joint run of both stages. -/
theorem filterCalls_counts (num : Arithmetic α) (hf : Constructed p I D maxBlockLength taps f)
    (hfuel : I ≤ fuel) {calls : List (List UInt8)} (hfits : FitsBuffer p.cicD maxBlockLength calls) :
    ∃ g outs, filterCalls num fuel f calls = .ok (g, outs) ∧ outs.length = calls.length ∧
      ∀ c, total outs c = outputCount p.cicD I D (total calls c) := by
  obtain ⟨table, hline, rfl⟩ := hf.eq
  obtain ⟨cic, mids, hcic, hlength, hmids⟩ :=
    exists_decimateCalls num hf.order hf.rate hf.copy calls
  obtain ⟨fir, hfir⟩ := RationalFilter.filterCalls_ofTable table I D fuel hf.decimation
    hf.word hline hfuel mids
  have hroom : ∀ mid ∈ mids, mid.length ≤ maxBlockLength := by
    intro mid hmid
    obtain ⟨c, hc, rfl⟩ := List.mem_iff_getElem.mp hmid
    have hcall := total_succ_of_lt hc
    rw [hmids, hmids] at hcall
    have hroom := hfits c
    omega
  refine ⟨_, _, filterCalls_of_stages hcic hroom hfir, by simpa using hlength, fun c => ?_⟩
  rw [total, callOutputs_take, callOutputs_flatten, RationalFilter.emitted_due, List.length_map,
    List.length_range', Nat.zero_add, RationalFilter.outputsBefore_zero hf.decimation,
    Nat.sub_zero, outputCount_eq hf.decimation, ← hmids c, total]

/-- The number of outputs after any number of inputs, on every cut into calls;
no call returns more than it was given unless the rate is raised, and equally
long calls of a second instance return equally many samples. -/
theorem sample_counts (num : Arithmetic α) (hf : Constructed p I D maxBlockLength taps f)
    (hfuel : I ≤ fuel) (calls : List (List UInt8))
    (hfits : FitsBuffer p.cicD maxBlockLength calls) :
    ∃ g outs, filterCalls num fuel f calls = .ok (g, outs) ∧ outs.length = calls.length ∧
      (∀ c, total outs c = outputCount p.cicD I D (total calls c)) ∧
      (I ≤ D → ∀ c, (outs.getD c []).length ≤ (calls.getD c []).length) ∧
      ∀ calls' : List (List UInt8), calls'.map List.length = calls.map List.length →
        ∃ g' outs', filterCalls num fuel f calls' = .ok (g', outs') ∧
          outs'.map List.length = outs.map List.length := by
  obtain ⟨g, outs, hrun, hlength, hcounts⟩ := filterCalls_counts num hf hfuel hfits
  refine ⟨g, outs, hrun, hlength, hcounts, ?_, ?_⟩
  · intro hID c
    have hout := total_succ outs c
    have hin := total_succ calls c
    have hle := outputCount_add_le hf.rate hf.decimation hID (total calls c)
      (calls.getD c []).length
    rw [hcounts, hcounts, hin] at hout
    omega
  · intro calls' hsame
    have htotal := total_eq_of_map_length hsame
    obtain ⟨g', outs', hrun', hlength', hcounts'⟩ := filterCalls_counts num hf hfuel
      (show FitsBuffer p.cicD maxBlockLength calls' from
        fun c => by rw [htotal, htotal]; exact hfits c)
    refine ⟨g', outs', hrun', map_length_of_total ?_ ?_⟩
    · have hcalls := congrArg List.length hsame
      rw [List.length_map, List.length_map] at hcalls
      rw [hlength', hlength, hcalls]
    · intro c
      rw [hcounts', hcounts, htotal]

end Counts

/-- Equal rates: no decimating stage, and a filter that copies. -/
def copying : ResamplerConfig where
  inputRate := 1
  outputRate := 1

/-- What the constructor plans for it. -/
def copyingPlan : Plan where
  cicR := 1
  cicD := 1
  cicOrder := 0
  firInputRate := 1
  fir := .rational 1 1
  actualOutputRate := some 1

theorem plan_copying : plan binary32.round 2 copying = .ok copyingPlan := by decide +kernel

def copyingChannel (maxBlockLength : ℕ) : Channel ℚ where
  maxBlockLength := maxBlockLength
  cicR := 1
  cic := CIC.new 32 0 1
  fir := RationalFilter.ofTable (Polyphase.padTaps [1 * (1 : ℕ)] 1) 1 1

theorem constructed_copying (maxBlockLength : ℕ) :
    Constructed copyingPlan 1 1 maxBlockLength [1] (copyingChannel maxBlockLength) where
  built := rfl
  copy _ := rfl
  rate := le_rfl
  order := Nat.zero_le _
  interpolation := le_rfl
  decimation := le_rfl
  word := by decide
  line := by simp [copyingChannel, RationalFilter.ofTable]

/-- Twelve samples to two: the decimating stage keeps one in four, and the filter two
in three of these. -/
def thinning : ResamplerConfig where
  inputRate := 12
  outputRate := 2
  cicOrder := 1
  cicOversampleFactor := 2

def thinningPlan : Plan where
  cicR := 3
  cicD := 4
  cicOrder := 1
  firInputRate := 3
  fir := .rational 2 3
  actualOutputRate := some 2

def thinningChannel : Channel ℚ where
  maxBlockLength := 16
  cicR := 3
  cic := CIC.new 32 1 4
  fir := RationalFilter.ofTable (Polyphase.padTaps [1 * (2 : ℕ), 1 * (2 : ℕ)] 2) 2 3

theorem constructed_thinning : Constructed thinningPlan 2 3 16 [1, 1] thinningChannel where
  built := rfl
  copy h := absurd h (by decide)
  rate := by decide
  order := by decide
  interpolation := by decide
  decimation := by decide
  word := by decide
  line := by simp [thinningChannel, RationalFilter.ofTable, Polyphase.padTaps]

theorem sample_counts_thinning :
    plan binary32.round 8 thinning = .ok thinningPlan ∧
    ∃ g outs, filterCalls exact 2 thinningChannel [[1, 2, 3, 4, 5, 6, 7], [], [8, 9]] =
        .ok (g, outs) ∧
      (∀ c, total outs c =
        outputCount 4 2 3 (total [[1, 2, 3, 4, 5, 6, 7], [], [(8 : UInt8), 9]] c)) ∧
      ∀ c, (outs.getD c []).length ≤
        ([[1, 2, 3, 4, 5, 6, 7], [], [(8 : UInt8), 9]].getD c []).length := by
  have hfits : FitsBuffer 4 16 [[1, 2, 3, 4, 5, 6, 7], [], [(8 : UInt8), 9]] := by
    apply fitsBuffer_of_length (by decide)
    intro c
    rcases c with _ | _ | _ | c <;> simp
  obtain ⟨g, outs, hrun, _, hcounts, hfewer, _⟩ :=
    sample_counts exact constructed_thinning le_rfl [[1, 2, 3, 4, 5, 6, 7], [], [8, 9]] hfits
  exact ⟨by decide +kernel, g, outs, hrun, hcounts, hfewer (by decide)⟩

theorem long_block_overflows :
    filterCalls exact 1 (copyingChannel (256 * 1024)) [List.replicate (256 * 1024 + 1) 0] =
      .error .outOfRange := by
  have hlong : (copyingChannel (256 * 1024)).maxBlockLength <
      ((samples (List.replicate (256 * 1024 + 1) 0)).map exact.convert).length := by
    rw [List.length_map, samples, List.length_map, List.length_replicate]
    decide
  have hdecimate : decimate exact 1 (CIC.new 32 0 1) (List.replicate (256 * 1024 + 1) 0) =
      .ok (CIC.new 32 0 1, (samples (List.replicate (256 * 1024 + 1) 0)).map exact.convert) :=
    if_neg (not_not.mpr rfl)
  have hfilter : filter exact 1 (copyingChannel (256 * 1024))
      (List.replicate (256 * 1024 + 1) 0) = .error .outOfRange := by
    rw [filter]
    change decimate exact 1 (CIC.new 32 0 1) _ >>= _ = _
    rw [hdecimate, ok_bind]
    exact if_pos hlong
  rw [filterCalls, hfilter, error_bind]

/-- One stage more than the accumulator arrays have. -/
def deep : ResamplerConfig where
  inputRate := 8
  outputRate := 1
  cicOrder := 17

/-- The two limits on a downsampler in use: a block of one sample more than the
default working buffer holds, and an order above that of the arrays. -/
theorem limits_are_exceeded :
    (plan binary32.round 2 copying = .ok copyingPlan ∧
      Constructed copyingPlan 1 1 (256 * 1024) [1] (copyingChannel (256 * 1024)) ∧
      filterCalls exact 1 (copyingChannel (256 * 1024)) [List.replicate (256 * 1024 + 1) 0] =
        .error .outOfRange) ∧
    ∃ p f, plan binary32.round 3 deep = .ok p ∧ p.fir = .rational 1 2 ∧
      Channel.build p 1 2 [(1 : ℚ)] (256 * 1024) = .ok f ∧ f.fir.delayLine = [0] ∧
      filterCalls exact 1 f [[0]] = .error .outOfRange := by
  refine ⟨⟨plan_copying, constructed_copying _, long_block_overflows⟩, ?_⟩
  have hplan : plan binary32.round 3 deep = .ok ⟨3, 4, 17, 2, .rational 1 2, some 1⟩ := by
    decide +kernel
  exact ⟨_, _, hplan, rfl, rfl, rfl, rfl⟩

end EsSensor.SampleCounts
