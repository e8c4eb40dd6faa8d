import EsSensor.CicGrowth
import EsSensor.SampleCounts

/-!
The downsampler as a whole, on any cut of a byte stream into calls. Its two stages in
series are the plain chain: means over the response of the moving sums, one of them kept
for each output period, then zeros between them, the tap table, and the second decimation.
The rates are planned in single precision; the samples are exact until they are converted
to the output type.
-/
namespace EsSensor.DownsamplerChain

open CheckedLoop FloatRounding StreamMachine CausalSeries CicFilter CicGrowth Polyphase Resampler
  SampleCounts

/-- `Downsampler::filter`, call by call. -/
def downsample (fuel : ℕ) :
    Downsampler → List (List UInt8) → Except Fault (Downsampler × List (List ℚ))
  | f, [] => .ok (f, [])
  | f, call :: calls => do
    let (f, out) ← Resampler.filter fuel f call
    let (f, rest) ← downsample fuel f calls
    .ok (f, out :: rest)

/-- Sample k behind the decimating stage, without words that wrap. -/
def decimated (order R : ℕ) (bytes : List UInt8) (k : ℕ) : ℚ :=
  reference order R (samples bytes) k / (R ^ order : ℕ)

/-- Output m of the chain for a whole stream. -/
def chainOutput (order R I D : ℕ) (table : List ℚ) (bytes : List UInt8) (m : ℕ) : ℚ :=
  RationalFilter.polyphaseOutput table I D
    ((List.range (bytes.length / R)).map (decimated order R bytes)) m

section Decimating

variable {order R cicR : ℕ}

/-- Without moving sums the reference is the stream. -/
theorem reference_copy (x : List ℤ) (k : ℕ) : reference 0 1 x k = x.getD k 0 := by
  rw [reference, Finset.sum_eq_single 0]
  · simp [iterConvolve]
  · intro i _ hi
    simp [iterConvolve, hi]
  · intro hnot
    exact absurd (Finset.mem_range.mpr (by omega)) hnot

theorem samples_flatten (calls : List (List UInt8)) :
    (calls.map samples).flatten = samples calls.flatten := List.map_flatten.symm

theorem reference_range (hfits : 255 * R ^ order < 2 ^ 32) (bytes : List UInt8) (k : ℕ) :
    0 ≤ reference order R (samples bytes) k ∧ reference order R (samples bytes) k < 2 ^ 32 := by
  have hbytes : ∀ a ∈ samples bytes, 0 ≤ a ∧ a ≤ 255 := by
    intro a ha
    have hflatten := samples_flatten [bytes]
    rw [List.flatten_singleton] at hflatten
    exact mem_samples_flatten (by rwa [hflatten])
  obtain ⟨hlow, hhigh⟩ := reference_bounds order R (samples bytes) 255 hbytes (by omega) k
  have hfits' : (255 : ℤ) * R ^ order < 2 ^ 32 := by exact_mod_cast hfits
  exact ⟨hlow, lt_of_le_of_lt hhigh hfits'⟩

/-- The division by the growth of a sum that fits its word. -/
theorem divide_reference (hR : 1 ≤ R) (hfits : 255 * R ^ order < 2 ^ 32) (bytes : List UInt8)
    (k : ℕ) :
    exact.divide ((reference order R (samples bytes) k : ℤ) : BitVec 32)
      (CIC.new 32 order R).getGrowth = decimated order R bytes k := by
  obtain ⟨hlow, hhigh⟩ := reference_range hfits bytes k
  have hpow : 1 ≤ R ^ order := Nat.one_le_pow _ _ hR
  have hgrowth : (CIC.new 32 order R).getGrowth.toNat = R ^ order := by
    rw [growth_toNat, Nat.mod_eq_of_lt (by omega)]
  have hvalue := toNat_intCast (w := 32) (reference order R (samples bytes) k)
  rw [Int.emod_eq_of_lt hlow hhigh] at hvalue
  have hsample : ((((reference order R (samples bytes) k : ℤ) : BitVec 32).toNat : ℕ) : ℚ) =
      reference order R (samples bytes) k := by
    rw [← Int.cast_natCast, hvalue]
  rw [exact]
  dsimp only
  rw [hgrowth, hsample, decimated]

theorem flatten_map_map {α β : Type} (f : α → β) (xss : List (List α)) :
    (xss.map (fun xs => xs.map f)).flatten = xss.flatten.map f := List.map_flatten.symm

/-- The copy that takes the place of a stage of order zero. -/
theorem map_convert_samples (bytes : List UInt8) :
    (samples bytes).map exact.convert = (List.range bytes.length).map (decimated 0 1 bytes) := by
  apply List.ext_getElem
  · rw [List.length_map, List.length_map, List.length_range, samples, List.length_map]
  · intro k hk hk'
    rw [List.length_map] at hk
    rw [List.getElem_map, List.getElem_map, List.getElem_range, decimated, reference_copy,
      List.getD_eq_getElem?_getD, List.getElem?_eq_getElem hk, Option.getD_some]
    simp [exact]

/-- The decimating stage makes the means, wherever the calls are cut. -/
theorem decimateCalls_eq (horder : order ≤ maxOrder) (hR : 1 ≤ R)
    (hcopy : cicR = 1 → R = 1 ∧ order = 0) (hfits : 255 * R ^ order < 2 ^ 32)
    (calls : List (List UInt8)) :
    ∃ cic mids, decimateCalls exact cicR (CIC.new 32 order R) calls = .ok (cic, mids) ∧
      mids.flatten = (List.range (calls.flatten.length / R)).map
        (decimated order R calls.flatten) := by
  by_cases hactive : cicR = 1
  · obtain ⟨rfl, rfl⟩ := hcopy hactive
    rw [hactive]
    refine ⟨_, _, decimateCalls_copy _ calls, ?_⟩
    have hmap : calls.map (fun call => (samples call).map exact.convert) =
        (calls.map samples).map (fun xs => xs.map exact.convert) := by
      rw [List.map_map]
      rfl
    rw [hmap, flatten_map_map, samples_flatten, Nat.div_one]
    exact map_convert_samples calls.flatten
  · obtain ⟨cic, outs, hrun, houts⟩ := filterCalls_new (w := 32) order R horder hR
      (calls.map samples)
    refine ⟨cic, _, decimateCalls_cic hactive hrun, ?_⟩
    have hlength : (calls.map samples).flatten.length = calls.flatten.length := by
      rw [samples_flatten, samples, List.length_map]
    rw [flatten_map_map, houts, List.map_map, hlength, samples_flatten]
    apply List.map_congr_left
    intro k _
    exact divide_reference hR hfits calls.flatten k

end Decimating

section Build

variable {p : Plan} {I D maxBlockLength : ℕ} {taps : List ℚ}

/-- The tap table of the constructor, multiplied and padded. -/
def tapTable (taps : List ℚ) (I : ℕ) : List ℚ := padTaps (taps.map (fun tap => tap * (I : ℚ))) I

/-- What the constructor makes of a rational plan. -/
def channel (p : Plan) (I D maxBlockLength : ℕ) (taps : List ℚ) : Channel ℚ where
  maxBlockLength := maxBlockLength
  cicR := p.cicR
  cic := CIC.new 32 p.cicOrder p.cicD
  fir := RationalFilter.ofTable (tapTable taps I) I D

theorem build_eq (hfir : p.fir = .rational I D) (hI : 1 ≤ I) :
    build p taps maxBlockLength = .ok (channel p I D maxBlockLength taps).toDownsampler := by
  rw [build, hfir, buildFir, RationalFilter.new, if_neg (Nat.one_le_iff_ne_zero.mp hI)]
  rfl

theorem one_le_branch (hI : 1 ≤ I) (htaps : I ≤ taps.length) :
    1 ≤ (tapTable taps I).length / I := by
  rw [Nat.one_le_div_iff hI, tapTable, padTaps_length, List.length_map]
  omega

end Build

section Growth

variable {fuel : ℕ} {f g : Channel ℚ} {call : List UInt8} {out : List ℚ}

theorem decimate_growth {num : Arithmetic ℚ} {cicR : ℕ} {cic cic' : CIC 32}
    (hrun : decimate num cicR cic call = .ok (cic', out)) : cic'.getGrowth = cic.getGrowth := by
  unfold decimate at hrun
  split at hrun
  · obtain ⟨⟨cic₁, samplesCIC⟩, hfilter, hend⟩ := bind_eq_ok.mp hrun
    obtain ⟨rfl, _⟩ := Prod.mk.inj (Except.ok.inj hend)
    exact filter_growth hfilter
  · obtain ⟨rfl, _⟩ := Prod.mk.inj (Except.ok.inj hrun)
    rfl

theorem filter_keeps_growth {num : Arithmetic ℚ} (hrun : filter num fuel f call = .ok (g, out)) :
    g.cic.getGrowth = f.cic.getGrowth := by
  obtain ⟨⟨cic, samplesCIC⟩, hdecimate, hrest⟩ := bind_eq_ok.mp hrun
  dsimp only at hrest
  split at hrest
  · cases hrest
  · obtain ⟨⟨fir, samplesOut⟩, _, hend⟩ := bind_eq_ok.mp hrest
    obtain ⟨rfl, _⟩ := Prod.mk.inj (Except.ok.inj hend)
    exact decimate_growth hdecimate

/-- The downsampler does what the channel does, on every cut into calls. -/
theorem downsample_toDownsampler {calls : List (List UInt8)} {outs : List (List ℚ)}
    (hgrowth : f.cic.getGrowth.toNat ≠ 0) (hrun : filterCalls exact fuel f calls = .ok (g, outs)) :
    downsample fuel f.toDownsampler calls = .ok (g.toDownsampler, outs) := by
  induction calls generalizing f outs with
  | nil =>
    obtain ⟨rfl, rfl⟩ := Prod.mk.inj (Except.ok.inj hrun)
    rfl
  | cons call calls ih =>
    obtain ⟨⟨f₁, out⟩, hfirst, hrest⟩ := bind_eq_ok.mp hrun
    obtain ⟨⟨f₂, outs'⟩, hlater, hend⟩ := bind_eq_ok.mp hrest
    obtain ⟨rfl, rfl⟩ := Prod.mk.inj (Except.ok.inj hend)
    have hfilter := filter_toDownsampler fuel f hgrowth call
    rw [hfirst] at hfilter
    have hgrowth' : f₁.cic.getGrowth.toNat ≠ 0 := by
      rw [filter_keeps_growth hfirst]
      exact hgrowth
    have hcalls := ih hgrowth' hlater
    rw [downsample, hfilter, Except.map, ok_bind]
    dsimp only
    rw [hcalls, ok_bind]

end Growth

/-- No call leaves more samples behind the decimating stage than there is room for. -/
theorem length_mids_le {R maxBlockLength : ℕ} {calls : List (List UInt8)}
    {mids : List (List ℚ)} (hmids : ∀ c, total mids c = total calls c / R)
    (hroom : FitsBuffer R maxBlockLength calls) : ∀ mid ∈ mids, mid.length ≤ maxBlockLength := by
  intro mid hmid
  obtain ⟨c, hc, rfl⟩ := List.mem_iff_getElem.mp hmid
  have hcall := total_succ_of_lt hc
  rw [hmids, hmids] at hcall
  have hle := hroom c
  omega

/-- A decimation by two and then by two, with short moving sums. -/
def quarter : ResamplerConfig where
  inputRate := 4
  outputRate := 1
  cicOrder := 2
  cicOversampleFactor := 2

end EsSensor.DownsamplerChain
