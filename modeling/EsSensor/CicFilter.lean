import EsSensor.Library.StreamMachine
import EsSensor.Library.CausalSeries
import EsSensor.Library.CyclicIndex
import Mathlib.Data.BitVec
import Mathlib.Data.Int.ModEq

/-!
The cascaded integrator-comb decimator of the resampler. Accumulators are
w-bit words, so the integrators wrap without bound; the combs undo this.
Order, rate, decimation phase and call boundaries are those of the source,
and the output is compared with the moving sums that the filter stands for.
-/
namespace EsSensor.CicFilter

open CheckedLoop StreamMachine CausalSeries CyclicIndex PowerSeries

/-- The size of the accumulator arrays, a template argument of the class. -/
def maxOrder : ℕ := 16

structure CIC (w : ℕ) where
  order : ℕ
  rate : ℕ
  outIndex : ℕ
  gain : BitVec w
  int : List (BitVec w)
  comb : List (BitVec w)

variable {w : ℕ}

namespace CIC

/-- `gain_ *= rate`, once for each stage. -/
def gainLoop (rate : ℕ) : ℕ → BitVec w
  | 0 => 1
  | i + 1 => gainLoop rate i * BitVec.ofNat w rate

def new (w order rate : ℕ) : CIC w where
  order := order
  rate := rate
  outIndex := 0
  gain := gainLoop rate order
  int := List.replicate maxOrder 0
  comb := List.replicate maxOrder 0

def getGrowth (f : CIC w) : BitVec w := f.gain

end CIC

/-- The result of one update and the value kept for the next. -/
def Integrator.update (value input : BitVec w) : BitVec w × BitVec w :=
  (input + value, input + value)

def Comb.update (value input : BitVec w) : BitVec w × BitVec w :=
  (input - value, input)

/-- `for (j = 0; j < order; j++) sample = stage[j].update(sample)` -/
def runStages (update : BitVec w → BitVec w → BitVec w × BitVec w) :
    ℕ → List (BitVec w) → BitVec w → Except Fault (List (BitVec w) × BitVec w)
  | 0, stages, sample => .ok (stages, sample)
  | _ + 1, [], _ => .error .outOfRange
  | order + 1, value :: stages, sample => do
    let (rest, out) ← runStages update order stages (update value sample).1
    .ok ((update value sample).2 :: rest, out)

namespace CIC

/-- The loop body of `filter` for one input sample. The result is the comb
output in the internal type. The index cannot wrap: it stays below the rate. -/
def filterSample (f : CIC w) (input : ℤ) : Except Fault (CIC w × List (BitVec w)) := do
  let (int, sample) ← runStages Integrator.update f.order f.int (BitVec.ofInt w input)
  if f.rate ≤ f.outIndex + 1 then
    let (comb, out) ← runStages Comb.update f.order f.comb sample
    .ok ({ f with int := int, comb := comb, outIndex := 0 }, [out])
  else
    .ok ({ f with int := int, outIndex := f.outIndex + 1 }, [])

def filter (f : CIC w) (samplesIn : List ℤ) : Except Fault (CIC w × List (BitVec w)) :=
  run filterSample f samplesIn

def filterCalls (f : CIC w) (calls : List (List ℤ)) :
    Except Fault (CIC w × List (List (BitVec w))) :=
  runCalls filterSample f calls

@[simp] theorem getGrowth_new (order rate : ℕ) :
    (new w order rate).getGrowth = ((rate ^ order : ℕ) : BitVec w) := by
  change gainLoop rate order = _
  induction order with
  | zero => simp [gainLoop]
  | succ order ih => simp [gainLoop, ih, pow_succ]

end CIC

theorem intCast_eq_ofInt (z : ℤ) : ((z : ℤ) : BitVec w) = BitVec.ofInt w z := rfl

/-- Stage j turns the signal `ins j` into `ins (j + 1)` and keeps `value' j`. -/
theorem runStages_eq {u : BitVec w → BitVec w → BitVec w × BitVec w}
    (order : ℕ) (stages : List (BitVec w)) (value value' ins : ℕ → BitVec w)
    (hstages : ∀ j < order, stages[j]? = some (value j))
    (hupdate : ∀ j < order, u (value j) (ins j) = (ins (j + 1), value' j)) :
    ∃ stages', runStages u order stages (ins 0) = .ok (stages', ins order) ∧
      ∀ j < order, stages'[j]? = some (value' j) := by
  induction order generalizing stages value value' ins with
  | zero => exact ⟨stages, rfl, by simp⟩
  | succ order ih =>
    cases stages with
    | nil => simpa using hstages 0 (Nat.zero_lt_succ order)
    | cons head tail =>
      have hhead : head = value 0 := by simpa using hstages 0 (Nat.zero_lt_succ order)
      have hfirst := hupdate 0 (Nat.zero_lt_succ order)
      obtain ⟨rest, hrest, hvalues⟩ := ih tail (fun j => value (j + 1))
        (fun j => value' (j + 1)) (fun j => ins (j + 1))
        (fun j hj => by simpa using hstages (j + 1) (Nat.succ_lt_succ hj))
        (fun j hj => hupdate (j + 1) (Nat.succ_lt_succ hj))
      refine ⟨value' 0 :: rest, ?_, ?_⟩
      · simp only [Nat.zero_add] at hrest hfirst
        simp [runStages, hhead, hfirst, hrest]
      · intro j hj
        cases j with
        | zero => simp
        | succ j => simpa using hvalues j (Nat.lt_of_succ_lt_succ hj)

section Tracking

variable (order rate : ℕ) (x : (BitVec w)⟦X⟧)

/-- The state before input number n. Integrator j holds the (j+1)-fold running
sum of the past; comb j holds its own input of one output period ago, which is
read off at the index where the next output falls. -/
structure Tracks (n : ℕ) (f : CIC w) : Prop where
  order_eq : f.order = order
  rate_eq : f.rate = rate
  outIndex_eq : f.outIndex = n % rate
  int_eq : ∀ j < order,
    f.int[j]? = some (coeff n (X * (integrator (BitVec w) ^ (j + 1) * x)))
  comb_eq : ∀ j < order,
    f.comb[j]? = some (coeff (n / rate * rate + (rate - 1))
      (X ^ rate * (comb (BitVec w) rate ^ j * (integrator (BitVec w) ^ order * x))))

/-- What is emitted while input number n is consumed. -/
noncomputable def due (n : ℕ) : List (BitVec w) :=
  if (n + 1) % rate = 0 then [coeff n (movingSum (BitVec w) rate ^ order * x)] else []

theorem tracks_new (hrate : 1 ≤ rate) (horder : order ≤ maxOrder) :
    Tracks order rate x 0 (CIC.new w order rate) where
  order_eq := rfl
  rate_eq := rfl
  outIndex_eq := (Nat.zero_mod rate).symm
  int_eq j hj := by
    simp [CIC.new, Nat.lt_of_lt_of_le hj horder]
  comb_eq j hj := by
    simp [CIC.new, Nat.lt_of_lt_of_le hj horder, coeff_X_pow_mul']
    omega

variable {order rate x}

theorem integrators_advance {n : ℕ} {f : CIC w} (hf : Tracks order rate x n f) :
    ∃ int', runStages Integrator.update f.order f.int (coeff n x) =
        .ok (int', coeff n (integrator (BitVec w) ^ order * x)) ∧
      ∀ j < order, int'[j]? =
        some (coeff (n + 1) (X * (integrator (BitVec w) ^ (j + 1) * x))) := by
  rw [hf.order_eq]
  simp only [coeff_succ_X_mul]
  have hstages := runStages_eq (u := Integrator.update) order f.int
    (fun j => coeff n (X * (integrator (BitVec w) ^ (j + 1) * x)))
    (fun j => coeff n (integrator (BitVec w) ^ (j + 1) * x))
    (fun j => coeff n (integrator (BitVec w) ^ j * x)) hf.int_eq
  simp only [pow_zero, one_mul] at hstages
  apply hstages
  intro j _
  -- one running sum: the new total is the input plus the total before it
  have hsum : coeff n (integrator (BitVec w) ^ j * x) +
      coeff n (X * (integrator (BitVec w) ^ (j + 1) * x)) =
      coeff n (integrator (BitVec w) ^ (j + 1) * x) := by
    rw [← map_add]
    congr 1
    calc
      _ = (1 + X * integrator (BitVec w)) * (integrator (BitVec w) ^ j * x) := by ring
      _ = _ := by
        rw [← integrator_eq]
        ring
  simp [Integrator.update, hsum]

theorem combs_advance {n : ℕ} {f : CIC w} (hf : Tracks order rate x n f)
    (hn : n = n / rate * rate + (rate - 1)) :
    ∃ comb', runStages Comb.update f.order f.comb
        (coeff n (integrator (BitVec w) ^ order * x)) =
        .ok (comb', coeff n (movingSum (BitVec w) rate ^ order * x)) ∧
      ∀ j < order, comb'[j]? = some (coeff (n + rate)
        (X ^ rate * (comb (BitVec w) rate ^ j * (integrator (BitVec w) ^ order * x)))) := by
  rw [hf.order_eq]
  simp only [coeff_X_pow_mul]
  have hstages := runStages_eq (u := Comb.update) order f.comb
    (fun j => coeff n (X ^ rate *
      (comb (BitVec w) rate ^ j * (integrator (BitVec w) ^ order * x))))
    (fun j => coeff n (comb (BitVec w) rate ^ j * (integrator (BitVec w) ^ order * x)))
    (fun j => coeff n (comb (BitVec w) rate ^ j * (integrator (BitVec w) ^ order * x)))
    (fun j hj => by
      rw [hf.comb_eq j hj, ← hn])
  simp only [pow_zero, one_mul] at hstages
  rw [← comb_pow_mul_integrator_pow, mul_assoc]
  apply hstages
  intro j _
  have hdiff : coeff n (comb (BitVec w) rate ^ j * (integrator (BitVec w) ^ order * x)) -
      coeff n (X ^ rate * (comb (BitVec w) rate ^ j * (integrator (BitVec w) ^ order * x))) =
      coeff n (comb (BitVec w) rate ^ (j + 1) * (integrator (BitVec w) ^ order * x)) := by
    rw [← map_sub]
    congr 1
    rw [pow_succ', comb]
    ring
  simp [Comb.update, hdiff]

/-- The step lemma: one sample moves the whole invariant on by one. -/
theorem tracks_advances (hrate : 1 ≤ rate) (signal : ℕ → ℤ)
    (hx : x = mk (fun n => (signal n : BitVec w))) :
    Advances CIC.filterSample signal (Tracks order rate x) (due order rate x) := by
  intro n f hf
  have hin : BitVec.ofInt w (signal n) = coeff n x := by
    rw [hx, coeff_mk, intCast_eq_ofInt]
  obtain ⟨int', hint, hint'⟩ := integrators_advance hf
  rcases succ_cases hrate n with ⟨hout, hlast, hdiv⟩ | ⟨hidx, hnot, hdiv⟩
  · have hn : n = n / rate * rate + (rate - 1) := by
      have hsplit := Nat.div_add_mod' n rate
      omega
    obtain ⟨comb', hcomb, hcomb'⟩ := combs_advance hf hn
    refine ⟨{ f with int := int', comb := comb', outIndex := 0 }, ?_, ?_⟩
    · simp [CIC.filterSample, hin, hint, hcomb, due, hout, hf.rate_eq, hf.outIndex_eq, hlast]
    · have hnext : (n + 1) / rate * rate + (rate - 1) = n + rate := by
        rw [hdiv, Nat.add_mul]
        omega
      exact ⟨hf.order_eq, hf.rate_eq, hout.symm, hint', by simpa only [hnext] using hcomb'⟩
  · refine ⟨{ f with int := int', outIndex := f.outIndex + 1 }, ?_, ?_⟩
    · simp [CIC.filterSample, hin, hint, due, hidx, hf.rate_eq, hf.outIndex_eq, hnot]
    · exact ⟨hf.order_eq, hf.rate_eq, by rw [hidx, hf.outIndex_eq], hint',
        by simpa only [hdiv] using hf.comb_eq⟩

/-- The outputs due up to position n, numbered by output period. -/
theorem emitted_due (hrate : 1 ≤ rate) (n : ℕ) :
    emitted (due order rate x) 0 n = (List.range (n / rate)).map (fun k =>
      coeff (k * rate + (rate - 1)) (movingSum (BitVec w) rate ^ order * x)) := by
  induction n with
  | zero => simp
  | succ n ih =>
    rw [emitted_add, ih, Nat.zero_add, emitted_succ, emitted_zero, List.append_nil]
    rcases succ_cases hrate n with ⟨hout, hlast, hdiv⟩ | ⟨hidx, hnot, hdiv⟩
    · have hn : n / rate * rate + (rate - 1) = n := by
        have hsplit := Nat.div_add_mod' n rate
        omega
      simp [due, hout, hdiv, List.range_succ, hn]
    · simp [due, hidx, hdiv]

end Tracking

/-- What the filter stands for: output k of `order` moving sums of length
`rate`, decimated by `rate`; the stream `x` is zero before its start. -/
def reference (order rate : ℕ) (x : List ℤ) (k : ℕ) : ℤ :=
  ∑ i ∈ Finset.range (k * rate + rate),
    iterConvolve (ones rate) order i * x.getD (k * rate + rate - 1 - i) 0

/-- Every cut of a stream into calls gives the reference modulo `2 ^ w`. -/
theorem filterCalls_new (order rate : ℕ) (horder : order ≤ maxOrder) (hrate : 1 ≤ rate)
    (calls : List (List ℤ)) :
    ∃ f outs, (CIC.new w order rate).filterCalls calls = .ok (f, outs) ∧
      outs.flatten = (List.range (calls.flatten.length / rate)).map
        (fun k => ((reference order rate calls.flatten k : ℤ) : BitVec w)) := by
  let signal : ℕ → ℤ := fun i => calls.flatten.getD i 0
  let x : (BitVec w)⟦X⟧ := mk (fun n => (signal n : BitVec w))
  obtain ⟨f, hrun, _⟩ := runCalls_advances (tracks_advances hrate signal rfl)
    calls 0 (CIC.new w order rate) (follows_getD calls.flatten 0)
    (tracks_new order rate x hrate horder)
  refine ⟨f, _, hrun, ?_⟩
  rw [callOutputs_flatten, emitted_due hrate]
  apply List.map_congr_left
  intro k _
  have hend : k * rate + (rate - 1) + 1 = k * rate + rate := by omega
  rw [coeff_movingSum_pow_mul, hend, reference, Int.cast_sum]
  apply Finset.sum_congr rfl
  intro i _
  have hidx : k * rate + (rate - 1) - i = k * rate + rate - 1 - i := by omega
  simp [signal, hidx]

/-- Unsigned samples bounded by M give a sum of at most `M * rate ^ order`. -/
theorem reference_bounds (order rate : ℕ) (x : List ℤ) (M : ℤ)
    (hx : ∀ a ∈ x, 0 ≤ a ∧ a ≤ M) (hM : 0 ≤ M) (k : ℕ) :
    0 ≤ reference order rate x k ∧ reference order rate x k ≤ M * rate ^ order := by
  have hsample : ∀ i, 0 ≤ x.getD i 0 ∧ x.getD i 0 ≤ M := by
    intro i
    rw [List.getD_eq_getElem?_getD]
    cases ha : x[i]? with
    | none => exact ⟨le_refl 0, hM⟩
    | some a => exact hx a (List.mem_of_getElem? ha)
  constructor
  · apply Finset.sum_nonneg
    intro i _
    exact mul_nonneg (Int.natCast_nonneg _) (hsample _).1
  · calc
      reference order rate x k
          ≤ ∑ i ∈ Finset.range (k * rate + rate), iterConvolve (ones rate) order i * M := by
        apply Finset.sum_le_sum
        intro i _
        exact mul_le_mul_of_nonneg_left (hsample _).2 (Int.natCast_nonneg _)
      _ = M * ((∑ i ∈ Finset.range (k * rate + rate), iterConvolve (ones rate) order i : ℕ) : ℤ) := by
        rw [← Finset.sum_mul, Nat.cast_sum, mul_comm]
      _ ≤ M * rate ^ order := by
        apply mul_le_mul_of_nonneg_left _ hM
        exact_mod_cast sum_iterConvolve_le rate order _

theorem toNat_intCast (z : ℤ) : ((z : BitVec w).toNat : ℤ) = z % 2 ^ w := by
  rw [intCast_eq_ofInt, BitVec.toNat_ofInt]
  have hpos : (0 : ℤ) ≤ z % (2 ^ w : ℕ) := Int.emod_nonneg z (by positivity)
  rw [Int.toNat_of_nonneg hpos]
  norm_cast

/-- The decimator computes its reference in every accumulator width, and
exactly when the largest sum fits, however often the integrators have wrapped. -/
theorem cic_matches_reference (w order rate : ℕ) (horder : order ≤ maxOrder)
    (hrate : 1 ≤ rate) (calls : List (List ℤ)) :
    ∃ f outs, (CIC.new w order rate).filterCalls calls = .ok (f, outs) ∧
      outs.flatten.length = calls.flatten.length / rate ∧
      ∀ k, (hk : k < outs.flatten.length) →
        (outs.flatten[k].toNat : ℤ) ≡ reference order rate calls.flatten k [ZMOD 2 ^ w] ∧
        ∀ M : ℕ, (∀ a ∈ calls.flatten, 0 ≤ a ∧ a ≤ (M : ℤ)) → M * rate ^ order < 2 ^ w →
          (outs.flatten[k].toNat : ℤ) = reference order rate calls.flatten k ∧
          outs.flatten[k].toNat ≤ M * rate ^ order := by
  obtain ⟨f, outs, hrun, houts⟩ := filterCalls_new (w := w) order rate horder hrate calls
  refine ⟨f, outs, hrun, by simp [houts], ?_⟩
  intro k hk
  have hvalue : (outs.flatten[k].toNat : ℤ) = reference order rate calls.flatten k % 2 ^ w := by
    have hget : outs.flatten[k] = ((reference order rate calls.flatten k : ℤ) : BitVec w) := by
      simp [houts]
    rw [hget, toNat_intCast]
  refine ⟨by rw [hvalue]; exact Int.mod_modEq _ _, ?_⟩
  intro M hM hfits
  obtain ⟨hlow, hhigh⟩ := reference_bounds order rate calls.flatten M hM
    (Int.natCast_nonneg M) k
  have hfits' : (M : ℤ) * rate ^ order < 2 ^ w := by exact_mod_cast hfits
  have hexact : (outs.flatten[k].toNat : ℤ) = reference order rate calls.flatten k := by
    rw [hvalue, Int.emod_eq_of_lt hlow (lt_of_le_of_lt hhigh hfits')]
  refine ⟨hexact, ?_⟩
  have hbound : (outs.flatten[k].toNat : ℤ) ≤ M * rate ^ order := by rw [hexact]; exact hhigh
  exact_mod_cast hbound

theorem cic_matches_reference_bytes :
    ∃ f outs, (CIC.new 32 3 2).filterCalls [[200, 100], [], [255, 255, 7]] = .ok (f, outs) ∧
      ∀ k, (hk : k < outs.flatten.length) →
        (outs.flatten[k].toNat : ℤ) = reference 3 2 [200, 100, 255, 255, 7] k ∧
        outs.flatten[k].toNat ≤ 255 * 2 ^ 3 := by
  obtain ⟨f, outs, hrun, _, hvalues⟩ := cic_matches_reference 32 3 2 (by decide) (by decide)
    [[200, 100], [], [255, 255, 7]]
  refine ⟨f, outs, hrun, fun k hk => ?_⟩
  exact (hvalues k hk).2 255 (by decide) (by norm_num)

end EsSensor.CicFilter
