import EsSensor.Library.FloatRounding
import EsSensor.Library.MachineWord
import EsSensor.Library.MirroredFill
import Mathlib.Algebra.Order.Floor.Ring
import Mathlib.Data.Rat.Floor
import Mathlib.Tactic.FieldSimp
import Mathlib.Tactic.Linarith

/-!
The design of the filters: a Kaiser window, the Fourier integral of the wanted
response, and their product. The frequencies of the integral are rounded as `fl`
says, since they decide whether it ends; the values of the taps are exact, and the
functions of the mathematical library take any values.
-/
namespace EsSensor.FIRDesign

open CheckedLoop FloatRounding MachineWord MirroredFill

/-- What is used of the mathematical library. -/
structure Libm where
  pi : ℚ
  ceilf : ℚ → ℚ
  sqrtf : ℚ → ℚ
  powf : ℚ → ℚ → ℚ
  sinf : ℚ → ℚ
  cosf : ℚ → ℚ

def besselI0 (x : ℚ) : ℚ :=
  let x := x * x / 4
  let s := (List.range' 1 15).foldl (fun (s : ℚ × ℚ × ℚ) i =>
    let fac := s.2.1 * (i * i)
    let x2 := s.2.2 * x
    (s.1 + x2 / fac, fac, x2)) (1, 1, 1)
  s.1

/-- A new vector, with `fill` in its cells where the source has zero. A negative
length is one that no vector has. -/
def newVector (fill : ℚ) (size : ℤ) : Except Fault (List ℚ) :=
  if size < 0 then .error (.thrown "cannot create std::vector larger than max_size()")
  else .ok (List.replicate size.toNat fill)

def limitRipple (rip : ℚ) : ℚ := if -21 < rip then -21 else rip

/-- The order `m` of the window. -/
def windowOrder (libm : Libm) (rip tw fs : ℚ) : ℕ :=
  let tw := 2 * libm.pi * tw / fs
  toUnsigned (libm.ceilf ((-7.95 - limitRipple rip) / (2.285 * tw)))

def kaiserBeta (libm : Libm) (rip : ℚ) : ℚ :=
  if rip < -50 then 0.1102 * (-8.7 - rip)
  else 0.07886 * (-21 - rip) + 0.5842 * libm.powf (-21 - rip) 0.4

def kaiserValue (libm : Libm) (beta d : ℚ) (m i : ℕ) : ℚ :=
  besselI0 (beta * libm.sqrtf (1 - libm.powf (2 * i / m - 1) 2)) / d

def buildKaiser (libm : Libm) (fill rip tw fs : ℚ) : Except Fault (List ℚ) := do
  let m := windowOrder libm rip tw fs
  let beta := kaiserBeta libm (limitRipple rip)
  let d := besselI0 beta
  let windowLength := int32 (u32 (m + 1))
  let window ← newVector fill windowLength
  (List.range (m / 2 + 1)).foldlM (fun window i => do
    let v := kaiserValue libm beta d m i
    let window ← writeAt window i v
    writeAt window (m - i) v) window

/-- The integral over the frequencies, and where the gain was asked for. -/
structure Integral where
  f : ℚ
  sum : ℚ := 0
  gainArgs : List ℚ := []

def integrate (libm : Libm) (fl : ℚ → ℚ) (fuel : ℕ) (gainFunc : ℚ → ℚ) (ft step : ℚ)
    (taps i : ℕ) : Except Fault Integral :=
  whileLoop (fun s => decide (s.f ≤ ft))
    (fun s =>
      let gain := gainFunc s.f
      .ok
        { f := fl (s.f + step)
          sum := s.sum + gain * libm.cosf (2 * libm.pi * s.f * (1 / 2 + i - taps / 2))
          gainArgs := s.gainArgs ++ [s.f] }) fuel { f := -ft }

/-- The taps, and every frequency that the gain function was called with. -/
structure Base where
  result : List ℚ
  gainArgs : List ℚ := []

/-- The integral of a gain of one. -/
def sincValue (libm : Libm) (ft : ℚ) (taps i : ℕ) : ℚ :=
  let k := (i : ℚ) - (taps - 1 : ℕ) / 2
  libm.sinf (2 * libm.pi * ft * k) / k / libm.pi

def buildFIRBase (libm : Libm) (fl : ℚ → ℚ) (fill : ℚ) (fuel : ℕ) (fc fs : ℚ) (taps : ℕ)
    (gainFunc : Option (ℚ → ℚ)) (step : ℚ) : Except Fault Base :=
  if taps = 0 then .ok { result := [] }
  else
    let result := List.replicate taps fill
    let ft := fl (fc / fs)
    match gainFunc with
    | none =>
      if taps = 1 then do
        let result ← writeAt result 0 1
        .ok { result := result }
      else do
        let result ← (List.range (taps / 2)).foldlM (fun result i => do
          let p := sincValue libm ft taps i
          let result ← writeAt result i p
          writeAt result (taps - i - 1) p) result
        if taps % 2 = 1 then do
          let result ← writeAt result (taps / 2) (2 * ft)
          .ok { result := result }
        else .ok { result := result }
    | some gainFunc =>
      if taps = 1 then do
        let result ← writeAt result 0 (gainFunc 0)
        .ok { result := result, gainArgs := [0] }
      else
        (List.range (taps / 2 + 1)).foldlM (fun (base : Base) i => do
          let s ← integrate libm fl fuel gainFunc ft step taps i
          let sum := s.sum * step
          let result ← writeAt base.result i sum
          let result ← writeAt result (taps - i - 1) sum
          .ok { result := result, gainArgs := base.gainArgs ++ s.gainArgs }) { result := result }

/-- `filter[i] *= window[i]`. -/
def multiply (window filter : List ℚ) : Except Fault (List ℚ) :=
  (List.range filter.length).foldlM (fun filter i => do
    let tap ← readAt filter i
    let w ← readAt window i
    writeAt filter i (tap * w)) filter

def buildFIRFilter (libm : Libm) (fl : ℚ → ℚ) (fill : ℚ) (fuel : ℕ) (fc tw fs rip : ℚ)
    (gainFunc : Option (ℚ → ℚ)) (step : ℚ) : Except Fault Base := do
  let window ← buildKaiser libm fill rip tw fs
  let filter ← buildFIRBase libm fl fill fuel fc fs window.length gainFunc step
  let result ← multiply window filter.result
  .ok { filter with result := result }

section Window

variable (libm : Libm) {rip tw fs : ℚ}

theorem newVector_eq {n : ℕ} (hn : n < 2 ^ 31) (fill : ℚ) :
    newVector fill (int32 (u32 n)) = .ok (List.replicate n fill) := by
  have hint : int32 (u32 n) = n := by
    rw [u32_of_lt (by omega), int32_of_lt hn]
  rw [newVector, hint, if_neg (by omega), Int.toNat_natCast]

/-- Every cell of the window is written by the loop, and last by the same round as
its mirror image. -/
theorem buildKaiser_eq (hm : windowOrder libm rip tw fs + 1 < 2 ^ 31) (fill : ℚ) :
    buildKaiser libm fill rip tw fs =
      .ok (filled (kaiserValue libm (kaiserBeta libm (limitRipple rip))
          (besselI0 (kaiserBeta libm (limitRipple rip))) (windowOrder libm rip tw fs)) fill
        (windowOrder libm rip tw fs + 1) (windowOrder libm rip tw fs / 2 + 1)) := by
  unfold buildKaiser
  generalize windowOrder libm rip tw fs = m at hm ⊢
  simp only [newVector_eq hm, ok_bind]
  exact foldlM_write_both (by omega) (fun _ _ => rfl) (fun _ _ => rfl)

/-- A window that was made has one cell more than its order. -/
theorem length_of_buildKaiser {libm : Libm} {fill : ℚ} {window : List ℚ}
    (hrun : buildKaiser libm fill rip tw fs = .ok window) :
    window.length = windowOrder libm rip tw fs + 1 := by
  have hword : windowOrder libm rip tw fs < 2 ^ 32 := Nat.mod_lt _ (by decide)
  by_cases hm : windowOrder libm rip tw fs + 1 < 2 ^ 31
  · rw [buildKaiser_eq libm hm] at hrun
    obtain rfl := Except.ok.inj hrun
    exact length_filled
  · exfalso
    unfold buildKaiser at hrun
    generalize windowOrder libm rip tw fs = m at hrun hword hm
    obtain ⟨start, hstart, hloop⟩ := bind_eq_ok.mp hrun
    by_cases hwrap : m + 1 < 2 ^ 32
    · have hneg : int32 (u32 (m + 1)) < 0 := by
        rw [u32_of_lt hwrap]
        exact int32_neg (by omega) hwrap
      rw [newVector, if_pos hneg] at hstart
      exact absurd hstart (by simp)
    · -- the length wraps to zero, and there is no first cell to write
      have hzero : u32 (m + 1) = 0 := by
        unfold u32
        omega
      simp only [hzero] at hstart
      obtain rfl := Except.ok.inj hstart
      rw [List.range_succ_eq_map, List.foldlM_cons] at hloop
      obtain ⟨_, hround, _⟩ := bind_eq_ok.mp hloop
      obtain ⟨_, hwrite, _⟩ := bind_eq_ok.mp hround
      exact absurd hwrite (by simp [writeAt, int32])

end Window

section Response

variable (libm : Libm) {fl : ℚ → ℚ} {fuel taps : ℕ} {gain : ℚ → ℚ} {ft step : ℚ}

/-- How many frequencies there are from `-ft` to `ft`, at most, where each is at least
`advance` above the one before. -/
def frequencies (ft advance : ℚ) : ℕ := (⌊2 * ft / advance⌋ + 1).toNat

/-- Every sum of the loop, as it is rounded, is above the frequency before by at least
`advance`, or past the end. -/
def Advances (fl : ℚ → ℚ) (ft step advance : ℚ) : Prop :=
  0 < advance ∧ ∀ f, -ft ≤ f → f ≤ ft → f + advance ≤ fl (f + step) ∨ ft < fl (f + step)

theorem advances_exact (ft : ℚ) (hstep : 0 < step) : Advances id ft step step :=
  ⟨hstep, fun _ _ _ => Or.inl le_rfl⟩

/-- A step of more than half a last digit is felt by every float of the interval. -/
theorem advances_binary32 {k : ℤ} (hk : -125 ≤ k) (hft : ft < 2 ^ k)
    (hstep : 2 ^ (k - 25) < step) :
    Advances binary32.round ft step (step - 2 ^ (k - 25)) := by
  have hdigit : (0 : ℚ) < 2 ^ (k - 25) := zpow_pos (by norm_num) _
  refine ⟨by linarith, fun f hlow hhigh => ?_⟩
  have hlow' : -2 ^ k < f := by linarith
  rcases lt_or_ge (f + step) (2 ^ k) with hsum | hsum
  · left
    have hround := Format.abs_round_sub_le (f := binary32) (x := f + step) (k := k)
      (abs_lt.mpr ⟨by linarith, hsum⟩) (by simpa [binary32] using by omega)
    have hpow : k - (binary32.precision : ℤ) - 1 = k - 25 := by
      show k - 24 - 1 = k - 25
      omega
    rw [hpow] at hround
    linarith [(abs_le.mp hround).1]
  · right
    have hend : binary32.round (2 ^ k) = 2 ^ k :=
      Format.round_of_representable
        ⟨1, k, by norm_num [binary32], by show (-149 : ℤ) ≤ k; omega, by simp⟩
    calc ft < 2 ^ k := hft
      _ = binary32.round (2 ^ k) := hend.symm
      _ ≤ binary32.round (f + step) := Format.round_mono hsum

theorem integrate_returns {advance : ℚ} (hadvances : Advances fl ft step advance)
    (hfuel : frequencies ft advance ≤ fuel) (i : ℕ) :
    ∃ s, integrate libm fl fuel gain ft step taps i = .ok s := by
  obtain ⟨hpos, hnext⟩ := hadvances
  obtain ⟨s, hrun, _⟩ := @whileLoop_of_variant Integral (fun s => decide (s.f ≤ ft))
    (fun s => .ok
      { f := fl (s.f + step)
        sum := s.sum + gain s.f * libm.cosf (2 * libm.pi * s.f * (1 / 2 + i - taps / 2))
        gainArgs := s.gainArgs ++ [s.f] })
    (fun s => -ft ≤ s.f) (fun s => (⌊(ft - s.f) / advance⌋ + 1).toNat)
    (fun s hlow hcond => by
      have hle : s.f ≤ ft := of_decide_eq_true hcond
      have hnonneg : 0 ≤ ⌊(ft - s.f) / advance⌋ :=
        Int.floor_nonneg.mpr (div_nonneg (by linarith) hpos.le)
      refine ⟨_, rfl, ?_, ?_⟩
      · rcases hnext s.f hlow hle with hstep | hpast
        · dsimp only
          linarith
        · dsimp only
          linarith
      · -- one advance less is left, or the end is passed
        have hless : ⌊(ft - fl (s.f + step)) / advance⌋ < ⌊(ft - s.f) / advance⌋ ∨
            ⌊(ft - fl (s.f + step)) / advance⌋ < 0 := by
          rcases hnext s.f hlow hle with hstep | hpast
          · left
            have hquotient : (ft - fl (s.f + step)) / advance ≤ (ft - s.f) / advance - 1 := by
              rw [le_sub_iff_add_le, div_add_one hpos.ne', div_le_div_iff_of_pos_right hpos]
              linarith
            have hfloor := Int.floor_le_floor hquotient
            rw [Int.floor_sub_one] at hfloor
            omega
          · right
            rw [Int.floor_lt]
            exact_mod_cast div_neg_of_neg_of_pos (by linarith) hpos
        dsimp only
        omega)
    fuel { f := -ft } (le_refl (-ft)) (by
      have htotal : ft - -ft = 2 * ft := by ring
      simpa only [htotal, frequencies] using hfuel)
  exact ⟨s, hrun⟩

/-- What is written to tap `i` and its mirror image without a gain. -/
def unitTap (libm : Libm) (ft : ℚ) (taps i : ℕ) : ℚ :=
  if taps = 1 then 1 else if 2 * i + 1 = taps then 2 * ft else sincValue libm ft taps i

/-- Without a gain the two halves are written first, and then the middle of an odd
number of taps. -/
theorem buildFIRBase_unit (htaps : 1 ≤ taps) (fc fs fill : ℚ) :
    buildFIRBase libm fl fill fuel fc fs taps none step =
      .ok { result := filled (unitTap libm (fl (fc / fs)) taps) fill taps ((taps + 1) / 2) } := by
  by_cases hone : taps = 1
  · subst hone
    rfl
  · -- the value of the middle is that of one more round
    have hvalues : ∀ i < taps / 2,
        sincValue libm (fl (fc / fs)) taps i = unitTap libm (fl (fc / fs)) taps i := by
      intro i hi
      rw [unitTap, if_neg hone, if_neg (by omega)]
    have hrounds := @foldlM_write_both ℚ (unitTap libm (fl (fc / fs)) taps) fill taps (taps / 2)
      (sincValue libm (fl (fc / fs)) taps) (fun i => taps - i - 1) (by omega) hvalues
      (fun i _ => by omega)
    unfold buildFIRBase
    simp only [if_neg (show taps ≠ 0 by omega), if_neg hone, hrounds, ok_bind]
    by_cases hodd : taps % 2 = 1
    · have hmiddle := @filled_succ _ (unitTap libm (fl (fc / fs)) taps) fill taps (taps / 2)
        (by omega)
      have hvalue : unitTap libm (fl (fc / fs)) taps (taps / 2) = 2 * fl (fc / fs) := by
        rw [unitTap, if_neg hone, if_pos (by omega)]
      rw [show taps - 1 - taps / 2 = taps / 2 by omega, List.set_set, hvalue] at hmiddle
      rw [if_pos hodd, writeAt_of_lt (by simp; omega), ok_bind, hmiddle,
        show (taps + 1) / 2 = taps / 2 + 1 by omega]
    · rw [if_neg hodd, show (taps + 1) / 2 = taps / 2 by omega]

/-- What is written to tap `i` and its mirror image with a gain. -/
def gainTap (gain : ℚ → ℚ) (integral : ℕ → Integral) (step : ℚ) (taps i : ℕ) : ℚ :=
  if taps = 1 then gain 0 else (integral i).sum * step

/-- With a gain the rounds pass the middle of an even number of taps. -/
theorem buildFIRBase_gain (htaps : 1 ≤ taps) {fc fs : ℚ} {integral : ℕ → Integral}
    (hintegral : ∀ i, integrate libm fl fuel gain (fl (fc / fs)) step taps i = .ok (integral i)) :
    ∃ gainArgs, ∀ fill, buildFIRBase libm fl fill fuel fc fs taps (some gain) step =
      .ok { result := filled (gainTap gain integral step taps) fill taps (taps / 2 + 1)
            gainArgs := gainArgs } := by
  by_cases hone : taps = 1
  · subst hone
    exact ⟨[0], fun fill => rfl⟩
  · have hvalue : ∀ i, gainTap gain integral step taps i = (integral i).sum * step :=
      fun i => if_neg hone
    refine ⟨(List.range (taps / 2 + 1)).flatMap (fun i => (integral i).gainArgs), ?_⟩
    intro fill
    have hround : ∀ i < taps / 2 + 1, ∀ base : Base,
        base = ⟨filled (gainTap gain integral step taps) fill taps i,
          (List.range i).flatMap (fun i => (integral i).gainArgs)⟩ →
        ∃ base', (do
          let s ← integrate libm fl fuel gain (fl (fc / fs)) step taps i
          let result ← writeAt base.result i (s.sum * step)
          let result ← writeAt result (taps - i - 1) (s.sum * step)
          (.ok { result := result, gainArgs := base.gainArgs ++ s.gainArgs } : Except Fault Base)) =
            .ok base' ∧
        base' = ⟨filled (gainTap gain integral step taps) fill taps (i + 1),
          (List.range (i + 1)).flatMap (fun i => (integral i).gainArgs)⟩ := by
      rintro i hi _ rfl
      have hboth := @write_both _ (gainTap gain integral step taps) fill taps i (taps - i - 1)
        (by omega) (by omega)
      rw [hvalue i] at hboth
      obtain ⟨result, hnear, hfar⟩ := bind_eq_ok.mp hboth
      rw [hintegral i, ok_bind, hnear, ok_bind, hfar, ok_bind]
      refine ⟨_, rfl, ?_⟩
      rw [List.range_succ, List.flatMap_append, List.flatMap_singleton]
    have hstart : ({ result := List.replicate taps fill } : Base) =
        ⟨filled (gainTap gain integral step taps) fill taps 0,
          (List.range 0).flatMap (fun i => (integral i).gainArgs)⟩ := by
      rw [filled_zero]
      rfl
    obtain ⟨base, hrun, rfl⟩ := foldlM_range hround hstart
    unfold buildFIRBase
    simp only [if_neg (show taps ≠ 0 by omega), if_neg hone]
    exact hrun

end Response

section Product

variable {window filter : List ℚ}

/-- The first cells are multiplied, and the others are still those of the filter. -/
def MultipliedUpTo (window filter : List ℚ) (i : ℕ) (taps : List ℚ) : Prop :=
  ∀ j, taps[j]? = if j < i then (List.zipWith (· * ·) filter window)[j]? else filter[j]?

theorem multiply_eq (hlen : window.length = filter.length) :
    multiply window filter = .ok (List.zipWith (· * ·) filter window) := by
  have hround : ∀ i < filter.length, ∀ taps, MultipliedUpTo window filter i taps →
      ∃ taps', (do
        let tap ← readAt taps i
        let w ← readAt window i
        writeAt taps i (tap * w)) = .ok taps' ∧ MultipliedUpTo window filter (i + 1) taps' := by
    intro i hi taps htaps
    have htap : taps[i]? = some filter[i] := by
      rw [htaps i, if_neg (Nat.lt_irrefl i), List.getElem?_eq_getElem hi]
    have hw : window[i]? = some window[i] := List.getElem?_eq_getElem (by omega)
    have hlt : i < taps.length := (List.getElem?_eq_some_iff.mp htap).1
    refine ⟨taps.set i (filter[i] * window[i]), ?_, ?_⟩
    · rw [readAt_eq_ok.mpr htap, ok_bind, readAt_eq_ok.mpr hw, ok_bind, writeAt_of_lt hlt]
    · intro j
      by_cases hj : i = j
      · subst hj
        rw [List.getElem?_set_self hlt, if_pos (Nat.lt_succ_self i), List.getElem?_zipWith,
          List.getElem?_eq_getElem hi, hw]
      · rw [List.getElem?_set_ne hj, htaps j]
        by_cases hlow : j < i
        · rw [if_pos hlow, if_pos (by omega)]
        · rw [if_neg hlow, if_neg (by omega)]
  obtain ⟨taps, hrun, htaps⟩ := foldlM_range hround
    (show MultipliedUpTo window filter 0 filter from fun j => by simp)
  have hall : taps = List.zipWith (· * ·) filter window := by
    apply List.ext_getElem?
    intro j
    rw [htaps j]
    split
    · rfl
    · rw [List.getElem?_eq_none (by omega), List.getElem?_eq_none (by simp; omega)]
  rw [multiply, hrun, hall]

end Product

/-- The last round with a gain that writes tap `i`. The two middle taps of an even number
are written again by a round that passes the middle. -/
def lastRound (taps i : ℕ) : ℕ :=
  if i = taps / 2 ∨ taps - 1 - i = taps / 2 then taps / 2 else min i (taps - 1 - i)

/-- The value of tap `i` before it is multiplied: of the round that writes it last. -/
def BaseTap (libm : Libm) (fl : ℚ → ℚ) (fuel : ℕ) (ft : ℚ) (taps : ℕ) (step : ℚ) (i : ℕ)
    (v : ℚ) : Option (ℚ → ℚ) → Prop
  | none => v = unitTap libm ft taps (min i (taps - 1 - i))
  | some gain => if taps = 1 then v = gain 0
    else ∃ s, integrate libm fl fuel gain ft step taps (lastRound taps i) = .ok s ∧
      v = s.sum * step

/-- For a step that the floats below `2 ^ k` feel, the integral up to `ft` ends. -/
structure Ends (ft step : ℚ) (k : ℤ) : Prop where
  normal : -125 ≤ k
  ft_lt : ft < 2 ^ k
  step_gt : 2 ^ (k - 25) < step

/-- The base of the filter, from whatever is in its cells before. -/
theorem buildFIRBase_complete (libm : Libm) {fl : ℚ → ℚ} {fuel taps : ℕ} (htaps : 1 ≤ taps)
    {fc fs step : ℚ} {gainFunc : Option (ℚ → ℚ)}
    (hreturns : ∀ gain, gainFunc = some gain →
      ∀ i, ∃ s, integrate libm fl fuel gain (fl (fc / fs)) step taps i = .ok s) :
    ∃ base, (∀ fill, buildFIRBase libm fl fill fuel fc fs taps gainFunc step = .ok base) ∧
      base.result.length = taps ∧
      (∀ i < taps, ∃ v, base.result[i]? = some v ∧
        BaseTap libm fl fuel (fl (fc / fs)) taps step i v gainFunc) ∧
      ∀ i < taps, base.result[i]? = base.result[taps - 1 - i]? := by
  cases gainFunc with
  | none =>
    refine ⟨{ result := filled (unitTap libm (fl (fc / fs)) taps) 0 taps ((taps + 1) / 2) },
      fun fill => ?_, length_filled, fun i hi => ?_, fun i hi => filled_mirrored hi⟩
    · rw [buildFIRBase_unit libm htaps, filled_congr (by omega)]
    · refine ⟨_, getElem?_filled hi, ?_⟩
      rw [writer_half hi]
      rfl
  | some gain =>
    choose integral hintegral using hreturns gain rfl
    obtain ⟨gainArgs, hbase⟩ := buildFIRBase_gain libm htaps hintegral
    refine ⟨⟨filled (gainTap gain integral step taps) 0 taps (taps / 2 + 1), gainArgs⟩,
      fun fill => ?_, length_filled, fun i hi => ?_, fun i hi => filled_mirrored hi⟩
    · rw [hbase fill, filled_congr (by omega)]
    · refine ⟨_, getElem?_filled hi, ?_⟩
      rw [writer_past_half hi]
      show if taps = 1 then _ else _
      by_cases hone : taps = 1
      · rw [if_pos hone]
        exact if_pos hone
      · rw [if_neg hone]
        exact ⟨_, hintegral _, if_neg hone⟩

/-- A designed filter has one tap more than the order of its window. Neither of the
two vectors keeps a value that it was made with: every tap is the product of what a
round of each loop has written. The taps are their own mirror image. -/
theorem designed_filter_complete (libm : Libm) (fc : ℚ) {tw fs rip : ℚ}
    (gainFunc : Option (ℚ → ℚ)) {step : ℚ} (horder : windowOrder libm rip tw fs + 1 < 2 ^ 31)
    {k : ℤ} (hends : gainFunc.isSome = true → Ends (binary32.round (fc / fs)) step k) {fuel : ℕ}
    (hfuel : gainFunc.isSome = true →
      frequencies (binary32.round (fc / fs)) (step - 2 ^ (k - 25)) ≤ fuel) :
    ∃ window base taps,
      (∀ fill, buildKaiser libm fill rip tw fs = .ok window) ∧
      (∀ fill, buildFIRBase libm binary32.round fill fuel fc fs window.length gainFunc step =
        .ok base) ∧
      (∀ fill, buildFIRFilter libm binary32.round fill fuel fc tw fs rip gainFunc step =
        .ok { base with result := taps }) ∧
      taps.length = windowOrder libm rip tw fs + 1 ∧
      (∀ i ≤ windowOrder libm rip tw fs, ∃ v, taps[i]? = some (v *
          kaiserValue libm (kaiserBeta libm (limitRipple rip))
            (besselI0 (kaiserBeta libm (limitRipple rip))) (windowOrder libm rip tw fs)
            (min i (windowOrder libm rip tw fs - i))) ∧
        BaseTap libm binary32.round fuel (binary32.round (fc / fs))
          (windowOrder libm rip tw fs + 1) step i v gainFunc) ∧
      ∀ i ≤ windowOrder libm rip tw fs, taps[i]? = taps[windowOrder libm rip tw fs - i]? := by
  have hkaiser := buildKaiser_eq libm horder
  generalize kaiserValue libm (kaiserBeta libm (limitRipple rip))
    (besselI0 (kaiserBeta libm (limitRipple rip))) (windowOrder libm rip tw fs) = u at hkaiser ⊢
  generalize hm : windowOrder libm rip tw fs = m at *
  have hreturns : ∀ gain, gainFunc = some gain → ∀ i, ∃ s, integrate libm binary32.round fuel gain
      (binary32.round (fc / fs)) step (m + 1) i = .ok s := by
    intro gain hgain
    have hsome : gainFunc.isSome = true := by rw [hgain]; rfl
    have hk := hends hsome
    exact integrate_returns libm (advances_binary32 hk.normal hk.ft_lt hk.step_gt) (hfuel hsome)
  obtain ⟨base, hbase, hlength, hvalues, hmirror⟩ :=
    buildFIRBase_complete libm (show 1 ≤ m + 1 by omega) hreturns
  have hwindow : ∀ fill, buildKaiser libm fill rip tw fs =
      .ok (filled u 0 (m + 1) (m / 2 + 1)) := by
    intro fill
    rw [hkaiser fill, filled_congr (show m + 1 ≤ 2 * (m / 2 + 1) by omega)]
  have hround : ∀ i ≤ m, (filled u 0 (m + 1) (m / 2 + 1))[i]? = some (u (min i (m - i))) := by
    intro i hi
    have hwriter := @writer_half (m + 1) i (by omega)
    rw [show (m + 1 + 1) / 2 = m / 2 + 1 by omega, Nat.add_sub_cancel] at hwriter
    rw [getElem?_filled (by omega), hwriter]
    rfl
  refine ⟨_, base, List.zipWith (· * ·) base.result (filled u 0 (m + 1) (m / 2 + 1)), hwindow,
    ?_, ?_, by simp [hlength], ?_, ?_⟩
  · intro fill
    rw [length_filled, hbase fill]
  · intro fill
    rw [buildFIRFilter, hwindow fill, ok_bind, length_filled, hbase fill, ok_bind,
      multiply_eq (by simp [hlength]), ok_bind]
  · intro i hi
    obtain ⟨v, hv, hbaseTap⟩ := hvalues i (by omega)
    refine ⟨v, ?_, hbaseTap⟩
    rw [List.getElem?_zipWith, hv, hround i hi]
  · intro i hi
    have hv := hmirror i (by omega)
    rw [Nat.add_sub_cancel] at hv
    rw [List.getElem?_zipWith, List.getElem?_zipWith, hv, hround i hi, hround (m - i) (by omega),
      Nat.sub_sub_self hi, Nat.min_comm]

/-- What the functions are near zero, and root and power near one. -/
def nearZero : Libm where
  pi := 3.14159265
  ceilf x := ⌈x⌉
  sqrtf x := (1 + x) / 2
  powf x y := 1 + y * (x - 1)
  sinf x := x
  cosf x := 1 - x * x / 2

theorem designed_filter_complete_eight :
    ∃ window base taps,
      (∀ fill, buildKaiser nearZero fill (-60) (1 / 2) 1 = .ok window) ∧
      (∀ fill, buildFIRBase nearZero binary32.round fill 5 (1 / 1000) 1 window.length
        (some (fun f => 1 + f)) (1 / 2000) = .ok base) ∧
      (∀ fill, buildFIRFilter nearZero binary32.round fill 5 (1 / 1000) (1 / 2) 1 (-60)
        (some (fun f => 1 + f)) (1 / 2000) = .ok { base with result := taps }) ∧
      taps.length = windowOrder nearZero (-60) (1 / 2) 1 + 1 ∧
      ∀ i ≤ windowOrder nearZero (-60) (1 / 2) 1,
        taps[i]? = taps[windowOrder nearZero (-60) (1 / 2) 1 - i]? := by
  obtain ⟨window, base, taps, hwindow, hbase, htaps, hlength, _, hmirror⟩ :=
    @designed_filter_complete nearZero (1 / 1000) (1 / 2) 1 (-60) (some (fun f => 1 + f))
      (1 / 2000) (by decide +kernel) (-9)
      (fun _ => ⟨by decide, by decide +kernel, by decide +kernel⟩) 5 (fun _ => by decide +kernel)
  exact ⟨window, base, taps, hwindow, hbase, htaps, hlength, hmirror⟩

/-- With a gain and the default step, a cutoff of 32768 times the rate is never passed:
the first frequency does not feel the step. -/
theorem integral_never_ends :
    1 ≤ windowOrder nearZero (-60) (1 / 2) 1 ∧ windowOrder nearZero (-60) (1 / 2) 1 + 1 < 2 ^ 31 ∧
      ∀ fill fuel base, buildFIRFilter nearZero binary32.round fill fuel 32768 (1 / 2) 1 (-60)
        (some (fun _ => 1)) (binary32.round (1 / 2000)) ≠ .ok base := by
  have horder : windowOrder nearZero (-60) (1 / 2) 1 = 8 := by decide +kernel
  refine ⟨by rw [horder]; decide, by rw [horder]; decide, fun fill fuel base hrun => ?_⟩
  have hstuck : binary32.round (-32768 + binary32.round (1 / 2000)) = -32768 := by decide +kernel
  have hft : binary32.round (32768 / 1) = 32768 := by decide +kernel
  obtain ⟨window, hwindow, hrest⟩ := bind_eq_ok.mp hrun
  obtain ⟨filter, hfilter, _⟩ := bind_eq_ok.mp hrest
  rw [length_of_buildKaiser hwindow, horder] at hfilter
  unfold buildFIRBase at hfilter
  simp only [if_neg (show 8 + 1 ≠ 0 by decide), if_neg (show 8 + 1 ≠ 1 by decide), hft,
    List.range_succ_eq_map, List.foldlM_cons] at hfilter
  obtain ⟨_, hround, _⟩ := bind_eq_ok.mp hfilter
  obtain ⟨s, hintegral, _⟩ := bind_eq_ok.mp hround
  obtain ⟨hf, hexit⟩ := whileLoop_inv (fun s : Integral => s.f = -32768)
    (fun s s' hs _ hbody => by
      obtain rfl := Except.ok.inj hbody
      dsimp only
      rw [hs, hstuck])
    rfl hintegral
  rw [hf] at hexit
  exact absurd hexit (by decide)

end EsSensor.FIRDesign
