import EsSensor.Library.BinaryScaling
import EsSensor.Library.MachineWord

/-!
The portable encoding of floating point numbers that comes with the transports.
A `long double` is an exact rational here, and codes of every width are covered:
what a code is decoded to is encoded as that code again.
-/
namespace EsSensor.Ieee754

open BinaryScaling CheckedLoop MachineWord

/-- What is left of the half in `(1LL << n) + 0.5f`. The sum is one of floats,
and how precise it is differs between machines. -/
structure FloatSum where
  half : ℕ → ℚ
  half_nonneg : ∀ n, 0 ≤ half n
  half_le : ∀ n, half n ≤ 1 / 2

namespace FloatSum

/-- In single precision a half is lost beside `2 ^ 23` and more. -/
def single : FloatSum where
  half n := if n < 23 then 1 / 2 else 0
  half_nonneg n := by split <;> norm_num
  half_le n := by split <;> norm_num

def exact : FloatSum := ⟨fun _ => 1 / 2, fun _ => by norm_num, fun _ => le_refl _⟩

def scale (sum : FloatSum) (n : ℕ) : ℚ := 2 ^ n + sum.half n

end FloatSum

def significandbits (bits expbits : ℕ) : ℕ := u32Sub (u32Sub bits expbits) 1

def bias (expbits : ℕ) : ℕ := 2 ^ u32Sub expbits 1 - 1

/-- Each of the two loops gets `fuel` rounds. -/
def pack754 (sum : FloatSum) (fuel : ℕ) (f : ℚ) (bits expbits : ℕ) : Except Fault ℕ :=
  if f = 0 then .ok 0
  else do
    let sign : ℤ := if f < 0 then 1 else 0
    let fnorm := if f < 0 then -f else f
    let norm ← whileLoop (fun s => decide (2 ≤ s.mantissa)) (fun s => .ok s.halve) fuel
      (⟨fnorm, 0⟩ : Scaled ℚ)
    let norm ← whileLoop (fun s => decide (s.mantissa < 1)) (fun s => .ok s.double) fuel norm
    let significand :=
      truncate ((norm.mantissa - 1) * sum.scale (significandbits bits expbits))
    let exp := norm.shift + bias expbits
    return word64 (sign * 2 ^ u32Sub bits 1) |||
      (word64 (exp * 2 ^ significandbits bits expbits) ||| word64 significand)

def unpack754 (fuel i bits expbits : ℕ) : Except Fault ℚ :=
  if i = 0 then .ok 0
  else do
    let result : ℚ := (i &&& (2 ^ significandbits bits expbits - 1) : ℕ)
    let result := result / 2 ^ significandbits bits expbits + 1
    let shift := int64
      (u64Sub (i >>> significandbits bits expbits &&& (2 ^ expbits - 1)) (bias expbits))
    let scaled ← whileLoop (fun s => decide (0 < s.shift)) (fun s => .ok s.double) fuel
      (⟨result, shift⟩ : Scaled ℚ)
    let scaled ← whileLoop (fun s => decide (s.shift < 0)) (fun s => .ok s.halve) fuel scaled
    return scaled.mantissa * if i >>> u32Sub bits 1 &&& 1 ≠ 0 then -1 else 1

/-- Scaling a decoded number: both loops together take the exponent to nought. -/
theorem exists_scaling (result : ℚ) (shift : ℤ) {fuel : ℕ} (hfuel : shift.natAbs ≤ fuel) :
    ∃ scaled : Scaled ℚ,
      whileLoop (fun s => decide (0 < s.shift)) (fun s => .ok s.double) fuel ⟨result, shift⟩
        = .ok scaled ∧
      whileLoop (fun s => decide (s.shift < 0)) (fun s => .ok s.halve) fuel scaled
        = .ok ⟨result * 2 ^ shift, 0⟩ := by
  obtain ⟨down, hdown, hvalue, hshift⟩ :=
    Scaled.whileLoop_double (fun s => decide (0 < s.shift)) (x := result * 2 ^ shift) (e := 0)
      (fun s _ => decide_eq_true_iff) fuel ⟨result, shift⟩ rfl (by simp only; omega)
  obtain ⟨up, hup, hvalue', hshift'⟩ :=
    Scaled.whileLoop_halve (fun s => decide (s.shift < 0)) (x := result * 2 ^ shift) (e := 0)
      (fun s _ => decide_eq_true_iff) fuel down hvalue (by simp only at hshift; omega)
  have hend : up = ⟨result * 2 ^ shift, 0⟩ :=
    Scaled.eq_of_value (by rw [hvalue', zpow_zero, mul_one]) (by simp only at hshift; omega)
  exact ⟨down, hdown, by rw [hup, hend]⟩

/-- Normalising finds the one mantissa in `[1, 2)` and its exponent. -/
theorem exists_normalizing {m : ℚ} {e : ℤ} (hone : 1 ≤ m) (htwo : m < 2) {fuel : ℕ}
    (hfuel : e.natAbs ≤ fuel) :
    ∃ norm : Scaled ℚ,
      whileLoop (fun s => decide (2 ≤ s.mantissa)) (fun s => .ok s.halve) fuel ⟨m * 2 ^ e, 0⟩
        = .ok norm ∧
      whileLoop (fun s => decide (s.mantissa < 1)) (fun s => .ok s.double) fuel norm
        = .ok ⟨m, e⟩ := by
  obtain ⟨up, hup, hvalue, hshift⟩ :=
    Scaled.whileLoop_halve (fun s => decide (2 ≤ s.mantissa)) (x := m * 2 ^ e) (e := e)
      (fun s hs => by rw [decide_eq_true_iff, Scaled.two_le_mantissa_iff hs hone htwo])
      fuel ⟨m * 2 ^ e, 0⟩ (by rw [Scaled.value, zpow_zero, mul_one]) (by simp only; omega)
  obtain ⟨down, hdown, hvalue', hshift'⟩ :=
    Scaled.whileLoop_double (fun s => decide (s.mantissa < 1)) (x := m * 2 ^ e) (e := e)
      (fun s hs => by rw [decide_eq_true_iff, Scaled.mantissa_lt_one_iff hs hone htwo])
      fuel up hvalue (by simp only at hshift; omega)
  have hend : down = ⟨m, e⟩ := Scaled.eq_of_value hvalue' (by simp only at hshift; omega)
  exact ⟨up, hup, by rw [hdown, hend]⟩

theorem fraction_bounds {m n : ℕ} (hm : m < 2 ^ n) :
    0 ≤ (m : ℚ) / 2 ^ n ∧ (m : ℚ) / 2 ^ n < 1 := by
  have hpow : (0 : ℚ) < 2 ^ n := by positivity
  refine ⟨by positivity, ?_⟩
  rw [div_lt_one hpow]
  exact_mod_cast hm

/-- The part of a half that comes on top of a significand never makes a whole. -/
theorem truncate_scale (sum : FloatSum) {m n : ℕ} (hm : m < 2 ^ n) :
    truncate ((m : ℚ) / 2 ^ n * sum.scale n) = m := by
  have hpow : (0 : ℚ) < 2 ^ n := by positivity
  obtain ⟨hnonneg, hfrac⟩ := fraction_bounds hm
  have hhalf := sum.half_nonneg n
  have hhalf' := sum.half_le n
  have hsplit : (m : ℚ) / 2 ^ n * sum.scale n = m + m / 2 ^ n * sum.half n := by
    rw [FloatSum.scale, mul_add, div_mul_cancel₀ _ hpow.ne']
  have hextra : 0 ≤ (m : ℚ) / 2 ^ n * sum.half n := mul_nonneg hnonneg hhalf
  have hsmall : (m : ℚ) / 2 ^ n * sum.half n < 1 := by nlinarith
  have hfloor : ⌊(m : ℚ) / 2 ^ n * sum.scale n⌋ = m := by
    rw [Int.floor_eq_iff, hsplit]
    constructor
    · simpa using hextra
    · simpa using hsmall
  rw [truncate, if_pos (by rw [hsplit]; positivity), hfloor]

/-- What is encoded for a number given by its sign, significand and exponent. -/
theorem pack754_eq (sum : FloatSum) {fuel : ℕ} (negative : Bool) {m : ℚ} {e : ℤ}
    (hone : 1 ≤ m) (htwo : m < 2) (hfuel : e.natAbs ≤ fuel) (bits expbits : ℕ) :
    pack754 sum fuel (m * 2 ^ e * if negative then -1 else 1) bits expbits =
      .ok (word64 (negative.toInt * 2 ^ u32Sub bits 1) |||
        (word64 ((e + bias expbits) * 2 ^ significandbits bits expbits) |||
          word64 (truncate ((m - 1) * sum.scale (significandbits bits expbits))))) := by
  have hpos : 0 < m * 2 ^ e := by positivity
  obtain ⟨norm, hup, hdown⟩ := exists_normalizing hone htwo hfuel
  cases negative with
  | false =>
    unfold pack754
    simp only [Bool.false_eq_true, if_false, mul_one, hpos.ne', hpos.not_gt, hup, ok_bind, hdown,
      Bool.toInt]
    rfl
  | true =>
    have hneg : m * 2 ^ e * -1 < 0 := by linarith
    have hflip : -(m * 2 ^ e * -1) = m * 2 ^ e := by ring
    unfold pack754
    simp only [if_true, hneg.ne, hneg, if_false, hflip, hup, ok_bind, hdown, Bool.toInt]
    rfl

/-- The mantissa and the exponent that a code stands for. -/
def mantissa (i bits expbits : ℕ) : ℚ :=
  (i &&& (2 ^ significandbits bits expbits - 1) : ℕ) / 2 ^ significandbits bits expbits + 1

def exponent (i bits expbits : ℕ) : ℤ :=
  (i >>> significandbits bits expbits &&& (2 ^ expbits - 1) : ℕ) - bias expbits

theorem bias_lt {expbits : ℕ} (hexp : 1 ≤ expbits) (hexp' : expbits ≤ 11) :
    bias expbits < 2 ^ expbits := by
  have hsub : u32Sub expbits 1 = expbits - 1 := u32Sub_of_le hexp (by omega)
  have hpow : 2 ^ (expbits - 1) ≤ 2 ^ expbits := Nat.pow_le_pow_right (by decide) (by omega)
  have hpos : 0 < 2 ^ (expbits - 1) := Nat.two_pow_pos _
  rw [bias, hsub]
  omega

theorem field_lt (i bits expbits : ℕ) :
    i >>> significandbits bits expbits &&& (2 ^ expbits - 1) < 2 ^ expbits :=
  and_two_pow_sub_one_lt _ expbits

theorem natAbs_exponent_le {expbits : ℕ} (hexp : 1 ≤ expbits) (hexp' : expbits ≤ 11)
    (i bits : ℕ) : (exponent i bits expbits).natAbs ≤ 2 ^ expbits := by
  have hbias := bias_lt hexp hexp'
  have hfield := field_lt i bits expbits
  unfold exponent
  omega

/-- What is decoded from a code with a bit set. -/
theorem unpack754_eq {fuel i bits expbits : ℕ} (hexp : 1 ≤ expbits) (hexp' : expbits ≤ 11)
    (hi : i ≠ 0) (hfuel : 2 ^ expbits ≤ fuel) :
    unpack754 fuel i bits expbits =
      .ok (mantissa i bits expbits * 2 ^ exponent i bits expbits *
        if i >>> u32Sub bits 1 &&& 1 ≠ 0 then -1 else 1) := by
  have hbias := bias_lt hexp hexp'
  have hfield := field_lt i bits expbits
  have hpow : 2 ^ expbits ≤ 2 ^ 11 := Nat.pow_le_pow_right (by decide) hexp'
  obtain ⟨scaled, hdown, hup⟩ := exists_scaling (mantissa i bits expbits)
    (exponent i bits expbits) ((natAbs_exponent_le hexp hexp' i bits).trans hfuel)
  unfold unpack754
  simp only [hi, if_false]
  rw [int64_u64Sub (by omega) (by omega)]
  unfold exponent mantissa at hdown hup
  rw [hdown, ok_bind, hup, ok_bind]
  rfl

section Layout

variable {bits expbits : ℕ} (hbits : bits ≤ 64) (hroom : expbits + 2 ≤ bits)

include hbits hroom

theorem significandbits_eq : significandbits bits expbits = bits - expbits - 1 := by
  have hdiff : u32Sub bits expbits = bits - expbits := u32Sub_of_le (by omega) (by omega)
  rw [significandbits, hdiff, u32Sub_of_le (by omega) (by omega)]

theorem u32Sub_bits_eq : u32Sub bits 1 = significandbits bits expbits + expbits := by
  rw [significandbits_eq hbits hroom, u32Sub_of_le (by omega) (by omega)]
  omega

end Layout

/-- The sign is the one bit above the other fields. -/
theorem word64_sign {i n : ℕ} (hn : n < 64) (hi : i < 2 ^ (n + 1)) :
    word64 ((decide (i >>> n &&& 1 ≠ 0)).toInt * 2 ^ n) = i >>> n <<< n := by
  have hpow : 2 ^ n < 2 ^ 64 := Nat.pow_lt_pow_right (by decide) hn
  have htop : i >>> n < 2 := by
    rw [Nat.shiftRight_eq_div_pow, Nat.div_lt_iff_lt_mul (Nat.two_pow_pos n), ← Nat.pow_succ']
    exact hi
  rcases Nat.le_one_iff_eq_zero_or_eq_one.mp (Nat.le_of_lt_succ htop) with hzero | hone
  · rw [hzero]
    simp [word64]
  · rw [hone, Nat.shiftLeft_eq, one_mul, ← word64_natCast hpow]
    simp

/-- A field in its place fits the word that its upper end fits. -/
theorem word64_field {field n k : ℕ} (hnk : n + k ≤ 64) (hfield : field < 2 ^ k) :
    word64 (field * 2 ^ n) = field <<< n := by
  have hlt : field * 2 ^ n < 2 ^ 64 := by
    calc field * 2 ^ n < 2 ^ k * 2 ^ n := Nat.mul_lt_mul_of_pos_right hfield (Nat.two_pow_pos n)
      _ = 2 ^ (n + k) := by rw [Nat.pow_add, Nat.mul_comm]
      _ ≤ 2 ^ 64 := Nat.pow_le_pow_right (by decide) hnk
  rw [Nat.shiftLeft_eq, ← word64_natCast hlt]
  push_cast
  rfl

theorem word64_fields {i n k : ℕ} (hnk : n + k < 64) (hi : i < 2 ^ (n + k + 1)) :
    word64 ((decide (i >>> (n + k) &&& 1 ≠ 0)).toInt * 2 ^ (n + k)) |||
      (word64 ((i >>> n &&& (2 ^ k - 1) : ℕ) * 2 ^ n) |||
        word64 (i &&& (2 ^ n - 1) : ℕ)) = i := by
  have hlow : i &&& (2 ^ n - 1) < 2 ^ 64 := by
    calc i &&& (2 ^ n - 1) < 2 ^ n := and_two_pow_sub_one_lt i n
      _ ≤ 2 ^ 64 := Nat.pow_le_pow_right (by decide) (by omega)
  rw [word64_sign hnk hi, word64_field (k := k) (by omega) (and_two_pow_sub_one_lt _ k),
    word64_natCast hlow, fields_join]

/-- Every code comes back: the ones of a zero or a full exponent field, and the one of
negative zero, as any other. -/
theorem pack754_unpack754 (sum : FloatSum) {fuel i bits expbits : ℕ} (hbits : bits ≤ 64)
    (hexp : 2 ≤ expbits) (hexp' : expbits ≤ 11) (hroom : expbits + 2 ≤ bits) (hi : i < 2 ^ bits)
    (hfuel : 2 ^ expbits ≤ fuel) :
    ∃ f, unpack754 fuel i bits expbits = .ok f ∧ pack754 sum fuel f bits expbits = .ok i := by
  by_cases hzero : i = 0
  · exact ⟨0, by rw [unpack754, if_pos hzero], by rw [pack754, if_pos rfl, hzero]⟩
  have hpos : 1 ≤ expbits := by omega
  refine ⟨_, unpack754_eq hpos hexp' hzero hfuel, ?_⟩
  have hshift := (natAbs_exponent_le hpos hexp' i bits).trans hfuel
  have hlow : i &&& (2 ^ significandbits bits expbits - 1) < 2 ^ significandbits bits expbits :=
    and_two_pow_sub_one_lt i _
  obtain ⟨hnonneg, hfrac⟩ := fraction_bounds hlow
  have hone : 1 ≤ mantissa i bits expbits := le_add_of_nonneg_left hnonneg
  have htwo : mantissa i bits expbits < 2 := by
    rw [mantissa]
    linarith
  have hpack := pack754_eq sum (decide (i >>> u32Sub bits 1 &&& 1 ≠ 0)) hone htwo hshift
    bits expbits
  simp only [decide_eq_true_iff] at hpack
  have hn := significandbits_eq hbits hroom
  have hwidth : significandbits bits expbits + expbits + 1 = bits := by omega
  rw [hpack, exponent, sub_add_cancel, mantissa, add_sub_cancel_right, truncate_scale sum hlow,
    u32Sub_bits_eq hbits hroom, word64_fields (by omega)]
  rw [hwidth]
  exact hi

/-- Negative zero in double precision, and the full exponent in single precision. -/
theorem pack754_unpack754_special :
    (∃ f, unpack754 2048 (2 ^ 63) 64 11 = .ok f ∧
      pack754 FloatSum.single 2048 f 64 11 = .ok (2 ^ 63)) ∧
    ∃ f, unpack754 256 (2 ^ 31 - 1) 32 8 = .ok f ∧
      pack754 FloatSum.exact 256 f 32 8 = .ok (2 ^ 31 - 1) :=
  ⟨pack754_unpack754 FloatSum.single (by decide) (by decide) (by decide) (by decide) (by decide)
      (by decide),
    pack754_unpack754 FloatSum.exact (by decide) (by decide) (by decide) (by decide) (by decide)
      (by decide)⟩

end EsSensor.Ieee754
