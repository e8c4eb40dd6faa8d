import Mathlib.Data.Rat.Floor
import Mathlib.Tactic.Common

/-!
Fixed-width arithmetic on natural numbers and integers, with the wrap written
out, and the conversions of floats, which are exact rationals here.
-/
namespace EsSensor.MachineWord

/-- The value a 32-bit unsigned word keeps of `n`. -/
def u32 (n : ℕ) : ℕ := n % 2 ^ 32

/-- Unsigned subtraction, which wraps below zero. -/
def u32Sub (a b : ℕ) : ℕ := u32 (a + (2 ^ 32 - u32 b))

/-- `(int)x`, towards zero. -/
def truncate (x : ℚ) : ℤ := if 0 ≤ x then ⌊x⌋ else ⌈x⌉

/-- The conversion of a nonnegative float to `unsigned int`. -/
def toUnsigned (x : ℚ) : ℕ := u32 ⌊x⌋.toNat

/-- An integer as `unsigned int`. -/
def word (z : ℤ) : ℕ := (z % 2 ^ 32).toNat

/-- An integer as `int`, in two's complement. -/
def int32 (z : ℤ) : ℤ := z.bmod (2 ^ 32)

/-- What a 64-bit unsigned word keeps. -/
def u64 (n : ℕ) : ℕ := n % 2 ^ 64

/-- 64-bit unsigned subtraction. -/
def u64Sub (a b : ℕ) : ℕ := u64 (a + (2 ^ 64 - u64 b))

/-- An integer as `uint64_t`. -/
def word64 (z : ℤ) : ℕ := (z % 2 ^ 64).toNat

/-- An integer as `int64_t`. -/
def int64 (z : ℤ) : ℤ := z.bmod (2 ^ 64)

/-- How far a machine shifts when it is asked to shift by `k`. The language
says so only below the width of the word. -/
structure Shifter where
  count : ℕ → ℕ
  count_of_lt : ∀ k < 32, count k = k

instance : Inhabited Shifter := ⟨id, fun _ _ => rfl⟩

/-- `1 << k`, an `int`. -/
def Shifter.one (shifter : Shifter) (k : ℕ) : ℤ := int32 (2 ^ shifter.count k)

theorem u32_of_lt {n : ℕ} (hn : n < 2 ^ 32) : u32 n = n := Nat.mod_eq_of_lt hn

theorem u32Sub_of_le {a b : ℕ} (hab : b ≤ a) (ha : a < 2 ^ 32) : u32Sub a b = a - b := by
  unfold u32Sub u32
  omega

theorem u32Sub_of_lt {a b : ℕ} (hab : a < b) (hb : b < 2 ^ 32) :
    u32Sub a b = 2 ^ 32 - (b - a) := by
  unfold u32Sub u32
  omega

theorem u64_of_lt {n : ℕ} (hn : n < 2 ^ 64) : u64 n = n := Nat.mod_eq_of_lt hn

theorem u64_add_left (a b : ℕ) : u64 (u64 a + b) = u64 (a + b) := Nat.mod_add_mod a (2 ^ 64) b

theorem word_lt (z : ℤ) : word z < 2 ^ 32 := by
  unfold word
  omega

theorem word_natCast {n : ℕ} (hn : n < 2 ^ 32) : word n = n := by
  unfold word
  omega

theorem int32_of_lt {n : ℕ} (hn : n < 2 ^ 31) : int32 n = n := by
  unfold int32
  rw [Int.bmod_def]
  omega

/-- The upper half of the words are the negative numbers. -/
theorem int32_neg {n : ℕ} (hlow : 2 ^ 31 ≤ n) (hhigh : n < 2 ^ 32) : int32 n < 0 := by
  unfold int32
  rw [Int.bmod_def]
  omega

theorem int32_bounds (z : ℤ) : -2 ^ 31 ≤ int32 z ∧ int32 z < 2 ^ 31 := by
  have hle := Int.le_bmod (x := z) (m := 2 ^ 32) (by decide)
  have hlt := Int.bmod_lt (x := z) (m := 2 ^ 32) (by decide)
  unfold int32
  omega

theorem int64_bounds (z : ℤ) : -2 ^ 63 ≤ int64 z ∧ int64 z < 2 ^ 63 := by
  have hle := Int.le_bmod (x := z) (m := 2 ^ 64) (by decide)
  have hlt := Int.bmod_lt (x := z) (m := 2 ^ 64) (by decide)
  unfold int64
  omega

theorem word64_lt (z : ℤ) : word64 z < 2 ^ 64 := by
  unfold word64
  omega

theorem word64_natCast {n : ℕ} (hn : n < 2 ^ 64) : word64 n = n := by
  unfold word64
  omega

theorem int32_eq_self {z : ℤ} (hlow : -2 ^ 31 ≤ z) (hhigh : z < 2 ^ 31) : int32 z = z := by
  unfold int32
  rw [Int.bmod_def]
  omega

theorem int64_eq_self {z : ℤ} (hlow : -2 ^ 63 ≤ z) (hhigh : z < 2 ^ 63) : int64 z = z := by
  unfold int64
  rw [Int.bmod_def]
  omega

/-- A wrapped difference read as a signed word is the difference. -/
theorem int64_u64Sub {a b : ℕ} (ha : a < 2 ^ 63) (hb : b < 2 ^ 63) :
    int64 (u64Sub a b) = a - b := by
  unfold int64 u64Sub u64
  rw [Int.bmod_def]
  omega

theorem Shifter.one_of_count_lt (shifter : Shifter) {k : ℕ} (hk : shifter.count k < 31) :
    shifter.one k = (2 ^ shifter.count k : ℕ) := by
  have hpow : 2 ^ shifter.count k < 2 ^ 31 := Nat.pow_lt_pow_right (by decide) hk
  have hone := int32_of_lt hpow
  rw [Shifter.one, ← hone]
  push_cast
  rfl

/-- A one that is shifted out of the word leaves zero. -/
theorem Shifter.one_of_le_count (shifter : Shifter) {k : ℕ} (hk : 32 ≤ shifter.count k) :
    shifter.one k = 0 := by
  have hdvd : (2 : ℤ) ^ 32 ∣ 2 ^ shifter.count k := pow_dvd_pow 2 hk
  unfold Shifter.one int32
  exact Int.bmod_eq_zero_of_dvd hdvd

end EsSensor.MachineWord
