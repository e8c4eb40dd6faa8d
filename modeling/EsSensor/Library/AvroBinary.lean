import Mathlib.Data.Int.Notation
import Mathlib.Data.Nat.Notation
import Mathlib.Algebra.Order.Ring.Int
import Mathlib.Tactic.Common

/-!
The binary encoding of Avro values. Integers are written in groups of seven
bits, so the length of a record depends on its values.
-/
namespace EsSensor.AvroBinary

/-- Groups of seven bits, the lowest first; each but the last is marked. -/
def varint (n : ℕ) : List UInt8 :=
  if n < 128 then [UInt8.ofNat n] else UInt8.ofNat (128 + n % 128) :: varint (n / 128)

/-- Signed numbers alternate: 0, -1, 1, -2, and so on. -/
def zigzag (z : ℤ) : ℕ := if 0 ≤ z then (2 * z).toNat else (-2 * z - 1).toNat

def encodeLong (z : ℤ) : List UInt8 := varint (zigzag z)

/-- The bit pattern of a float, the lowest byte first. -/
def encodeFloat (bits : UInt32) : List UInt8 :=
  [bits.toUInt8, (bits >>> 8).toUInt8, (bits >>> 16).toUInt8, (bits >>> 24).toUInt8]

/-- The values that a schema without strings and maps describes. -/
inductive Value
  | null
  | int (z : ℤ)
  | long (z : ℤ)
  | float (bits : UInt32)
  | union (branch : ℕ) (value : Value)
  | record (fields : List Value)
  | array (items : List Value)

mutual

/-- An array is one block, and a block of no items ends it. -/
def encode : Value → List UInt8
  | .null => []
  | .int z => encodeLong z
  | .long z => encodeLong z
  | .float bits => encodeFloat bits
  | .union branch value => encodeLong branch ++ encode value
  | .record fields => encodeAll fields
  | .array items =>
    if items.isEmpty then encodeLong 0
    else encodeLong items.length ++ encodeAll items ++ encodeLong 0

def encodeAll : List Value → List UInt8
  | [] => []
  | value :: rest => encode value ++ encodeAll rest

end

theorem varint_length_pos (n : ℕ) : 1 ≤ (varint n).length := by
  unfold varint
  split <;> simp

/-- So many bytes hold seven times as many bits. -/
theorem varint_length_le_iff (n k : ℕ) : (varint n).length ≤ k + 1 ↔ n < 128 ^ (k + 1) := by
  induction k generalizing n with
  | zero =>
    unfold varint
    split
    · simpa using by assumption
    · have hpos := varint_length_pos (n / 128)
      simp only [List.length_cons]
      omega
  | succ k ih =>
    unfold varint
    have hpow : 128 ≤ 128 ^ (k + 1 + 1) := Nat.le_self_pow (by omega) 128
    split
    · simp only [List.length_singleton]
      omega
    · have hrest := ih (n / 128)
      rw [Nat.div_lt_iff_lt_mul (by decide : 0 < 128), ← Nat.pow_succ] at hrest
      simp only [List.length_cons]
      omega

theorem encodeLong_length_le_iff (z : ℤ) (k : ℕ) :
    (encodeLong z).length ≤ k + 1 ↔ zigzag z < 128 ^ (k + 1) :=
  varint_length_le_iff (zigzag z) k

/-- One bit of the first group is taken by the sign. -/
theorem encodeLong_length_le {z : ℤ} {k : ℕ} (hlow : -(64 * 128 ^ k) ≤ z)
    (hhigh : z < 64 * 128 ^ k) : (encodeLong z).length ≤ k + 1 := by
  have hpow : (128 : ℤ) ^ (k + 1) = 2 * (64 * 128 ^ k) := by
    rw [pow_succ]
    omega
  rw [encodeLong_length_le_iff, ← Int.ofNat_lt]
  push_cast
  rw [hpow, zigzag]
  split <;> omega

theorem encodeLong_length_pos (z : ℤ) : 1 ≤ (encodeLong z).length := varint_length_pos _

theorem encodeLong_length_one {z : ℤ} (hz : zigzag z < 128) : (encodeLong z).length = 1 :=
  Nat.le_antisymm ((encodeLong_length_le_iff z 0).mpr hz) (encodeLong_length_pos z)

theorem zigzag_natCast (n : ℕ) : zigzag n = 2 * n := by
  unfold zigzag
  rw [if_pos (Int.natCast_nonneg n)]
  omega

theorem two_le_encodeLong_length {n : ℕ} (hn : 64 ≤ n) : 2 ≤ (encodeLong n).length := by
  have hone := encodeLong_length_le_iff n 0
  rw [zigzag_natCast] at hone
  omega

@[simp] theorem encodeFloat_length (bits : UInt32) : (encodeFloat bits).length = 4 := rfl

theorem encodeAll_floats_length (bits : List UInt32) :
    (encodeAll (bits.map .float)).length = 4 * bits.length := by
  induction bits with
  | nil => rfl
  | cons b rest ih =>
    simp only [List.map_cons, encodeAll, encode, List.length_append, encodeFloat_length, ih,
      List.length_cons]
    omega

theorem encode_floats_length {bits : List UInt32} (hbits : bits ≠ []) :
    (encode (.array (bits.map .float))).length =
      (encodeLong bits.length).length + 4 * bits.length + 1 := by
  have hsome : (bits.map Value.float).isEmpty = false := by
    rw [List.isEmpty_map]
    exact List.isEmpty_eq_false_iff.mpr hbits
  have hend : (encodeLong 0).length = 1 := encodeLong_length_one (by decide)
  rw [encode, hsome, if_neg (by decide), List.length_append, List.length_append,
    encodeAll_floats_length, List.length_map, hend]

end EsSensor.AvroBinary
