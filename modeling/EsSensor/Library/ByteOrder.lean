import Mathlib.Algebra.Order.Ring.Int
import Mathlib.Data.Nat.Notation
import Mathlib.Tactic.Common

/-!
Words of a fixed number of bytes in both orders, and reading so many bytes from
the front of a stream.
-/
namespace EsSensor.ByteOrder

/-- The lowest byte first; what the width cannot hold is dropped. -/
def littleEndian : ℕ → ℕ → List UInt8
  | 0, _ => []
  | width + 1, n => UInt8.ofNat n :: littleEndian width (n / 256)

def bigEndian (width n : ℕ) : List UInt8 := (littleEndian width n).reverse

def ofLittleEndian : List UInt8 → ℕ
  | [] => 0
  | byte :: rest => byte.toNat + 256 * ofLittleEndian rest

def ofBigEndian (bytes : List UInt8) : ℕ := ofLittleEndian bytes.reverse

/-- The first bytes of a stream and what follows them. -/
def readBytes (count : ℕ) (stream : List UInt8) : Option (List UInt8 × List UInt8) :=
  if count ≤ stream.length then some (stream.take count, stream.drop count) else none

@[simp] theorem littleEndian_length (width n : ℕ) : (littleEndian width n).length = width := by
  induction width generalizing n with
  | zero => rfl
  | succ width ih => rw [littleEndian, List.length_cons, ih]

@[simp] theorem bigEndian_length (width n : ℕ) : (bigEndian width n).length = width := by
  rw [bigEndian, List.length_reverse, littleEndian_length]

theorem ofLittleEndian_littleEndian {width n : ℕ} (hn : n < 256 ^ width) :
    ofLittleEndian (littleEndian width n) = n := by
  induction width generalizing n with
  | zero =>
    have hzero : n = 0 := by simpa using hn
    rw [hzero]
    rfl
  | succ width ih =>
    have hrest : n / 256 < 256 ^ width := by
      rw [Nat.div_lt_iff_lt_mul (by decide), ← Nat.pow_succ]
      exact hn
    rw [littleEndian, ofLittleEndian, ih hrest, UInt8.toNat_ofNat']
    omega

theorem ofBigEndian_bigEndian {width n : ℕ} (hn : n < 256 ^ width) :
    ofBigEndian (bigEndian width n) = n := by
  rw [ofBigEndian, bigEndian, List.reverse_reverse, ofLittleEndian_littleEndian hn]

theorem ofLittleEndian_append (bytes : List UInt8) (b : UInt8) :
    ofLittleEndian (bytes ++ [b]) = ofLittleEndian bytes + 256 ^ bytes.length * b.toNat := by
  induction bytes with
  | nil => simp [ofLittleEndian]
  | cons byte rest ih =>
    rw [List.cons_append, ofLittleEndian, ofLittleEndian, ih, List.length_cons, Nat.pow_succ']
    rw [Nat.mul_add, Nat.mul_assoc, Nat.add_assoc]

theorem ofBigEndian_cons (b : UInt8) (bytes : List UInt8) :
    ofBigEndian (b :: bytes) = b.toNat * 256 ^ bytes.length + ofBigEndian bytes := by
  rw [ofBigEndian, List.reverse_cons, ofLittleEndian_append, List.length_reverse, ofBigEndian,
    Nat.mul_comm, Nat.add_comm]

theorem littleEndian_ofLittleEndian (bytes : List UInt8) :
    littleEndian bytes.length (ofLittleEndian bytes) = bytes := by
  induction bytes with
  | nil => rfl
  | cons byte rest ih =>
    have hbyte := byte.toNat_lt
    have hrest : (byte.toNat + 256 * ofLittleEndian rest) / 256 = ofLittleEndian rest := by omega
    have hfirst : UInt8.ofNat (byte.toNat + 256 * ofLittleEndian rest) = byte := by
      apply UInt8.toNat_inj.mp
      rw [UInt8.toNat_ofNat']
      omega
    rw [List.length_cons, ofLittleEndian, littleEndian, hrest, ih, hfirst]

/-- The bytes are all that their number says. -/
theorem bigEndian_ofBigEndian (bytes : List UInt8) :
    bigEndian bytes.length (ofBigEndian bytes) = bytes := by
  have h := littleEndian_ofLittleEndian bytes.reverse
  rw [List.length_reverse] at h
  rw [bigEndian, ofBigEndian, h, List.reverse_reverse]

theorem ofBigEndian_lt (bytes : List UInt8) : ofBigEndian bytes < 256 ^ bytes.length := by
  induction bytes with
  | nil => decide
  | cons b rest ih =>
    have hb := b.toNat_lt
    rw [ofBigEndian_cons, List.length_cons, Nat.pow_succ']
    have hmul : b.toNat * 256 ^ rest.length ≤ 255 * 256 ^ rest.length :=
      Nat.mul_le_mul_right _ (by omega)
    omega

theorem readBytes_append {bytes : List UInt8} {count : ℕ} (hbytes : bytes.length = count)
    (rest : List UInt8) : readBytes count (bytes ++ rest) = some (bytes, rest) := by
  rw [readBytes, if_pos (by simp [hbytes]), List.take_left' hbytes, List.drop_left' hbytes]

theorem length_readBytes {count : ℕ} {stream bytes rest : List UInt8}
    (hread : readBytes count stream = some (bytes, rest)) :
    rest.length + count = stream.length := by
  unfold readBytes at hread
  split at hread
  · obtain ⟨-, hrest⟩ := Prod.mk.inj (Option.some.inj hread)
    rw [← hrest, List.length_drop]
    omega
  · cases hread

end EsSensor.ByteOrder
