import EsSensor.Library.ByteOrder
import Mathlib.Tactic.Ring

/-!
Bytes as pairs of hexadecimal digits, and text read to the base 16 up to the first
character that is no digit. What is written of bytes is read as their big-endian number.
-/
namespace EsSensor.HexText

open ByteOrder

/-- Two digits in lower case, as `%02x` prints them. -/
def byteText (b : UInt8) : List Char := (Nat.toDigits 16 b.toNat).leftpad 2 '0'

def bytesText (bytes : List UInt8) : List Char := bytes.flatMap byteText

/-- The value of a digit, in either case. -/
def digit? (c : Char) : Option ℕ :=
  if '0' ≤ c ∧ c ≤ '9' then some (c.toNat - '0'.toNat)
  else if 'a' ≤ c ∧ c ≤ 'f' then some (c.toNat - 'a'.toNat + 10)
  else if 'A' ≤ c ∧ c ≤ 'F' then some (c.toNat - 'A'.toNat + 10)
  else none

/-- The digits at the beginning of a text, behind those of `n`. -/
def ofDigits : ℕ → List Char → ℕ
  | n, [] => n
  | n, c :: text =>
    match digit? c with
    | some d => ofDigits (16 * n + d) text
    | none => n

theorem digit?_digitChar : ∀ d < 16, digit? (Nat.digitChar d) = some d := by decide

/-- A byte is written with its two digits. -/
theorem byteText_eq (b : UInt8) :
    byteText b = [Nat.digitChar (b.toNat / 16), Nat.digitChar (b.toNat % 16)] := by
  have hb := b.toNat_lt
  unfold byteText
  by_cases hsmall : b.toNat < 16
  · rw [Nat.toDigits_of_lt_base hsmall, Nat.div_eq_of_lt hsmall, Nat.mod_eq_of_lt hsmall]
    rfl
  · have hhigh : b.toNat / 16 < 16 := by omega
    rw [Nat.toDigits_of_base_le (by decide) (by omega), Nat.toDigits_of_lt_base hhigh]
    rfl

theorem length_bytesText (bytes : List UInt8) : (bytesText bytes).length = 2 * bytes.length := by
  induction bytes with
  | nil => rfl
  | cons b bytes ih =>
    rw [bytesText, List.flatMap_cons, List.length_append, ← bytesText, ih, byteText_eq,
      List.length_cons, List.length_cons, List.length_cons, List.length_nil]
    omega

theorem ofDigits_byteText (n : ℕ) (b : UInt8) (text : List Char) :
    ofDigits n (byteText b ++ text) = ofDigits (256 * n + b.toNat) text := by
  have hb := b.toNat_lt
  have hhigh := digit?_digitChar (b.toNat / 16) (by omega)
  have hlow := digit?_digitChar (b.toNat % 16) (by omega)
  have hvalue : 16 * (16 * n + b.toNat / 16) + b.toNat % 16 = 256 * n + b.toNat := by omega
  rw [byteText_eq]
  simp only [List.cons_append, List.nil_append, ofDigits, hhigh, hlow, hvalue]

/-- The digits of bytes are the digits of their number. -/
theorem ofDigits_bytesText (n : ℕ) (bytes : List UInt8) :
    ofDigits n (bytesText bytes) = n * 256 ^ bytes.length + ofBigEndian bytes := by
  induction bytes generalizing n with
  | nil => simp [bytesText, ofDigits, ofBigEndian, ofLittleEndian]
  | cons b bytes ih =>
    rw [bytesText, List.flatMap_cons, ofDigits_byteText, ← bytesText, ih, ofBigEndian_cons,
      List.length_cons, pow_succ]
    ring

theorem mem_bytesText {c : Char} {bytes : List UInt8} (hc : c ∈ bytesText bytes) :
    ∃ d < 16, c = Nat.digitChar d := by
  obtain ⟨b, _, hc⟩ := List.mem_flatMap.mp hc
  have hb := b.toNat_lt
  rw [byteText_eq] at hc
  rcases List.mem_cons.mp hc with rfl | hc
  · exact ⟨_, by omega, rfl⟩
  · obtain rfl := List.mem_singleton.mp hc
    exact ⟨_, by omega, rfl⟩

/-- A character that is not one of the sixteen digits does not occur. -/
theorem notMem_bytesText {c : Char} (hc : ∀ d < 16, c ≠ Nat.digitChar d) (bytes : List UInt8) :
    c ∉ bytesText bytes := by
  intro hmem
  obtain ⟨d, hd, heq⟩ := mem_bytesText hmem
  exact hc d hd heq

end EsSensor.HexText
