import Mathlib.Algebra.Order.Field.Rat
import Mathlib.Data.List.Basic
import Mathlib.Tactic.FieldSimp
import Mathlib.Tactic.Linarith
import Mathlib.Tactic.Positivity

/-!
Numbers as text: integers in decimal digits, and numbers with a decimal point
read back. What stands behind the point counts by its length, so a fraction
that is printed without its leading zeros is read as another one. Lines and
columns are cut out of a text at their delimiter.
-/
namespace EsSensor.DecimalText

/-- An integer as it is printed. -/
def ofInt (z : ℤ) : List Char :=
  if z < 0 then '-' :: Nat.toDigits 10 z.natAbs else Nat.toDigits 10 z.natAbs

/-- Everything in front of the first delimiter. -/
def before (x : Char) (text : List Char) : List Char := text.takeWhile (· != x)

/-- Everything behind it. -/
def behind (x : Char) (text : List Char) : List Char := (text.dropWhile (· != x)).drop 1

/-- What a number without a sign stands for. -/
def toRat (text : List Char) : ℚ :=
  Nat.ofDigitChars 10 (before '.' text) 0 +
    Nat.ofDigitChars 10 (behind '.' text) 0 / 10 ^ (behind '.' text).length

/-- The number of digits that are printed. -/
def digits (n : ℕ) : ℕ := (Nat.toDigits 10 n).length

theorem ofInt_natCast (n : ℕ) : ofInt n = Nat.toDigits 10 n := by
  rw [ofInt, if_neg (by omega), Int.natAbs_natCast]

theorem notMem_toDigits {x : Char} (hx : x.isDigit = false) (n : ℕ) : x ∉ Nat.toDigits 10 n := by
  intro hmem
  have hdigit := Nat.isDigit_of_mem_toDigits (by decide) (le_refl 10) hmem
  rw [hx] at hdigit
  exact absurd hdigit Bool.false_ne_true

theorem notMem_ofInt {x : Char} (hx : x.isDigit = false) (hsign : x ≠ '-') (z : ℤ) :
    x ∉ ofInt z := by
  unfold ofInt
  split
  · rw [List.mem_cons, not_or]
    exact ⟨hsign, notMem_toDigits hx _⟩
  · exact notMem_toDigits hx _

section Delimiter

variable {x : Char} {text : List Char}

theorem bne_of_notMem (hx : x ∉ text) : ∀ c ∈ text, (c != x) = true := by
  intro c hc
  rw [bne_iff_ne]
  rintro rfl
  exact hx hc

theorem before_append (hx : x ∉ text) (rest : List Char) :
    before x (text ++ x :: rest) = text := by
  rw [before, List.takeWhile_append_of_pos (bne_of_notMem hx),
    List.takeWhile_cons_of_neg (by simp), List.append_nil]

theorem behind_append (hx : x ∉ text) (rest : List Char) :
    behind x (text ++ x :: rest) = rest := by
  rw [behind, List.dropWhile_append_of_pos (bne_of_notMem hx),
    List.dropWhile_cons_of_neg (by simp), List.drop_one, List.tail_cons]

/-- A text of lines that each end with the delimiter, cut there. -/
theorem splitOn_lines {α : Type} (line : α → List Char) (xs : List α)
    (hx : ∀ a ∈ xs, x ∉ line a) :
    (xs.flatMap (fun a => line a ++ [x])).splitOn x = xs.map line ++ [[]] := by
  induction xs with
  | nil => rfl
  | cons a rest ih =>
    rw [List.forall_mem_cons] at hx
    rw [List.flatMap_cons, List.append_assoc, List.singleton_append,
      List.splitOn_append_cons_self_of_not_mem hx.1, ih hx.2, List.map_cons, List.cons_append]

end Delimiter

/-- A whole part, a point and digits behind it. -/
theorem toRat_point (whole fraction : ℕ) :
    toRat (Nat.toDigits 10 whole ++ '.' :: Nat.toDigits 10 fraction) =
      whole + fraction / 10 ^ digits fraction := by
  have hpoint := notMem_toDigits (x := '.') (by decide) whole
  rw [toRat, before_append hpoint, behind_append hpoint, Nat.ofDigitChars_ten_toDigits,
    Nat.ofDigitChars_ten_toDigits, digits]

theorem digits_le_iff {n k : ℕ} (hk : 0 < k) : digits n ≤ k ↔ n < 10 ^ k :=
  Nat.length_toDigits_le_iff (by decide) hk

theorem digits_eq {n k : ℕ} (hlow : 10 ^ k ≤ n) (hhigh : n < 10 ^ (k + 1)) :
    digits n = k + 1 := by
  have hle := (digits_le_iff (Nat.succ_pos k)).mpr hhigh
  have hpos : 0 < digits n := Nat.length_toDigits_pos
  rcases Nat.eq_zero_or_pos k with rfl | hk
  · omega
  · have hnot : ¬ digits n ≤ k := by
      rw [digits_le_iff hk]
      omega
    omega

/-- The digits of a number, read behind the point, are a tenth at least. -/
theorem one_le_ten_mul_fraction {n : ℕ} (hn : 0 < n) : 1 ≤ 10 * ((n : ℚ) / 10 ^ digits n) := by
  have hpow : 10 ^ digits n ≤ 10 * n := by
    rcases Nat.lt_or_ge (digits n) 2 with hone | htwo
    · have hpos : 0 < digits n := Nat.length_toDigits_pos
      rw [show digits n = 1 by omega]
      omega
    · obtain ⟨k, hk⟩ := Nat.exists_eq_add_of_le htwo
      have hnot : ¬ digits n ≤ k + 1 := by omega
      rw [digits_le_iff (Nat.succ_pos k)] at hnot
      rw [hk, show 2 + k = k + 1 + 1 by omega, Nat.pow_succ]
      omega
  have hten : (10 : ℚ) ^ digits n ≤ 10 * n := by exact_mod_cast hpow
  rw [← mul_div_assoc, one_le_div (by positivity)]
  exact hten

end EsSensor.DecimalText
