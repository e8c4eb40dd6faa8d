import EsSensor.ElectrosenseContext
import EsSensor.Library.CheckedLoop
import Mathlib.Algebra.Order.Floor.Ring

/-!
The part of a spectrum that is transmitted: an odd number of bins around the
middle. For a very small overlap the window is longer than the spectrum, and
the unsigned start wraps; otherwise it lies one bin too low.
-/
namespace EsSensor.SpectralWindow

open CheckedLoop FloatRounding MachineWord

/-- `round((fft_size - reduced_fft_size) / 2)`; the quotient is an integer. -/
def windowStart (ctx : ElectrosenseContext) : ℕ :=
  u32Sub ctx.fftSize ctx.getReducedFFTSize / 2

/-- The index of the bin that is sent as number i. -/
def windowIndex (ctx : ElectrosenseContext) (i : ℕ) : ℕ := u32 (windowStart ctx + i)

/-- The loop of `AvroSerialization::PSD` over the values of one segment. -/
def squaredMag {K : Type} (ctx : ElectrosenseContext) (psdValues : List K) :
    Except Fault (List K) :=
  (List.range ctx.getReducedFFTSize).mapM (fun i => readAt psdValues (windowIndex ctx i))

/-- Sizes and overlaps as the schema documents them; a word holds the size. -/
structure Documented (ctx : ElectrosenseContext) : Prop where
  size_pos : 1 ≤ ctx.log2FftSize
  size_lt : ctx.log2FftSize < 32
  overlap_nonneg : 0 ≤ ctx.freqOverlap
  overlap_le : ctx.freqOverlap ≤ 1

variable {ctx : ElectrosenseContext}

theorem fftSize_eq (hctx : Documented ctx) : ctx.fftSize = 2 ^ ctx.log2FftSize :=
  u32_of_lt (Nat.pow_lt_pow_right (by decide) hctx.size_lt)

theorem fftSize_even (hctx : Documented ctx) : ctx.fftSize % 2 = 0 := by
  rw [fftSize_eq hctx]
  exact Nat.mod_eq_zero_of_dvd (dvd_pow_self 2 (by have := hctx.size_pos; omega))

theorem fftSize_bounds (hctx : Documented ctx) : 2 ≤ ctx.fftSize ∧ ctx.fftSize ≤ 2 ^ 31 := by
  have hpos := hctx.size_pos
  have hlt := hctx.size_lt
  rw [fftSize_eq hctx]
  exact ⟨Nat.pow_le_pow_right (n := 2) (by decide) hpos,
    Nat.pow_le_pow_right (by decide) (by omega)⟩

/-- The part that is kept of the window is neither negative nor as long as two spectra. -/
theorem keptPart_bounds (hctx : Documented ctx) :
    0 ≤ ctx.keptPart (ctx.fftSize + 1) ∧
      2 * ctx.keptPart (ctx.fftSize + 1) ≤ 3 * ctx.fftSize := by
  obtain ⟨hsize, _⟩ := fftSize_bounds hctx
  have hlow := hctx.overlap_nonneg
  have hle := hctx.overlap_le
  have hfactor0 : 0 ≤ binary32.round (1 - ctx.freqOverlap) :=
    Format.round_nonneg (by linarith)
  have hfactor1 : binary32.round (1 - ctx.freqOverlap) ≤ 1 := by
    have hone := Format.round_natCast (f := binary32) (n := 1) (by decide) (by decide)
    rw [Nat.cast_one] at hone
    exact hone ▸ Format.round_mono (by linarith)
  have hlength0 : 0 ≤ binary32.round (ctx.fftSize + 1 : ℕ) :=
    Format.round_nonneg (Nat.cast_nonneg _)
  -- one and a half spectra are a number of the format
  have hbound : binary32.round (3 * 2 ^ (ctx.log2FftSize - 1) : ℕ) =
      (3 * 2 ^ (ctx.log2FftSize - 1) : ℕ) :=
    Format.round_natCast_mul_pow (by decide) (by decide) _
  have hhalf : 2 * 2 ^ (ctx.log2FftSize - 1) = ctx.fftSize := by
    rw [fftSize_eq hctx, ← pow_succ', Nat.sub_add_cancel hctx.size_pos]
  have hlength : binary32.round (ctx.fftSize + 1 : ℕ) ≤
      (3 * 2 ^ (ctx.log2FftSize - 1) : ℕ) := by
    rw [← hbound]
    exact Format.round_mono (by exact_mod_cast (by omega))
  have hproduct : binary32.round (1 - ctx.freqOverlap) * binary32.round (ctx.fftSize + 1 : ℕ) ≤
      (3 * 2 ^ (ctx.log2FftSize - 1) : ℕ) :=
    (mul_le_of_le_one_left hlength0 hfactor1).trans hlength
  refine ⟨Format.round_nonneg (mul_nonneg hfactor0 hlength0), ?_⟩
  have hkept : ctx.keptPart (ctx.fftSize + 1) ≤ (3 * 2 ^ (ctx.log2FftSize - 1) : ℕ) := by
    rw [← hbound]
    exact Format.round_mono hproduct
  have htwice : (2 * 2 ^ (ctx.log2FftSize - 1) : ℚ) = ctx.fftSize := by exact_mod_cast hhalf
  push_cast at hkept
  linarith

/-- The bins before the number is made odd. -/
theorem exists_bins (hctx : Documented ctx) :
    ∃ n, 2 * n ≤ 3 * ctx.fftSize ∧
      ctx.getReducedFFTSize = (if n % 2 = 0 then n + 1 else n) ∧
      (n < ctx.fftSize ↔ ctx.keptPart (ctx.fftSize + 1) < ctx.fftSize) := by
  obtain ⟨hsize, hhigh⟩ := fftSize_bounds hctx
  obtain ⟨hnonneg, hbound⟩ := keptPart_bounds hctx
  have hword : u32 (ctx.fftSize + 1) = ctx.fftSize + 1 := u32_of_lt (by omega)
  have hfloor : 0 ≤ ⌊ctx.keptPart (ctx.fftSize + 1)⌋ := Int.floor_nonneg.mpr hnonneg
  have hn : 2 * ⌊ctx.keptPart (ctx.fftSize + 1)⌋ ≤ 3 * ctx.fftSize := by
    have hle := Int.floor_le (ctx.keptPart (ctx.fftSize + 1))
    have hcast : (2 * ⌊ctx.keptPart (ctx.fftSize + 1)⌋ : ℚ) ≤ 3 * ctx.fftSize := by linarith
    exact_mod_cast hcast
  refine ⟨⌊ctx.keptPart (ctx.fftSize + 1)⌋.toNat, by omega, ?_, ?_⟩
  · simp only [ElectrosenseContext.getReducedFFTSize, toUnsigned, hword]
    rw [u32_of_lt (by omega)]
    split
    · exact u32_of_lt (by omega)
    · rfl
  · have hiff := Int.floor_lt (a := ctx.keptPart (ctx.fftSize + 1)) (z := (ctx.fftSize : ℤ))
    rw [Int.cast_natCast] at hiff
    rw [← hiff]
    omega

/-- The window fits exactly when it is not longer than the spectrum. -/
theorem inside_iff_le (hctx : Documented ctx) :
    (∀ i < ctx.getReducedFFTSize, windowIndex ctx i < ctx.fftSize) ↔
      ctx.getReducedFFTSize ≤ ctx.fftSize := by
  obtain ⟨hlow, hhigh⟩ := fftSize_bounds hctx
  have heven := fftSize_even hctx
  obtain ⟨n, hn, hreduced, _⟩ := exists_bins hctx
  have hbound : 2 * ctx.getReducedFFTSize ≤ 3 * ctx.fftSize + 2 := by
    rw [hreduced]
    split <;> omega
  constructor
  · intro hall
    by_contra hlonger
    -- the start has wrapped, and half a spectrum after it no bin is left
    have hstart : windowStart ctx =
        (2 ^ 32 - (ctx.getReducedFFTSize - ctx.fftSize)) / 2 := by
      rw [windowStart, u32Sub_of_lt (by omega) (by omega)]
    have hmiddle := hall (ctx.fftSize / 2) (by omega)
    rw [windowIndex, hstart, u32_of_lt (by omega)] at hmiddle
    omega
  · intro hle i hi
    have hstart : windowStart ctx = (ctx.fftSize - ctx.getReducedFFTSize) / 2 := by
      rw [windowStart, u32Sub_of_le hle (by omega)]
    rw [windowIndex, hstart, u32_of_lt (by omega)]
    omega

theorem length_le_iff (hctx : Documented ctx) :
    ctx.getReducedFFTSize ≤ ctx.fftSize ↔ ctx.keptPart (ctx.fftSize + 1) < ctx.fftSize := by
  have heven := fftSize_even hctx
  obtain ⟨n, hn, hreduced, hiff⟩ := exists_bins hctx
  rw [← hiff, hreduced]
  split <;> omega

/-- The values can be read exactly when a whole bin is dropped after rounding. -/
theorem squaredMag_ok_iff {K : Type} (hctx : Documented ctx) {psdValues : List K}
    (hlength : psdValues.length = ctx.fftSize) :
    (∃ values, squaredMag ctx psdValues = .ok values) ↔
      ctx.keptPart (ctx.fftSize + 1) < ctx.fftSize := by
  rw [← length_le_iff hctx, ← inside_iff_le hctx, squaredMag, exists_mapM_eq_ok]
  simp only [List.mem_range, readAt_eq_ok, List.getElem?_eq_some_iff, hlength]
  constructor
  · intro hall i hi
    obtain ⟨_, hlt, _⟩ := hall i hi
    exact hlt
  · intro hall i hi
    exact ⟨_, hall i hi, rfl⟩

/-- Every bin that is read is a bin of the spectrum exactly when the part of the window
that is kept, as a float, is shorter than the spectrum. -/
theorem window_inside_iff (ctx : ElectrosenseContext) (hk : 1 ≤ ctx.log2FftSize)
    (hword : ctx.log2FftSize < 32) (hlow : 0 ≤ ctx.freqOverlap) (hhigh : ctx.freqOverlap ≤ 1) :
    (∀ i < ctx.getReducedFFTSize, windowIndex ctx i < ctx.fftSize) ↔
      binary32.round (binary32.round (1 - ctx.freqOverlap) *
        binary32.round (2 ^ ctx.log2FftSize + 1)) < 2 ^ ctx.log2FftSize := by
  have hctx : Documented ctx := ⟨hk, hword, hlow, hhigh⟩
  rw [inside_iff_le hctx, length_le_iff hctx, fftSize_eq hctx, ElectrosenseContext.keptPart]
  push_cast
  rfl

theorem window_inside_iff_default :
    windowIndex {} 214 < ({} : ElectrosenseContext).fftSize :=
  (window_inside_iff {} (by decide) (by decide) (by norm_num) (by norm_num)).mpr
    (by decide +kernel) 214 (by decide +kernel)

/-- Without overlap the default spectrum of 256 bins is read at 257 places. -/
theorem window_wraps_without_overlap :
    Documented { freqOverlap := 0 } ∧
      ({ freqOverlap := 0 } : ElectrosenseContext).getReducedFFTSize = 257 ∧
      ¬ windowIndex { freqOverlap := 0 } 0 < ({ freqOverlap := 0 } : ElectrosenseContext).fftSize :=
  ⟨⟨by decide, by decide, by norm_num, by norm_num⟩, by decide +kernel, by decide +kernel⟩

/-- An overlap of a little more than one bin is lost in the product. -/
theorem window_wraps_by_rounding :
    1 < (16711936 / 2 ^ 32 : ℚ) * (2 ^ 8 + 1) ∧
      ({ freqOverlap := 16711936 / 2 ^ 32 } : ElectrosenseContext).getReducedFFTSize = 257 := by
  decide +kernel

/-- Where `fft_shift` puts the zero-frequency component of a spectrum of even
length. -/
def zeroFrequencyBin (ctx : ElectrosenseContext) : ℕ := ctx.fftSize / 2

theorem reducedFFTSize_odd (ctx : ElectrosenseContext) : ctx.getReducedFFTSize % 2 = 1 := by
  unfold ElectrosenseContext.getReducedFFTSize
  have hword : toUnsigned (ctx.keptPart (u32 (ctx.fftSize + 1))) < 2 ^ 32 :=
    Nat.mod_lt _ (by decide)
  generalize toUnsigned (ctx.keptPart (u32 (ctx.fftSize + 1))) = n at hword ⊢
  show (if n % 2 = 0 then u32 (n + 1) else n) % 2 = 1
  split
  · rw [u32_of_lt (by omega)]
    omega
  · omega

/-- A power of two stays even in a word. -/
theorem fftSize_mod_two (hk : 1 ≤ ctx.log2FftSize) : ctx.fftSize % 2 = 0 := by
  have heven : 2 ^ ctx.log2FftSize % 2 = 0 :=
    Nat.mod_eq_zero_of_dvd (dvd_pow_self 2 (by omega))
  unfold ElectrosenseContext.fftSize u32
  omega

/-- The difference of the sizes is odd, and the quotient is rounded down before
`round` sees it: the middle of every window is one bin too low. -/
theorem middle_below_zeroFrequency (ctx : ElectrosenseContext) (hk : 1 ≤ ctx.log2FftSize)
    (hfits : ctx.getReducedFFTSize ≤ ctx.fftSize) :
    windowIndex ctx ((ctx.getReducedFFTSize - 1) / 2) + 1 = zeroFrequencyBin ctx ∧
      windowIndex ctx ((ctx.getReducedFFTSize - 1) / 2) ≠ zeroFrequencyBin ctx := by
  have hodd := reducedFFTSize_odd ctx
  have heven := fftSize_mod_two hk
  have hword : ctx.fftSize < 2 ^ 32 := Nat.mod_lt _ (by decide)
  have hstart : windowStart ctx = (ctx.fftSize - ctx.getReducedFFTSize) / 2 := by
    rw [windowStart, u32Sub_of_le hfits hword]
  have hindex : windowIndex ctx ((ctx.getReducedFFTSize - 1) / 2) =
      (ctx.fftSize - ctx.getReducedFFTSize) / 2 + (ctx.getReducedFFTSize - 1) / 2 := by
    rw [windowIndex, hstart, u32_of_lt (by omega)]
  rw [hindex, zeroFrequencyBin]
  omega

theorem middle_below_zeroFrequency_default :
    windowIndex {} ((({} : ElectrosenseContext).getReducedFFTSize - 1) / 2) + 1 = 128 ∧
      windowIndex {} ((({} : ElectrosenseContext).getReducedFFTSize - 1) / 2) ≠ 128 :=
  middle_below_zeroFrequency {} (by decide) (by decide +kernel)

/-- By default 215 of 256 bins are sent, and the middle one is bin 127. -/
theorem default_window_off_centre :
    ({} : ElectrosenseContext).getReducedFFTSize = 215 ∧
      ({} : ElectrosenseContext).getReducedFFTSize ≤ ({} : ElectrosenseContext).fftSize ∧
      ¬ windowIndex {} ((({} : ElectrosenseContext).getReducedFFTSize - 1) / 2) =
        zeroFrequencyBin {} :=
  ⟨by decide +kernel, by decide +kernel, by decide +kernel⟩

end EsSensor.SpectralWindow
