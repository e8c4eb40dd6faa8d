import EsSensor.Library.DecimalText
import EsSensor.Library.FifoChain
import EsSensor.SpectrumSegment
import Mathlib.Algebra.Order.Field.Basic
import Mathlib.Tactic.GCongr
import Mathlib.Tactic.Ring

/-!
The text file of averaged spectra: a line for a segment, its time in the first
column. The seconds and the nanoseconds are printed as two integers with a point
between them, and the column is read as one decimal number.
-/
namespace EsSensor.FileSink

open DecimalText FifoChain

/-- How the stream prints a float with `setprecision(5)`; never with an end of line. -/
structure FloatText where
  write : ℚ → List Char
  newline_notMem : ∀ x, '\n' ∉ write x

instance : Inhabited FloatText := ⟨fun _ => ['0'], fun _ => by decide⟩

def timeColumn (timeStamp : Timespec) : List Char :=
  ofInt timeStamp.sec ++ '.' :: ofInt timeStamp.nsec

/-- The line of a segment, without its end. -/
def line (text : FloatText) (segment : SpectrumSegment ℚ) : List Char :=
  timeColumn segment.timeStamp ++ ',' :: (Nat.toDigits 10 segment.centerFrequency ++
    ',' :: segment.psdValues.flatMap (fun x => text.write x ++ [',']))

/-- The loop body of `FileSink::run`, which ends the segment. -/
def fileSink (text : FloatText) : Block (List Char) (SpectrumSegment ℚ) where
  init := []
  step mOutputFile segment := (mOutputFile ++ (line text segment ++ ['\n']), [])

/-- The times in a file: the first column of every line. -/
def readTimes (file : List Char) : List ℚ :=
  (file.splitOn '\n').dropLast.map (fun line => toRat (before ',' line))

/-- The point in time of a time stamp. -/
def captureTime (t : Timespec) : ℚ := t.sec + t.nsec / 10 ^ 9

/-- The number that the time column is read as. -/
def fileTime (t : Timespec) : ℚ := t.sec + t.nsec / 10 ^ digits t.nsec.toNat

/-- A time of the clock since the epoch, as the word for the seconds holds it. -/
structure ClockTime (t : Timespec) : Prop where
  sec_nonneg : 0 ≤ t.sec
  sec_lt : t.sec < 2 ^ 63
  nsec_nonneg : 0 ≤ t.nsec
  nsec_lt : t.nsec < 10 ^ 9

instance (t : Timespec) : Decidable (ClockTime t) :=
  decidable_of_iff (0 ≤ t.sec ∧ t.sec < 2 ^ 63 ∧ 0 ≤ t.nsec ∧ t.nsec < 10 ^ 9)
    ⟨fun ⟨hsec, hsec', hnsec, hnsec'⟩ => ⟨hsec, hsec', hnsec, hnsec'⟩,
      fun ht => ⟨ht.sec_nonneg, ht.sec_lt, ht.nsec_nonneg, ht.nsec_lt⟩⟩

theorem stateAfter_fileSink (text : FloatText) (segments : List (SpectrumSegment ℚ)) :
    (fileSink text).stateAfter segments =
      segments.flatMap (fun segment => line text segment ++ ['\n']) := by
  induction segments using List.reverseRecOn with
  | nil => rfl
  | append_singleton segments segment ih =>
    rw [Block.stateAfter_concat, ih, List.flatMap_append, List.flatMap_singleton]
    rfl

theorem notMem_timeColumn {x : Char} (hx : x.isDigit = false) (hsign : x ≠ '-') (hpoint : x ≠ '.')
    (t : Timespec) : x ∉ timeColumn t := by
  rw [timeColumn, List.mem_append, List.mem_cons, not_or, not_or]
  exact ⟨notMem_ofInt hx hsign t.sec, hpoint, notMem_ofInt hx hsign t.nsec⟩

theorem newline_notMem_line (text : FloatText) (segment : SpectrumSegment ℚ) :
    '\n' ∉ line text segment := by
  have htime := notMem_timeColumn (x := '\n') (by decide) (by decide) (by decide)
    segment.timeStamp
  have hfreq := notMem_toDigits (x := '\n') (by decide) segment.centerFrequency
  have hvalues : '\n' ∉ segment.psdValues.flatMap (fun x => text.write x ++ [',']) := by
    rw [List.mem_flatMap]
    rintro ⟨x, _, hmem⟩
    rw [List.mem_append] at hmem
    rcases hmem with hwritten | hcomma
    · exact text.newline_notMem x hwritten
    · exact absurd hcomma (by decide)
  simp [line, htime, hfreq, hvalues]

theorem before_line (text : FloatText) (segment : SpectrumSegment ℚ) :
    before ',' (line text segment) = timeColumn segment.timeStamp :=
  before_append (notMem_timeColumn (by decide) (by decide) (by decide) _) _

theorem toRat_timeColumn {t : Timespec} (ht : ClockTime t) : toRat (timeColumn t) = fileTime t := by
  obtain ⟨sec, hsec⟩ := Int.eq_ofNat_of_zero_le ht.sec_nonneg
  obtain ⟨nsec, hnsec⟩ := Int.eq_ofNat_of_zero_le ht.nsec_nonneg
  rw [timeColumn, fileTime, hsec, hnsec, ofInt_natCast, ofInt_natCast, toRat_point,
    Int.toNat_natCast]
  push_cast
  rfl

/-- A file is read back as the times of its segments, one for one. -/
theorem readTimes_stateAfter (text : FloatText) {segments : List (SpectrumSegment ℚ)}
    (hclock : ∀ segment ∈ segments, ClockTime segment.timeStamp) :
    readTimes ((fileSink text).stateAfter segments) =
      segments.map (fun segment => fileTime segment.timeStamp) := by
  rw [readTimes, stateAfter_fileSink,
    splitOn_lines (line text) segments (fun segment _ => newline_notMem_line text segment),
    List.dropLast_concat, List.map_map]
  refine List.map_congr_left ?_
  intro segment hsegment
  rw [Function.comp_apply, before_line, toRat_timeColumn (hclock segment hsegment)]

/-- Nine digits fill the fraction, and a zero is none. -/
theorem fileTime_eq {t : Timespec} (ht : ClockTime t) (hdigits : t.nsec = 0 ∨ 10 ^ 8 ≤ t.nsec) :
    fileTime t = captureTime t := by
  rw [fileTime, captureTime]
  rcases hdigits with hzero | hfull
  · rw [hzero]
    simp
  · have hlt := ht.nsec_lt
    rw [digits_eq (n := t.nsec.toNat) (k := 8) (by omega) (by omega)]

/-- With fewer digits the fraction is read as ten times what it is, or more. -/
theorem fileTime_far {t : Timespec} (hpos : 0 < t.nsec) (hlt : t.nsec < 10 ^ 8) :
    captureTime t + 9 / 100 ≤ fileTime t := by
  obtain ⟨n, hn⟩ := Int.eq_ofNat_of_zero_le hpos.le
  have hdigits : digits n ≤ 8 := (digits_le_iff (by decide)).mpr (by omega)
  have htenth := one_le_ten_mul_fraction (n := n) (by omega)
  have hshort : (10 : ℚ) ^ digits n ≤ 10 ^ 8 := pow_le_pow_right₀ (by norm_num) hdigits
  have hten : 10 * ((n : ℚ) / 10 ^ 9) ≤ n / 10 ^ digits n := by
    calc 10 * ((n : ℚ) / 10 ^ 9) = (n : ℚ) / 10 ^ 8 := by ring
      _ ≤ (n : ℚ) / 10 ^ digits n := by gcongr
  rw [fileTime, captureTime, hn, Int.toNat_natCast]
  push_cast
  linarith

end EsSensor.FileSink
