import EsSensor.Settings

/-!
The overlap of consecutive segments against the FFT size. `setSoverlap` checks
it, but a later `setLog2FftSize` may fall below it.
-/
namespace EsSensor.SegmentOverlap

open MachineWord GuardedRun Settings

/-- What the unsigned subtraction in `SyncSampling` relies on. -/
def OverlapBelowSize (s : Settings) : Prop := s.soverlap < 2 ^ s.log2FftSize

instance (s : Settings) : Decidable (OverlapBelowSize s) := Nat.decLt _ _

/-- A new FFT size is above the overlap of that moment. -/
def SizeAboveOverlap : SetterCall → Settings → Prop
  | .setLog2FftSize log2FftSize, s => s.soverlap < 2 ^ log2FftSize
  | _, _ => True

variable {shifter : Shifter} {s s' : Settings}

theorem setOutputFileName_overlap {fileName : String} (h : s.setOutputFileName fileName = some s') :
    s'.log2FftSize = s.log2FftSize ∧ s'.soverlap = s.soverlap := by
  obtain ⟨_, rfl⟩ | ⟨type, name, rfl, _⟩ := setOutputFileName_cases h
  · exact ⟨rfl, rfl⟩
  · exact ⟨rfl, rfl⟩

/-- Only one setter writes the FFT size. -/
def sizeAfter : SetterCall → Settings → ℕ
  | .setLog2FftSize log2FftSize, _ => log2FftSize
  | _, s => s.log2FftSize

/-- Only one setter writes the overlap, and it reads the size. -/
def overlapAfter (shifter : Shifter) : SetterCall → Settings → ℕ
  | .setSoverlap soverlap, s => clampSoverlap shifter s.log2FftSize soverlap
  | _, s => s.soverlap

theorem apply_size {c : SetterCall} (h : c.apply shifter s = some s') :
    s'.log2FftSize = sizeAfter c s := by
  cases c with
  | setOutputFileName fileName => exact (setOutputFileName_overlap h).1
  | _ =>
    obtain rfl := Option.some.inj h
    rfl

theorem apply_overlap {c : SetterCall} (h : c.apply shifter s = some s') :
    s'.soverlap = overlapAfter shifter c s := by
  cases c with
  | setOutputFileName fileName => exact (setOutputFileName_overlap h).2
  | _ =>
    obtain rfl := Option.some.inj h
    rfl

/-- One call keeps the overlap below the size exactly when it meets the guard. -/
theorem apply_keeps_iff {c : SetterCall} (hlog : ∀ k, c = .setLog2FftSize k → k < 31)
    (hsize : s.log2FftSize < 31) (hs : OverlapBelowSize s) (h : c.apply shifter s = some s') :
    s'.log2FftSize < 31 ∧ (OverlapBelowSize s' ↔ SizeAboveOverlap c s) := by
  unfold OverlapBelowSize
  rw [apply_size h, apply_overlap h]
  cases c with
  | setLog2FftSize k => exact ⟨hlog k rfl, Iff.rfl⟩
  | setSoverlap v => exact ⟨hsize, iff_of_true (clampSoverlap_lt shifter hsize v) trivial⟩
  | _ => exact ⟨hsize, iff_of_true hs trivial⟩

/-- In a run of setters the overlap stays below the FFT size exactly when no new
size is set that is not above the overlap. -/
theorem overlap_below_size_iff (shifter : Shifter) (memory : Settings) (calls : List SetterCall)
    (hlog : ∀ k, SetterCall.setLog2FftSize k ∈ calls → k < 31)
    (hs : construct shifter memory = some s) :
    Along (SetterCall.apply shifter) OverlapBelowSize s calls ↔
      Meets (SetterCall.apply shifter) SizeAboveOverlap s calls := by
  rw [construct_eq] at hs
  obtain rfl := Option.some.inj hs
  have hstep : ∀ c ∈ calls, ∀ t t' : Settings, t.log2FftSize < 31 → OverlapBelowSize t →
      c.apply shifter t = some t' →
      t'.log2FftSize < 31 ∧ (OverlapBelowSize t' ↔ SizeAboveOverlap c t) := by
    intro c hc t t' hsize ht happly
    refine apply_keeps_iff ?_ hsize ht happly
    intro k hk
    exact hlog k (hk ▸ hc)
  have hsize : (initial memory).log2FftSize < 31 := by
    rw [initial_log2FftSize]
    decide
  have hbelow : OverlapBelowSize (initial memory) := by
    rw [OverlapBelowSize, initial_log2FftSize, initial_soverlap]
    decide
  exact along_iff_meets hstep hsize hbelow

theorem overlap_below_size_iff_smaller :
    Along (SetterCall.apply default) OverlapBelowSize (initial default)
        [.setSoverlap 100, .setLog2FftSize 7] ↔
      Meets (SetterCall.apply default) SizeAboveOverlap (initial default)
        [.setSoverlap 100, .setLog2FftSize 7] := by
  refine overlap_below_size_iff default default _ ?_ (construct_eq default default)
  intro k hk
  simp at hk
  omega

/-- The default overlap of 128 samples is not below a size of 2 ^ 7. -/
theorem smaller_size_breaks_overlap :
    construct default default = some (initial default) ∧
      ¬ Along (SetterCall.apply default) OverlapBelowSize (initial default)
        [.setLog2FftSize 7] := by
  refine ⟨construct_eq default default, ?_⟩
  intro hall
  have hlast := hall [.setLog2FftSize 7] (List.prefix_refl _) _ rfl
  exact absurd hlast (by decide)

end EsSensor.SegmentOverlap
