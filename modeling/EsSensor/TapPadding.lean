import EsSensor.RationalFilter
import EsSensor.FractionalFilter

/-!
What the zero padding of the tap table guarantees. Both filters add
`size % rateI` zeros, which completes the last branch only for some sizes; for
the others taps are lost to the division or the delay line is empty.
-/
namespace EsSensor.TapPadding

open CheckedLoop StreamMachine CyclicIndex Polyphase

/-- The table starts with the supplied taps, is filled up to whole branches with
zeros, and every supplied tap belongs to one of the branches that are summed. -/
structure KeepsTaps (taps : List ℚ) (rateI : ℕ) (table delayLine : List ℚ) : Prop where
  positive : 0 < table.length
  multiple : rateI ∣ table.length
  padded : ∃ zeros, table = taps ++ List.replicate zeros 0
  delay_eq : delayLine.length = table.length / rateI
  delay_pos : 1 ≤ delayLine.length
  summed : ∀ i < taps.length, ∃ outIndex < rateI, ∃ j < delayLine.length,
    outIndex + rateI * j = i

/-- What is asked of the rational filter after its constructor. -/
def RationalSound (taps : List ℚ) (rateI rateD : ℕ) : Prop :=
  ∃ f, RationalFilter.new taps rateI rateD = .ok f ∧
    KeepsTaps taps rateI f.taps f.delayLine ∧
    ∀ fuel calls, RationalFilter.filterCalls fuel f calls ≠ .error .outOfRange

def FractionalSound (taps : List ℚ) (rateI : ℕ) (rateD : ℚ) : Prop :=
  ∃ f, FractionalFilter.new taps rateI rateD = .ok f ∧
    KeepsTaps taps rateI f.taps f.delayLine ∧
    ∀ fuel calls, FractionalFilter.filterCalls fuel f calls ≠ .error .outOfRange

/-- The sizes for which `size % rateI` is the number of missing taps. -/
def PaddingFits (size rateI : ℕ) : Prop := size % rateI = 0 ∨ 2 * (size % rateI) = rateI

instance (size rateI : ℕ) : Decidable (PaddingFits size rateI) := by
  unfold PaddingFits
  infer_instance

theorem dvd_padded_iff (size rateI : ℕ) (hI : 1 ≤ rateI) :
    rateI ∣ size + size % rateI ↔ PaddingFits size rateI := by
  have hlt := Nat.mod_lt size hI
  have hsplit : size + size % rateI = rateI * (size / rateI) + 2 * (size % rateI) := by
    have hdiv := Nat.div_add_mod size rateI
    omega
  rw [hsplit, Nat.dvd_add_right (Nat.dvd_mul_right rateI _)]
  unfold PaddingFits
  constructor
  · intro hdvd
    obtain ⟨q, hq⟩ := hdvd
    -- the doubled remainder is below 2 * rateI, so the quotient is 0 or 1
    have hsmall : q < 2 := by
      by_contra hlarge
      have hmul := Nat.mul_le_mul_left rateI (show 2 ≤ q by omega)
      omega
    obtain rfl | rfl : q = 0 ∨ q = 1 := by omega
    · exact Or.inl (by omega)
    · exact Or.inr (by omega)
  · intro hfits
    rcases hfits with hzero | hhalf
    · simp [hzero]
    · rw [hhalf]

theorem keepsTaps_padTaps {taps : List ℚ} {rateI : ℕ} (hne : taps ≠ []) (hI : 1 ≤ rateI)
    (hfits : PaddingFits taps.length rateI) :
    KeepsTaps taps rateI (padTaps taps rateI)
      (List.replicate ((padTaps taps rateI).length / rateI) 0) := by
  have hpos : 0 < taps.length := List.length_pos_iff.mpr hne
  have hdvd : rateI ∣ (padTaps taps rateI).length := by
    rw [padTaps_length]
    exact (dvd_padded_iff taps.length rateI hI).mpr hfits
  have htable : taps.length ≤ (padTaps taps rateI).length := by
    rw [padTaps_length]
    omega
  have hwhole : rateI * ((padTaps taps rateI).length / rateI) = (padTaps taps rateI).length :=
    Nat.mul_div_cancel' hdvd
  refine ⟨by omega, hdvd, ⟨_, rfl⟩, by simp, ?_, ?_⟩
  · rw [List.length_replicate]
    exact Nat.div_pos (Nat.le_of_dvd (by omega) hdvd) hI
  · intro i hi
    refine ⟨i % rateI, Nat.mod_lt i hI, i / rateI, ?_, Nat.mod_add_div i rateI⟩
    rw [List.length_replicate, Nat.div_lt_iff_lt_mul hI, Nat.mul_comm, hwhole]
    omega

/-- The part of a filter's state that its array accesses depend on. -/
structure InRange (rateI delayIndex : ℕ) (taps delayLine : List ℚ) : Prop where
  rateI_pos : 1 ≤ rateI
  delay_lt : delayIndex < delayLine.length
  table : rateI * delayLine.length ≤ taps.length

theorem InRange.write {rateI delayIndex : ℕ} {taps delayLine : List ℚ}
    (h : InRange rateI delayIndex taps delayLine) (sample : ℚ) :
    InRange rateI delayIndex taps (delayLine.set delayIndex sample) where
  rateI_pos := h.rateI_pos
  delay_lt := by simpa using h.delay_lt
  table := by simpa using h.table

theorem InRange.advance {rateI delayIndex : ℕ} {taps delayLine : List ℚ}
    (h : InRange rateI delayIndex taps delayLine) :
    InRange rateI (next delayLine.length delayIndex) taps delayLine where
  rateI_pos := h.rateI_pos
  delay_lt := next_lt (Nat.zero_lt_of_lt h.delay_lt) delayIndex
  table := h.table

/-- Both filters go on alike once a sample is stored: outputs are made while the
phase allows it, then the state is moved to the next sample. -/
theorem safe_outputs {σ : Type} {Inv : σ → Prop} {firing : σ × List ℚ → Bool}
    {fire : σ × List ℚ → Except Fault (σ × List ℚ)} {endSample : σ → σ}
    (hfire : ∀ s, Inv s.1 → firing s = true → Safe (fun r => Inv r.1) (fire s))
    (hend : ∀ f, Inv f → Inv (endSample f)) (fuel : ℕ) {f : σ} (hf : Inv f) :
    Safe (fun r => Inv r.1) (do
      let s ← whileLoop firing fire fuel (f, [])
      .ok (endSample s.1, s.2)) := by
  refine (safe_whileLoop (fun s => Inv s.1) hfire fuel (f, []) hf).bind ?_
  intro s hs
  exact hend s.1 hs

theorem safe_rational {f : RationalFilter.RationalFIR ℚ}
    (hf : InRange f.rateI f.delayIndex f.taps f.delayLine) (fuel : ℕ) (calls : List (List ℚ)) :
    RationalFilter.filterCalls fuel f calls ≠ .error .outOfRange := by
  let Inv : RationalFilter.RationalFIR ℚ → Prop :=
    fun f => InRange f.rateI f.delayIndex f.taps f.delayLine
  have hfire : ∀ s : RationalFilter.RationalFIR ℚ × List ℚ, Inv s.1 →
      RationalFilter.firing s = true → Safe (fun r => Inv r.1) (RationalFilter.fire s) := by
    intro s hs hcond
    have hlt : s.1.outIndex < s.1.rateI := by simpa [RationalFilter.firing] using hcond
    exact (safe_calcPolyphase hlt hs.table hs.delay_lt).bind fun _ _ => hs
  have hstep : ∀ g x, Inv g → Safe (fun r => Inv r.1) (RationalFilter.filterSample fuel g x) := by
    intro g x hg
    rw [RationalFilter.filterSample, writeAt_of_lt hg.delay_lt, ok_bind]
    exact safe_outputs hfire (fun _ hs => InRange.advance hs) fuel (InRange.write hg x)
  exact (safe_runCalls hstep calls f hf).ne_outOfRange

theorem safe_fractional {f : FractionalFilter.FrationalFIR}
    (hf : InRange f.rateI f.delayIndex f.taps f.delayLine) (fuel : ℕ) (calls : List (List ℚ)) :
    FractionalFilter.filterCalls fuel f calls ≠ .error .outOfRange := by
  let Inv : FractionalFilter.FrationalFIR → Prop :=
    fun f => InRange f.rateI f.delayIndex f.taps f.delayLine
  have hbranch : ∀ g, Inv g → ∀ offset,
      Safe (fun _ => True) (FractionalFilter.branch g offset) := by
    intro g hg offset
    exact safe_calcPolyphase (FractionalFilter.branchIndex_lt g hg.rateI_pos offset)
      hg.table hg.delay_lt
  have hfire : ∀ s : FractionalFilter.FrationalFIR × List ℚ, Inv s.1 →
      FractionalFilter.firing s = true → Safe (fun r => Inv r.1) (FractionalFilter.fire s) := by
    intro s hs _
    exact (hbranch s.1 hs 0).bind fun _ _ => (hbranch s.1 hs 1).bind fun _ _ => hs
  have hstep : ∀ g x, Inv g →
      Safe (fun r => Inv r.1) (FractionalFilter.filterSample fuel g x) := by
    intro g x hg
    rw [FractionalFilter.filterSample, writeAt_of_lt hg.delay_lt, ok_bind]
    exact safe_outputs hfire (fun _ hs => InRange.advance hs) fuel (InRange.write hg x)
  exact (safe_runCalls hstep calls f hf).ne_outOfRange

theorem KeepsTaps.inRange {taps table delayLine : List ℚ} {rateI : ℕ} (hI : 1 ≤ rateI)
    (h : KeepsTaps taps rateI table delayLine) : InRange rateI 0 table delayLine where
  rateI_pos := hI
  delay_lt := h.delay_pos
  table := by rw [h.delay_eq]; exact Nat.mul_div_le table.length rateI

end EsSensor.TapPadding
