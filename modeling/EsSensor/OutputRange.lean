import EsSensor.Library.WeightedRange
import EsSensor.RationalFilter
import Mathlib.Algebra.Order.Ring.Rat
import Mathlib.Tactic.Linarith

/-!
The values that the rational filter stores as bytes. A branch weighs samples of a
byte's range with positive and with negative taps, so that steps between the
extreme bytes, and not the gain for a constant, decide how far an output goes.
-/
namespace EsSensor.OutputRange

open CheckedLoop StreamMachine DelayLine MachineWord Polyphase RationalFilter WeightedRange

/-- The tap for the sample of age `j` in the branch of phase `p`. -/
def branchTap (table : List ℚ) (rateI p j : ℕ) : ℚ := table.getD (p + rateI * j) 0

/-- Samples of 255 at the taps of one sign, and of zero at the others, give a value
that a byte can hold. -/
structure Representable (table : List ℚ) (rateI p : ℕ) : Prop where
  negative : 255 * ∑ j ∈ Finset.range (table.length / rateI), (branchTap table rateI p j)⁻ < 1
  positive : 255 * ∑ j ∈ Finset.range (table.length / rateI), (branchTap table rateI p j)⁺ < 256

/-- Where the phase counter comes to; the samples have no part in it. -/
inductive Visited (rateI rateD : ℕ) : ℕ → Prop
  | start : Visited rateI rateD 0
  | fire {p : ℕ} : Visited rateI rateD p → p < rateI → Visited rateI rateD (u32 (p + rateD))
  | next {p : ℕ} : Visited rateI rateD p → rateI ≤ p → Visited rateI rateD (p - rateI)

/-- No stream of samples in the range of a byte leaves it by more than the
conversion towards zero takes off, in any cut and in any run that returns. -/
def BytesRepresentable (f : RationalFIR ℚ) : Prop :=
  ∀ (fuel : ℕ) (calls : List (List ℚ)) (f' : RationalFIR ℚ) (outs : List (List ℚ)),
    (∀ x ∈ calls.flatten, 0 ≤ x ∧ x ≤ 255) → filterCalls fuel f calls = .ok (f', outs) →
    ∀ y ∈ outs.flatten, -1 < y ∧ y < 256

section Branch

variable {table : List ℚ} {rateI p : ℕ}

theorem representable_iff : Representable table rateI p ↔
    ∀ x : ℕ → ℚ, (∀ j ∈ Finset.range (table.length / rateI), 0 ≤ x j ∧ x j ≤ 255) →
      -1 < ∑ j ∈ Finset.range (table.length / rateI), branchTap table rateI p j * x j ∧
      ∑ j ∈ Finset.range (table.length / rateI), branchTap table rateI p j * x j < 256 := by
  rw [forall_between_iff (by norm_num), neg_lt_neg_iff]
  exact ⟨fun h => ⟨h.negative, h.positive⟩, fun ⟨hneg, hpos⟩ => ⟨hneg, hpos⟩⟩

/-- With unity gain the negative taps alone decide. -/
theorem representable_of_unity
    (hunity : ∑ j ∈ Finset.range (table.length / rateI), branchTap table rateI p j = 1) :
    Representable table rateI p ↔
      255 * ∑ j ∈ Finset.range (table.length / rateI), (branchTap table rateI p j)⁻ < 1 := by
  have hparts : ∑ j ∈ Finset.range (table.length / rateI), (branchTap table rateI p j)⁺ =
      1 + ∑ j ∈ Finset.range (table.length / rateI), (branchTap table rateI p j)⁻ := by
    rw [← hunity, ← Finset.sum_add_distrib]
    refine Finset.sum_congr rfl (fun j _ => ?_)
    rw [← sub_eq_iff_eq_add, posPart_sub_negPart]
  refine ⟨fun h => h.negative, fun h => ⟨h, ?_⟩⟩
  rw [hparts]
  linarith

end Branch

section Runs

variable {table : List ℚ} {rateI rateD : ℕ}

/-- The filter after any number of samples. -/
structure Within (table : List ℚ) (rateI rateD : ℕ) (f : RationalFIR ℚ) : Prop where
  taps_eq : f.taps = table
  rateI_eq : f.rateI = rateI
  rateD_eq : f.rateD = rateD
  length_eq : f.delayLine.length = table.length / rateI
  sample : ∀ x ∈ f.delayLine, 0 ≤ x ∧ x ≤ 255
  phase : Visited rateI rateD f.outIndex

theorem within_ofTable : Within table rateI rateD (ofTable table rateI rateD) where
  taps_eq := rfl
  rateI_eq := rfl
  rateD_eq := rfl
  length_eq := List.length_replicate
  sample := by
    intro x hx
    obtain rfl := List.eq_of_mem_replicate hx
    norm_num
  phase := .start

/-- One output: the branch of the phase at which the counter stands. -/
theorem fire_within (hbranch : ∀ p < rateI, Visited rateI rateD p → Representable table rateI p)
    {s s' : RationalFIR ℚ × List ℚ} (hs : Within table rateI rateD s.1)
    (hout : ∀ y ∈ s.2, -1 < y ∧ y < 256) (hfiring : firing s = true) (hrun : fire s = .ok s') :
    Within table rateI rateD s'.1 ∧ ∀ y ∈ s'.2, -1 < y ∧ y < 256 := by
  have hlt : s.1.outIndex < rateI := by simpa [firing, hs.rateI_eq] using hfiring
  obtain ⟨o, hpolyphase, hrest⟩ := bind_eq_ok.mp hrun
  obtain rfl := Except.ok.inj hrest
  obtain ⟨x, hx, ho⟩ := calcPolyphase_eq_ok hpolyphase
  rw [hs.taps_eq, hs.rateI_eq, hs.length_eq] at ho
  have hrange : -1 < o ∧ o < 256 := by
    rw [ho]
    refine representable_iff.mp (hbranch _ hlt hs.phase) x (fun j hj => hs.sample _ (hx j ?_))
    rw [hs.length_eq]
    exact Finset.mem_range.mp hj
  refine ⟨⟨hs.taps_eq, hs.rateI_eq, hs.rateD_eq, hs.length_eq, hs.sample, ?_⟩, ?_⟩
  · change Visited rateI rateD (u32 (s.1.outIndex + s.1.rateD))
    rw [hs.rateD_eq]
    exact .fire hs.phase hlt
  · exact List.forall_mem_append.mpr ⟨hout, by simpa using hrange⟩

theorem filterSample_within
    (hbranch : ∀ p < rateI, Visited rateI rateD p → Representable table rateI p) (fuel : ℕ)
    (f : RationalFIR ℚ) (a : ℚ) (f' : RationalFIR ℚ) (out : List ℚ)
    (hf : Within table rateI rateD f) (ha : 0 ≤ a ∧ a ≤ 255)
    (hrun : filterSample fuel f a = .ok (f', out)) :
    Within table rateI rateD f' ∧ ∀ y ∈ out, -1 < y ∧ y < 256 := by
  obtain ⟨delayLine, hwrite, hrest⟩ := bind_eq_ok.mp hrun
  obtain ⟨s, hloop, hend⟩ := bind_eq_ok.mp hrest
  obtain ⟨rfl, rfl⟩ := Prod.mk.inj (Except.ok.inj hend)
  have hstart : Within table rateI rateD { f with delayLine := delayLine } := by
    unfold writeAt at hwrite
    split at hwrite
    · obtain rfl := Except.ok.inj hwrite
      refine ⟨hf.taps_eq, hf.rateI_eq, hf.rateD_eq, by simpa using hf.length_eq, ?_, hf.phase⟩
      intro x hx
      rcases List.mem_or_eq_of_mem_set hx with hold | rfl
      · exact hf.sample x hold
      · exact ha
    · exact absurd hwrite (by simp)
  obtain ⟨⟨hs, hout⟩, hexit⟩ := whileLoop_inv
    (fun s => Within table rateI rateD s.1 ∧ ∀ y ∈ s.2, -1 < y ∧ y < 256)
    (fun s s' hs hcond hbody => fire_within hbranch hs.1 hs.2 hcond hbody)
    ⟨hstart, by simp⟩ hloop
  have hge : rateI ≤ s.1.outIndex := by simpa [firing, hs.rateI_eq] using hexit
  refine ⟨⟨hs.taps_eq, hs.rateI_eq, hs.rateD_eq, hs.length_eq, hs.sample, ?_⟩, hout⟩
  change Visited rateI rateD (s.1.outIndex - s.1.rateI)
  rw [hs.rateI_eq]
  exact .next hs.phase hge

theorem bytesRepresentable_ofTable
    (hbranch : ∀ p < rateI, Visited rateI rateD p → Representable table rateI p) :
    BytesRepresentable (ofTable table rateI rateD) :=
  fun fuel _ _ _ hcalls hrun =>
    (runCalls_outputs (filterSample_within hbranch fuel) hcalls within_ofTable hrun).2

end Runs

section Extremes

variable {table : List ℚ} {rateI rateD : ℕ}

/-- Without a wrap the phases are the remainders of the schedule. -/
theorem visited_phase (hword : rateI + rateD < 2 ^ 32) {p : ℕ} (hp : Visited rateI rateD p) :
    ∃ m, p % rateI = m * rateD % rateI := by
  induction hp with
  | start => exact ⟨0, by simp⟩
  | @fire p _ hlt ih =>
    obtain ⟨m, hm⟩ := ih
    refine ⟨m + 1, ?_⟩
    rw [u32_of_lt (by omega), Nat.add_mul, Nat.one_mul, Nat.add_mod, hm, ← Nat.add_mod]
  | @next p _ hge ih =>
    obtain ⟨m, hm⟩ := ih
    refine ⟨m, ?_⟩
    rw [← hm, ← Nat.mod_eq_sub_mod hge]

/-- Every phase that is visited comes back however late the input is. -/
theorem visited_late (hD : 1 ≤ rateD) (hword : rateI + rateD < 2 ^ 32) {p : ℕ} (hlt : p < rateI)
    (hp : Visited rateI rateD p) (L : ℕ) :
    ∃ m, m * rateD % rateI = p ∧ L ≤ m * rateD / rateI := by
  obtain ⟨m, hm⟩ := visited_phase hword hp
  rw [Nat.mod_eq_of_lt hlt] at hm
  refine ⟨m + L * rateI, ?_, ?_⟩
  · rw [hm, Nat.add_mul, Nat.mul_right_comm, Nat.add_mul_mod_self_right]
  · rw [Nat.le_div_iff_mul_le (Nat.zero_lt_of_lt hlt)]
    calc L * rateI ≤ m + L * rateI := Nat.le_add_left _ _
      _ ≤ (m + L * rateI) * rateD := Nat.le_mul_of_pos_right _ hD

/-- A stream up to input number `n` whose last samples have the values of `x` by
their age. -/
def bringing (x : ℕ → ℚ) (L n : ℕ) : List ℚ :=
  (List.range (n + 1)).map (fun i => if n - i < L then x (n - i) else 0)

theorem length_bringing (x : ℕ → ℚ) (L n : ℕ) : (bringing x L n).length = n + 1 := by
  simp [bringing]

theorem mem_bringing {x : ℕ → ℚ} {L n : ℕ}
    (hx : ∀ j ∈ Finset.range L, 0 ≤ x j ∧ x j ≤ 255) {a : ℚ} (ha : a ∈ bringing x L n) :
    0 ≤ a ∧ a ≤ 255 := by
  obtain ⟨i, _, rfl⟩ := List.mem_map.mp ha
  split
  · rename_i hage
    exact hx _ (Finset.mem_range.mpr hage)
  · norm_num

theorem recent_bringing (x : ℕ → ℚ) {L n j : ℕ} (hj : j < L) (hn : j ≤ n) :
    recent (fun i => (bringing x L n).getD i 0) (n + 1) j = x j := by
  have hage : n - (n - j) = j := by omega
  rw [recent, if_pos (by omega), Nat.add_sub_cancel, bringing, List.getD_eq_getElem?_getD,
    List.getElem?_map, List.getElem?_range (by omega)]
  simp [hage, hj]

/-- Any samples meet the taps of a branch that is visited: once the delay line is
full, the stream can have brought them there. -/
theorem exists_output (hD : 1 ≤ rateD) (hword : rateI + rateD < 2 ^ 32)
    (hL : 1 ≤ table.length / rateI) {p : ℕ} (hlt : p < rateI) (hp : Visited rateI rateD p)
    (x : ℕ → ℚ) (hx : ∀ j ∈ Finset.range (table.length / rateI), 0 ≤ x j ∧ x j ≤ 255) :
    ∃ calls f outs, (∀ a ∈ List.flatten calls, 0 ≤ a ∧ a ≤ 255) ∧
      filterCalls rateI (ofTable table rateI rateD) calls = .ok (f, outs) ∧
      ∑ j ∈ Finset.range (table.length / rateI), branchTap table rateI p j * x j ∈
        outs.flatten := by
  have hI : 1 ≤ rateI := Nat.one_le_of_lt hlt
  obtain ⟨m, hphase, hfull⟩ := visited_late hD hword hlt hp (table.length / rateI)
  set n := m * rateD / rateI with hn
  obtain ⟨f, hrun⟩ := filterCalls_ofTable table rateI rateD rateI hD hword hL (Nat.le_refl _)
    [bringing x (table.length / rateI) n]
  refine ⟨_, f, _, fun a ha => mem_bringing hx (by simpa using ha), hrun, ?_⟩
  have hvalue : scheduledOutput table rateI rateD
      (fun i => [bringing x (table.length / rateI) n].flatten.getD i 0) m =
      ∑ j ∈ Finset.range (table.length / rateI), branchTap table rateI p j * x j := by
    rw [scheduledOutput, branchOutput, hphase, ← hn, List.flatten_singleton]
    refine Finset.sum_congr rfl (fun j hj => ?_)
    have hj : j < table.length / rateI := Finset.mem_range.mp hj
    rw [recent_bringing x hj (by omega), branchTap]
  have hdue : m < outputsBefore rateI rateD (n + 1) :=
    (lt_outputsBefore_iff_div hI hD _ _).mpr (Nat.lt_succ_self n)
  rw [← hvalue]
  refine List.mem_of_getElem? (i := m) ?_
  rw [callOutputs_flatten, due_eq_numbered,
    getElem?_emitted_numbered (fun _ _ => outputsBefore_mono) (outputsBefore_zero hD),
    List.flatten_singleton, length_bringing, if_pos hdue]

/-- A branch that is visited and can leave the range does so on some stream. -/
theorem representable_of_bytes (hD : 1 ≤ rateD) (hword : rateI + rateD < 2 ^ 32)
    (hbytes : BytesRepresentable (ofTable table rateI rateD)) {p : ℕ} (hlt : p < rateI)
    (hp : Visited rateI rateD p) : Representable table rateI p := by
  rcases Nat.eq_zero_or_pos (table.length / rateI) with hempty | hL
  · exact ⟨by rw [hempty]; norm_num, by rw [hempty]; norm_num⟩
  · refine representable_iff.mpr (fun x hx => ?_)
    obtain ⟨calls, f, outs, hcalls, hrun, hmem⟩ := exists_output hD hword hL hlt hp x hx
    exact hbytes rateI calls f outs hcalls hrun _ hmem

end Extremes

theorem new_eq_ok {taps : List ℚ} {rateI rateD : ℕ} {f : RationalFIR ℚ}
    (hnew : RationalFilter.new taps rateI rateD = .ok f) :
    f = ofTable f.taps rateI rateD := by
  unfold RationalFilter.new at hnew
  split at hnew
  · exact absurd hnew (by simp)
  · obtain rfl := Except.ok.inj hnew
    rfl

end EsSensor.OutputRange
