import EsSensor.Library.LoopTrace
import EsSensor.Library.MachineWord

/-!
Tuning through the proxy in front of the RTL library: the frequency converter is
tuned first, and the dongle only when the intermediate frequency has changed.
The three globals are written before what can fail.
-/
namespace EsSensor.ConverterProxy

open CheckedLoop LoopTrace MachineWord

/-- The globals, and the frequency in Hz that the dongle was last set to with
success. -/
structure State where
  currentTunerFreq : ℕ := 0
  currentRtlFreq : ℕ := 0
  useInversion : Bool := false
  dongle : Option ℕ := none
  deriving DecidableEq, Repr

/-- A call, with what the converter answers to a frequency in kHz, and what the
base library answers to one in Hz. -/
structure Call where
  freq : ℕ
  converterTune : ℕ → Option (ℕ × Bool)
  baseSetCenterFreq : ℕ → ℤ

def setCenterFreq64 (s : State) (c : Call) : State × ℤ :=
  let s := { s with currentTunerFreq := c.freq }
  match c.converterTune (c.freq / 1000) with
  | none => (s, -1)
  | some (newFreq, mustInvert) =>
    let s := { s with useInversion := mustInvert }
    if newFreq = s.currentRtlFreq then (s, 0)
    else
      let s := { s with currentRtlFreq := newFreq }
      let freq := u32 (u64 (newFreq * 1000))
      let result := c.baseSetCenterFreq freq
      (if result = 0 then { s with dongle := some freq } else s, result)

/-- The calls of a run, each with the state that it met and its result. -/
def calls (s : State) (cs : List Call) : List (Visit State Call ℤ) :=
  visits (fun _ => true) (fun s c => .ok (setCenterFreq64 s c)) s cs

/-- A call that returns 0 leaves the dongle at what the converter has answered,
and any other one leaves the globals as they were. -/
def Truthful (s : State) (c : Call) : Prop :=
  ((setCenterFreq64 s c).2 = 0 →
    ∃ answer, c.converterTune (c.freq / 1000) = some answer ∧
      (setCenterFreq64 s c).1.dongle = some (answer.1 * 1000)) ∧
  ((setCenterFreq64 s c).2 ≠ 0 →
    (setCenterFreq64 s c).1.currentTunerFreq = s.currentTunerFreq ∧
      (setCenterFreq64 s c).1.currentRtlFreq = s.currentRtlFreq ∧
      (setCenterFreq64 s c).1.useInversion = s.useInversion)

/-- The converter may refuse only the frequency that is noted already. Where it
answers with the frequency that is noted, the dongle was set before, and any other
one fits the 32 bits of the base library, which does set it. -/
def Guarded (s : State) (c : Call) : Prop :=
  match c.converterTune (c.freq / 1000) with
  | none => c.freq = s.currentTunerFreq
  | some (newFreq, _) =>
    if newFreq = s.currentRtlFreq then s.dongle ≠ none
    else newFreq * 1000 < 2 ^ 32 ∧ c.baseSetCenterFreq (newFreq * 1000) = 0

/-- The frequency that is noted is the one of the dongle, once that was set. -/
def Noted (s : State) : Prop :=
  ∀ freq, s.dongle = some freq → freq = s.currentRtlFreq * 1000

variable {s : State} {c : Call}

theorem u32_u64 (n : ℕ) : u32 (u64 n) = u32 n := by
  unfold u32 u64
  omega

theorem u32_eq_self {n : ℕ} : u32 n = n ↔ n < 2 ^ 32 := by
  unfold u32
  omega

theorem truthful_iff (hs : Noted s) : Truthful s c ↔ Guarded s c := by
  unfold Truthful Guarded setCenterFreq64
  cases htune : c.converterTune (c.freq / 1000) with
  | none => simp
  | some answer =>
    obtain ⟨newFreq, mustInvert⟩ := answer
    simp only
    by_cases hsame : newFreq = s.currentRtlFreq
    · rw [if_pos hsame, if_pos hsame]
      cases hdongle : s.dongle with
      | none => simp
      | some freq =>
        have hfreq := hs freq hdongle
        simp [hfreq, hsame]
    · rw [if_neg hsame, if_neg hsame, u32_u64, ← u32_eq_self]
      by_cases hset : c.baseSetCenterFreq (u32 (newFreq * 1000)) = 0
      · simp only [hset, if_true, ne_eq, not_true_eq_false, false_imp_iff, and_true,
          true_imp_iff, Option.some.injEq, exists_eq_left', iff_self_and]
        intro hfits
        rw [← hset, hfits]
      · -- the base library has failed, and the frequency is noted all the same
        have hnot : ¬(u32 (newFreq * 1000) = newFreq * 1000 ∧
            c.baseSetCenterFreq (newFreq * 1000) = 0) := by
          rintro ⟨hfits, hzero⟩
          rw [hfits] at hset
          exact hset hzero
        simp [hset, hnot, hsame]

theorem noted_of_guarded (hs : Noted s) (hguard : Guarded s c) : Noted (setCenterFreq64 s c).1 := by
  unfold Guarded at hguard
  unfold setCenterFreq64
  cases htune : c.converterTune (c.freq / 1000) with
  | none => exact hs
  | some answer =>
    obtain ⟨newFreq, mustInvert⟩ := answer
    rw [htune] at hguard
    simp only at hguard ⊢
    split
    · exact hs
    · rename_i hsame
      rw [if_neg hsame] at hguard
      rw [u32_u64, u32_of_lt hguard.1, if_pos hguard.2]
      intro freq hfreq
      exact (Option.some.inj hfreq).symm

/-- In any sequence of calls, with any answers, all of them are truthful exactly
when all of them meet the guard. -/
theorem calls_truthful_iff (cs : List Call) :
    (∀ v ∈ calls {} cs, Truthful v.state v.input) ↔ ∀ v ∈ calls {} cs, Guarded v.state v.input := by
  refine visits_forall_iff Noted ?_ ?_ (fun freq h => absurd h (by simp)) cs
  · intro s c s' result hs _
    exact truthful_iff hs
  · intro s c s' result hs hcall hguard
    obtain ⟨rfl, _⟩ := Prod.mk.inj (Except.ok.inj hcall)
    exact noted_of_guarded hs hguard

/-- The converter answers, and the base library fails at first. -/
def tune100MHz (result : ℤ) : Call where
  freq := 100000000
  converterTune _ := some (1500000, true)
  baseSetCenterFreq _ := result

/-- The first call fails and changes the globals. The second one, for the same
frequency, then reports success on a dongle that was never set. -/
theorem failed_call_is_noted :
    (calls {} [tune100MHz (-1), tune100MHz 0]).map Visit.output = [-1, 0] ∧
      (calls {} [tune100MHz (-1), tune100MHz 0, tune100MHz 0]).map (fun v => v.state) =
        [{}, ⟨100000000, 1500000, true, none⟩, ⟨100000000, 1500000, true, none⟩] ∧
      ¬ ∀ v ∈ calls {} [tune100MHz (-1), tune100MHz 0], Truthful v.state v.input := by
  refine ⟨by decide, by decide, ?_⟩
  intro h
  have hfirst := (h ⟨{}, tune100MHz (-1), -1⟩ List.mem_cons_self).2 (by decide)
  exact absurd hfirst.1 (by decide)

end EsSensor.ConverterProxy
