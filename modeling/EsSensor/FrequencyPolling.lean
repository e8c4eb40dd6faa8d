import EsSensor.Library.GuardedRun
import EsSensor.RtlsdrDriver

/-!
The thread that polls the configuration and retunes the receiver while control
messages change the frequency and the gain. Every read of the configuration is
a step of its own; without a converter the thread tunes to a second read.
-/
namespace EsSensor.FrequencyPolling

open GuardedRun MachineWord RtlsdrDriver

/-- Where the driver, and then the thread that it starts, stands: before the
read of the centre frequency, the call that sets it, the two reads at the start
of the thread, and in the loop before the read of the gain, the comparing read
of the frequency and the read that is tuned to. -/
inductive Pc
  | readCenter
  | setCenter
  | initFc
  | initGain
  | gain
  | compare
  | tune
  deriving DecidableEq

structure State where
  minFreq : ℕ
  contextGain : ℚ
  hardware : Hardware
  pc : Pc
  centerFrequency : ℕ
  lastFc : ℕ
  lastGain : ℚ

/-- What the calls of one step return. -/
structure Results where
  setCenterFreq : ℤ
  setTunerGainMode : ℤ
  setTunerGain : ℤ
  deriving DecidableEq

def Results.success : Results := ⟨0, 0, 0⟩

/-- A new gain, or none at all if the value is not allowed. -/
def setGain (r : Results) (currentGain : ℚ) (h : Hardware) : Hardware :=
  if 0 < currentGain then
    let manual := h.setTunerGainMode r.setTunerGainMode 1
    if r.setTunerGainMode < 0 then manual
    else manual.setTunerGain r.setTunerGain (truncate (currentGain * 10))
  else if currentGain = 0 then h.setTunerGainMode r.setTunerGainMode 0
  else h

/-- One read of the configuration with what is done before the next one. -/
def threadStep (r : Results) (s : State) : State :=
  match s.pc with
  | .readCenter => { s with centerFrequency := s.minFreq, pc := .setCenter }
  | .setCenter =>
    { s with
      hardware := s.hardware.setCenterFreq r.setCenterFreq s.centerFrequency, pc := .initFc }
  | .initFc => { s with lastFc := s.minFreq, pc := .initGain }
  | .initGain => { s with lastGain := s.contextGain, pc := .gain }
  | .gain =>
    if s.lastGain ≠ s.contextGain then
      { s with
        lastGain := s.contextGain, hardware := setGain r s.contextGain s.hardware, pc := .compare }
    else { s with pc := .compare }
  | .compare =>
    if s.lastFc ≠ s.minFreq then { s with lastFc := s.minFreq, pc := .tune }
    else { s with pc := .gain }
  | .tune =>
    { s with hardware := s.hardware.setCenterFreq r.setCenterFreq s.minFreq, pc := .gain }

inductive Action
  | setMinFreq (freq : ℕ)
  | setGain (gain : ℚ)
  | thread (r : Results)

/-- The loop of the thread has no end. -/
def act : Action → State → Option State
  | .setMinFreq freq, s => some { s with minFreq := freq }
  | .setGain gain, s => some { s with contextGain := gain }
  | .thread r, s => some (threadStep r s)

/-- All calls succeed. -/
def Allowed : Action → Prop
  | .setMinFreq _ => True
  | .setGain _ => True
  | .thread r => r = .success

/-- The read that is remembered has found what the device is tuned to, and the
read that is tuned to finds what is remembered. The library takes what is tuned to. -/
def SameRead : Action → State → Prop
  | .thread _, s =>
    (s.pc = .setCenter → s.centerFrequency < 2 ^ 32) ∧
      (s.pc = .initFc → s.minFreq = s.centerFrequency) ∧
      (s.pc = .tune → s.minFreq = s.lastFc ∧ s.minFreq < 2 ^ 32)
  | _, _ => True

instance : ∀ a s, Decidable (SameRead a s)
  | .thread _, s =>
    inferInstanceAs (Decidable ((s.pc = .setCenter → s.centerFrequency < 2 ^ 32) ∧
      (s.pc = .initFc → s.minFreq = s.centerFrequency) ∧
      (s.pc = .tune → s.minFreq = s.lastFc ∧ s.minFreq < 2 ^ 32)))
  | .setMinFreq _, _ => isTrue trivial
  | .setGain _, _ => isTrue trivial

/-- An action that is not an update of the frequency. -/
def Quiet : Action → Prop
  | .setMinFreq _ => False
  | _ => True

/-- Between two tunings the device is at the frequency that is remembered. -/
structure Inv (s : State) : Prop where
  center_set : s.pc = .initFc → s.hardware.centerFreq = some s.centerFrequency
  last_set : s.pc = .initGain ∨ s.pc = .gain ∨ s.pc = .compare →
    s.hardware.centerFreq = some s.lastFc

theorem setGain_centerFreq (r : Results) (gain : ℚ) (h : Hardware) :
    (setGain r gain h).centerFreq = h.centerFreq := by
  unfold setGain
  split
  · dsimp only
    split <;> rfl
  · split <;> rfl

theorem setCenterFreq_success {h : Hardware} {freq : ℕ} (hfreq : freq < 2 ^ 32) :
    (h.setCenterFreq 0 freq).centerFreq = some freq := by
  rw [Hardware.setCenterFreq, written_zero, u32_of_lt hfreq]

/-- One action that meets the conditions keeps the invariant. -/
theorem act_inv {a : Action} {s s' : State} (hallowed : Allowed a) (hs : Inv s)
    (hact : act a s = some s') (hsame : SameRead a s) : Inv s' := by
  cases a with
  | setMinFreq freq =>
    obtain rfl := Option.some.inj hact
    exact ⟨hs.center_set, hs.last_set⟩
  | setGain gain =>
    obtain rfl := Option.some.inj hact
    exact ⟨hs.center_set, hs.last_set⟩
  | thread r =>
    obtain rfl : threadStep r s = s' := Option.some.inj hact
    obtain rfl : r = .success := hallowed
    obtain ⟨hcenter, hinit, htune⟩ := hsame
    unfold threadStep
    cases hpc : s.pc with
    | readCenter => exact ⟨nofun, by simp⟩
    | setCenter =>
      refine ⟨?_, by simp⟩
      intro _
      exact setCenterFreq_success (hcenter hpc)
    | initFc =>
      refine ⟨nofun, ?_⟩
      intro _
      show s.hardware.centerFreq = some s.minFreq
      rw [hs.center_set hpc, hinit hpc]
    | initGain => exact ⟨nofun, fun _ => hs.last_set (Or.inl hpc)⟩
    | gain =>
      have hset := hs.last_set (Or.inr (Or.inl hpc))
      dsimp only
      split
      · refine ⟨nofun, ?_⟩
        intro _
        show (setGain _ _ _).centerFreq = _
        rw [setGain_centerFreq, hset]
      · exact ⟨nofun, fun _ => hset⟩
    | compare =>
      dsimp only
      split
      · exact ⟨nofun, by simp⟩
      · exact ⟨nofun, fun _ => hs.last_set (Or.inr (Or.inr hpc))⟩
    | tune =>
      obtain ⟨hremembered, hlt⟩ := htune hpc
      refine ⟨nofun, ?_⟩
      intro _
      show (s.hardware.setCenterFreq 0 s.minFreq).centerFreq = some s.lastFc
      rw [setCenterFreq_success hlt, hremembered]

/-- The comparing read of the latest frequency lies ahead, or it is done and
what is missing is at most the call that tunes. -/
def Follows (s : State) : Prop :=
  s.pc = .compare ∨ (s.pc = .tune ∧ s.lastFc = s.minFreq) ∨
    (s.pc = .gain ∧ s.hardware.centerFreq = some s.minFreq)

/-- After the gain comes the comparison, with everything it reads as it was. -/
theorem threadStep_gain {r : Results} {s : State} (hpc : s.pc = .gain) :
    (threadStep r s).pc = .compare ∧ (threadStep r s).lastFc = s.lastFc ∧
      (threadStep r s).minFreq = s.minFreq ∧
      (threadStep r s).hardware.centerFreq = s.hardware.centerFreq := by
  unfold threadStep
  rw [hpc]
  dsimp only
  split
  · exact ⟨rfl, rfl, rfl, setGain_centerFreq _ _ _⟩
  · exact ⟨rfl, rfl, rfl, rfl⟩

theorem act_follows {a : Action} {s s' : State} (hallowed : Allowed a) (hquiet : Quiet a)
    (hs : Inv s) (hact : act a s = some s') (hsame : SameRead a s) (hfollows : Follows s) :
    Follows s' := by
  cases a with
  | setMinFreq freq => exact absurd hquiet id
  | setGain gain =>
    obtain rfl := Option.some.inj hact
    exact hfollows
  | thread r =>
    obtain rfl : threadStep r s = s' := Option.some.inj hact
    obtain rfl : r = .success := hallowed
    rcases hfollows with hpc | ⟨hpc, hlast⟩ | ⟨hpc, _⟩
    · unfold threadStep
      rw [hpc]
      dsimp only
      split
      · exact Or.inr (Or.inl ⟨rfl, rfl⟩)
      · rename_i hsame
        refine Or.inr (Or.inr ⟨rfl, ?_⟩)
        show s.hardware.centerFreq = some s.minFreq
        rw [hs.last_set (Or.inr (Or.inr hpc)), not_not.mp hsame]
    · unfold threadStep
      rw [hpc]
      exact Or.inr (Or.inr ⟨rfl, setCenterFreq_success (hsame.2.2 hpc).2⟩)
    · exact Or.inl (threadStep_gain hpc).1

/-- From the head of the loop on, one step of the thread is enough to follow. -/
theorem run_follows {actions : List Action} {s u : State} (hs : Inv s)
    (hallowed : ∀ a ∈ actions, Allowed a) (hquiet : ∀ a ∈ actions, Quiet a)
    (hmeets : Meets act SameRead s actions)
    (hstart : Follows s ∨ (s.pc = .gain ∧ ∃ r, .thread r ∈ actions))
    (hrun : run act actions s = some u) : Follows u := by
  induction actions generalizing s with
  | nil =>
    obtain rfl := Option.some.inj hrun
    rcases hstart with hfollows | ⟨_, r, hr⟩
    · exact hfollows
    · simp at hr
  | cons a rest ih =>
    obtain ⟨t, hact, hrest⟩ := Option.bind_eq_some_iff.mp hrun
    obtain ⟨hsame, hmeets'⟩ := meets_cons.mp hmeets t hact
    have ha := hallowed a List.mem_cons_self
    have haq := hquiet a List.mem_cons_self
    have ht := act_inv ha hs hact hsame
    refine ih ht (fun b hb => hallowed b (List.mem_cons_of_mem a hb))
      (fun b hb => hquiet b (List.mem_cons_of_mem a hb)) hmeets' ?_ hrest
    rcases hstart with hfollows | ⟨hpc, r, hr⟩
    · exact Or.inl (act_follows ha haq hs hact hsame hfollows)
    · cases a with
      | setMinFreq freq => exact absurd haq id
      | setGain gain =>
        obtain rfl := Option.some.inj hact
        exact Or.inr ⟨hpc, r, by simpa using hr⟩
      | thread r' =>
        obtain rfl : threadStep r' s = t := Option.some.inj hact
        exact Or.inl (Or.inl (threadStep_gain hpc).1)

/-- After `before` the frequency is not updated any more. Whenever the thread
then goes through its loop once from the head, the device is left at the
frequency of the configuration. -/
def LatestWins (s : State) (before after : List Action) : Prop :=
  ∀ pre mid t u, after = pre ++ mid → run act (before ++ pre) s = some t → t.pc = .gain →
    (∃ r, .thread r ∈ mid) → run act mid t = some u → u.pc = .gain →
      u.hardware.centerFreq = some u.minFreq

/-- The latest frequency wins in every run in which the two reads of each tuning
find the same frequency, one that fits a word. -/
theorem latest_frequency_wins {s : State} (hpc : s.pc = .readCenter)
    (before after : List Action) (hallowed : ∀ a ∈ before ++ after, Allowed a)
    (hquiet : ∀ a ∈ after, Quiet a) (hmeets : Meets act SameRead s (before ++ after)) :
    LatestWins s before after := by
  rintro pre mid t u rfl hbefore hhead hthread hmid hend
  have hstart : Inv s := ⟨by simp [hpc], by simp [hpc]⟩
  rw [← List.append_assoc] at hmeets hallowed
  have hkeep : ∀ a ∈ before ++ pre, ∀ x y, Inv x → act a x = some y → SameRead a x → Inv y :=
    fun a ha x y hx hact hsame => act_inv (hallowed a (List.mem_append_left _ ha)) hx hact hsame
  have ht : Inv t :=
    inv_of_meets hkeep hstart (hmeets.of_prefix (List.prefix_append _ _)) hbefore
  have hmeetsMid : Meets act SameRead t mid := hmeets.after hbefore
  have hfollows := run_follows ht (fun a ha => hallowed a (List.mem_append_right _ ha))
    (fun a ha => hquiet a (List.mem_append_right _ ha)) hmeetsMid (Or.inr ⟨hhead, hthread⟩) hmid
  rcases hfollows with hcompare | ⟨htune, _⟩ | ⟨_, hset⟩
  · exact absurd (hend.symm.trans hcompare) (by decide)
  · exact absurd (hend.symm.trans htune) (by decide)
  · exact hset

/-- A thread that has not started yet, on a device as it was found. -/
def waiting (minFreq : ℕ) : State where
  minFreq := minFreq
  contextGain := 328 / 10
  hardware := {}
  pc := .readCenter
  centerFrequency := 0
  lastFc := 0
  lastGain := 0

/-- The thread up to its first comparing read. -/
def startUp : List Action := List.replicate 5 (.thread .success)

theorem latest_frequency_wins_change :
    LatestWins (waiting 100000000) (startUp ++ [.setMinFreq 102000000])
      [.thread .success, .thread .success, .thread .success, .thread .success] := by
  refine latest_frequency_wins rfl _ _ ?_ ?_ ?_
  · simp [startUp, Allowed]
  · simp [Quiet]
  · decide +kernel

/-- The frequency goes from 102 MHz to 104 MHz between the two reads of one
tuning, and back: the device stays at 104 MHz. -/
theorem frequency_back_again_lost :
    (∀ a ∈ startUp ++ [.setMinFreq 102000000, .thread .success, .setMinFreq 104000000,
      .thread .success, .setMinFreq 102000000, .thread .success, .thread .success], Allowed a) ∧
    ¬ LatestWins (waiting 100000000)
      (startUp ++ [.setMinFreq 102000000, .thread .success, .setMinFreq 104000000,
        .thread .success, .setMinFreq 102000000])
      [.thread .success, .thread .success] := by
  constructor
  · simp [startUp, Allowed]
  · intro hwins
    have hlast := hwins [] _ _ _ rfl rfl (by decide +kernel) ⟨.success, List.mem_cons_self⟩ rfl
      (by decide +kernel)
    exact absurd hlast (by decide +kernel)

theorem threadStep_same {r : Results} {s : State} (hpc : s.pc = .compare)
    (hsame : s.lastFc = s.minFreq) : threadStep r s = { s with pc := .gain } := by
  unfold threadStep
  rw [hpc]
  exact if_neg (not_not.mpr hsame)

/-- No weaker condition on the tuning read will do: where it differs from the
read that is remembered, a return to the latter is lost. -/
theorem differing_read_lost {s : State} (hpc : s.pc = .tune) (hmin : s.minFreq < 2 ^ 32)
    (hdiffer : s.minFreq ≠ s.lastFc) :
    ¬ LatestWins s [.thread .success, .setMinFreq s.lastFc]
      [.thread .success, .thread .success] := by
  intro hwins
  have htuned : threadStep .success s =
      { s with hardware := s.hardware.setCenterFreq 0 s.minFreq, pc := .gain } := by
    unfold threadStep
    rw [hpc]
    rfl
  obtain ⟨hcompare, hlast, hreq, hset⟩ := threadStep_gain (r := .success)
    (s := { s with
      minFreq := s.lastFc, hardware := s.hardware.setCenterFreq 0 s.minFreq, pc := .gain }) rfl
  have hback := threadStep_same (r := .success) hcompare (hlast.trans hreq.symm)
  have hbefore : run act ([.thread .success, .setMinFreq s.lastFc] ++ []) s =
      some { s with
        minFreq := s.lastFc, hardware := s.hardware.setCenterFreq 0 s.minFreq, pc := .gain } := by
    simp [act, htuned]
  have hdevice := hwins [] _ _ _ rfl hbefore rfl ⟨.success, List.mem_cons_self⟩ rfl
    (by rw [hback])
  rw [hback] at hdevice
  have heq := hset.symm.trans hdevice
  rw [setCenterFreq_success hmin, hreq] at heq
  exact hdiffer (Option.some.inj heq)

end EsSensor.FrequencyPolling
